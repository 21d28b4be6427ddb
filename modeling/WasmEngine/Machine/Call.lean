import WasmEngine.Machine.Config

/-!
# Machine/Call — entering and leaving functions

A wasm function is entered with a new frame, within the limits on call depth and operands.  An import
is entered by starting its host function, within the limit on host depth, or by running its memory
hook on the spot.  The result of an import must be what its type declares.
-/

namespace WasmEngine

/-- The stack overflow that exceeding a limit is. -/
def stackOverflow {α : Type} : Except Error α := .error (.trap .stackOverflow)

/-- The frame of a function at its first instruction.  `below` counts the operands and locals of the
activations below without the arguments, and `outerDepth` the live activations. -/
def Frame.new (limits : Limits) (type : Signature) (entry declared : Nat) (args : List Slot)
    (below outerDepth : Nat) : Except Error Frame :=
  if limits.maxCallDepth ≤ outerDepth then stackOverflow
  else if limits.maxValueStack < below + args.length + declared then stackOverflow
  else
    .ok { pc := entry, locals := args.toArray ++ Array.replicate declared 0
          resultCount := type.results.length, below, depth := outerDepth + 1 }

namespace HostCall

/-- The slots that the result of a host function leaves: exactly one if its type has a first result
and none otherwise. -/
def resultSlots (results : List ValType) (mismatch : Error) (result : Option Value) :
    Except Error (List Slot) :=
  match result, results.head? with
  | none, none => .ok []
  | some v, some t => if v.type = t then .ok [v.toSlot] else .error mismatch
  | _, _ => .error mismatch

end HostCall

namespace Store

variable {σ : Type}

/-- Ends the call of an import: whatever the import answers, an instance that was poisoned meanwhile
goes no further. -/
def importOutcome (s : Store σ) (id : InstanceId) (ref : ImportName) (results : List ValType)
    (outcome : Except Error (Option Value)) : Except Error (List Slot) :=
  match outcome with
  | .error e => .error e
  | .ok result =>
    if s.instances[id]?.any (·.isPoisoned) then .error .poisoned
    else HostCall.resultSlots results (.signatureMismatch ref) result

/-- Runs a memory hook on the memory of an instance.  The memory is borrowed before the hook is. -/
def runHook (s : Store σ) (id : InstanceId) (h : MemoryHook σ) (args : List Value) :
    Except Error (Option Value) × Store σ :=
  let host := s.host
  let isHeld := s.heldHooks.contains h.id
  let op : Memory.Update (Except Error (Option Value) × σ) := fun memory =>
    if isHeld then .error (.hostAbort "memory hook is already running") memory
    else
      match h.run args (host, memory) with
      | .ok a (host, memory) => .ok (.ok a, host) memory
      | .error e (host, memory) => .ok (.error e, host) memory
  match s.updateMemory? id op with
  | (none, s) => (.error (.link .unknownMemory), s)
  | (some (.error e), s) => (.error e, s)
  | (some (.ok (outcome, host)), s) => (outcome, { s with host })

/-- Calls an import with its arguments.  `depth` is the number of live activations. -/
def callImport (s : Store σ) (id : InstanceId) (type : Signature) (ref : ImportName)
    (binding : ImportBinding σ) (args : List Slot) (depth : Nat) : Control σ × Store σ :=
  let values := Value.ofSlots args type.params
  match binding with
  | .hook h =>
    let (outcome, s) := s.runHook id h values
    (.done (s.importOutcome id ref type.results outcome), s)
  | .func f =>
    let (caller, s) := s.withInstance id none fun inst =>
      if inst.limits.maxHostDepth ≤ inst.hostDepth then (none, inst)
      else
        (some { inst := id, ref, outerHostDepth := inst.hostDepth
                outerReentryDepth := inst.reentryDepth },
          { inst with hostDepth := inst.hostDepth + 1, reentryDepth := depth })
    match caller with
    | none => (.done stackOverflow, s)
    | some caller =>
      let call : HostCall := { caller := some caller, depth, results := type.results }
      (.host call (f.body { depth } values), s)

/-- Calls a function on a stack of its own. -/
def callFunction (s : Store σ) (id : InstanceId) (func : Nat) (args : List Slot) (depth : Nat) :
    Control σ × Store σ :=
  match s.instances[id]? with
  | none => (.done (.error (.fault .missingInstance)), s)
  | some inst =>
    match inst.functions[func]? with
    | none => (.done (.error (.fault .missingFunction)), s)
    | some (.imported type ref binding) => s.callImport id type ref binding args depth
    | some (.code type entry declared) =>
      match Frame.new inst.limits type entry declared args 0 depth with
      | .ok frame => (.run { inst := id, frame }, s)
      | .error e => (.done (.error e), s)

/-! ## Borrowing -/

/-- Borrows something, if its present loans allow it. -/
def acquire (s : Store σ) : Hold → Except Error Unit × Store σ
  | .hook h =>
    if s.heldHooks.contains h then (.error (.fault .conflictingLoan), s)
    else (.ok (), { s with heldHooks := h :: s.heldHooks })
  | .memory id exclusive =>
    s.withInstance id (.ok ()) fun inst =>
      if inst.memory.isNone then (.ok (), inst)
      else
        match inst.loan, exclusive with
        | .shared n, false => (.ok (), { inst with loan := .shared (n + 1) })
        | .shared 0, true => (.ok (), { inst with loan := .exclusive })
        | _, _ => (.error (.fault .conflictingLoan), inst)

/-- Gives back something that was borrowed. -/
def release (s : Store σ) : Hold → Store σ
  | .hook h => { s with heldHooks := s.heldHooks.erase h }
  | .memory id exclusive =>
    s.modifyInstance id fun inst =>
      if inst.memory.isNone then inst
      else
        match inst.loan, exclusive with
        | .shared (n + 1), false => { inst with loan := .shared n }
        | .exclusive, true => { inst with loan := .shared 0 }
        | _, _ => inst

/-- Borrows several things, all or none. -/
def acquireAll (s : Store σ) : List Hold → Except Error Unit × Store σ
  | [] => (.ok (), s)
  | hold :: holds =>
    match s.acquire hold with
    | (.error e, s) => (.error e, s)
    | (.ok (), s) =>
      match s.acquireAll holds with
      | (.ok (), s) => (.ok (), s)
      | (.error e, s) => (.error e, s.release hold)

/-- Gives back several things. -/
def releaseAll (s : Store σ) (holds : List Hold) : Store σ := holds.foldl release s

/-! ## Invocations -/

/-- The function that a callee names in an instance, and its results, if the arguments fit. -/
def lookupCallee (inst : Instance σ) (callee : Callee) (args : List Value) :
    Except Error (Nat × List ValType) :=
  match callee with
  | .export name => do
    let func ← inst.exportedFunc name
    let type ← inst.funcType func
    if Value.HaveTypes args type.params then pure (func, type.results)
    else throw .argumentMismatch
  | .typed f =>
    if f.moduleId = inst.moduleId ∧ Value.HaveTypes args f.params then .ok (f.index, f.results)
    else .error .argumentMismatch

/-- Starts an invocation of an instance.  A poisoned instance does not run, and an invocation made
while a host function of the instance runs starts at that function's depth at least.  Yields the
results that the function declares, too. -/
def invocation (s : Store σ) (id : InstanceId) (callee : Callee) (args : List Value)
    (depth : Nat) : (Control σ × List ValType) × Store σ :=
  match s.instances[id]? with
  | none => ((.done (.error (.fault .missingInstance)), []), s)
  | some inst =>
    match lookupCallee inst callee args with
    | .error e => ((.done (.error e), []), s)
    | .ok (func, results) =>
      if inst.isPoisoned then ((.done (.error .poisoned), results), s)
      else
        let (control, s) :=
          s.callFunction id func (args.map Value.toSlot) (max depth inst.reentryDepth)
        ((control, results), s)

end Store

end WasmEngine
