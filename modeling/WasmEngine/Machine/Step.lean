import WasmEngine.Instr.Fetch
import WasmEngine.Machine.Access
import WasmEngine.Machine.Call

/-!
# Machine/Step — one step of the machine

`Config.step` lets act what is in control: a dispatch loop executes one instruction, a host function
makes one request, and an outcome goes to what waits for it.  A dispatch loop spends one unit of its
instance's budget on each instruction.  A fault ends everything: no host function sees it.

`Config.run` takes steps up to a bound.  The bound does not matter once it suffices: `run_of_le`.
-/

namespace WasmEngine

/-- What one step leaves. -/
structure Transition (σ : Type) where
  store : Store σ
  control : Control σ
  /-- What begins to wait for the outcome, innermost first. -/
  waiting : List (Pending σ) := []

namespace Store

variable {σ : Type}

/-- A transition to an outcome. -/
def finish (s : Store σ) (outcome : Except Error (List Slot)) : Transition σ :=
  { store := s, control := .done outcome }

/-- A transition to a dispatch loop. -/
def resume (s : Store σ) (r : Run) : Transition σ := { store := s, control := .run r }

/-- A transition to a host function. -/
def proceed (s : Store σ) (call : HostCall) (program : HostProgram σ) : Transition σ :=
  { store := s, control := .host call program }

/-- Spends one unit of the budget of an instance; false if none is left. -/
def spendFuel (s : Store σ) (id : InstanceId) : Bool × Store σ :=
  match s.instances[id]?.bind (·.fuel) with
  | none => (true, s)
  | some 0 => (false, s)
  | some (n + 1) => (true, s.modifyInstance id fun inst => { inst with fuel := some n })

/-- The instruction at an offset in the code of an instance, and the offset behind it. -/
def fetch? (s : Store σ) (id : InstanceId) (pc : Nat) : Option (Instr BlockJump × Nat) := do
  let inst ← s.instances[id]?
  Instr.fetch inst.module.bytes inst.sideTable pc

/-- Calls a function from a frame, whose operands begin with the arguments.  A wasm function gets a
frame on the same stack; a dispatch loop that calls an import waits for it. -/
def callFrom (s : Store σ) (r : Run) (func : Nat) : Transition σ :=
  let ⟨id, frame, callers⟩ := r
  match s.instances[id]? with
  | none => s.finish (.error (.fault .missingInstance))
  | some inst =>
    match inst.functions[func]? with
    | none => s.finish (.error (.fault .missingFunction))
    | some callee =>
      let count := callee.type.params.length
      if frame.operands.length < count then s.finish (.error (.fault .missingOperand))
      else
        let args := (frame.operands.take count).reverse
        let frame := frame.withOperands (frame.operands.drop count)
        match callee with
        | .imported type ref binding =>
          let (control, s) := s.callImport id type ref binding args frame.depth
          { store := s, control, waiting := [.run ⟨id, frame, callers⟩] }
        | .code type entry declared =>
          match Frame.new inst.limits type entry declared args frame.slotCount frame.depth with
          | .ok callee => s.resume ⟨id, callee, frame :: callers⟩
          | .error e => s.finish (.error e)

/-- The function in a slot of the table of an instance, which must have the type of an index. -/
def tableEntry (s : Store σ) (id : InstanceId) (type slot : Nat) : Except Error Nat :=
  match s.instances[id]? with
  | none => .error (.fault .missingInstance)
  | some inst =>
    match inst.table[slot]? with
    | none => .error (.trap .undefinedElement)
    | some none => .error (.trap .uninitializedElement)
    | some (some func) =>
      match inst.functions[func]?, inst.module.types[type]? with
      | some f, some t =>
        if f.type = t then .ok func else .error (.trap .indirectCallTypeMismatch)
      | none, _ => .error (.fault .missingFunction)
      | _, none => .error (.fault .missingType)

/-- Executes an instruction that needs more than its frame. -/
def execOutside (s : Store σ) (r : Run) (instr : Instr BlockJump) : Transition σ :=
  match instr with
  | .call func => s.callFrom r func
  | .callIndirect type _ =>
    match r.frame.operands with
    | [] => s.finish (.error (.fault .missingOperand))
    | slot :: rest =>
      match s.tableEntry r.inst type slot.toUInt32.toNat with
      | .ok func => s.callFrom { r with frame := r.frame.withOperands rest } func
      | .error e => s.finish (.error e)
  | instr =>
    match s.access r.inst instr r.frame.operands with
    | (.ok operands, s) => s.resume { r with frame := r.frame.withOperands operands }
    | (.error e, s) => s.finish (.error e)

/-- Leaves a function: its results, the topmost operands, go to its caller. -/
def leave (s : Store σ) (r : Run) : Transition σ :=
  let ⟨id, frame, callers⟩ := r
  if frame.operands.length < frame.resultCount then s.finish (.error (.fault .missingOperand))
  else
    let results := frame.operands.take frame.resultCount
    match callers with
    | [] => s.finish (.ok results.reverse)
    | caller :: callers =>
      s.resume ⟨id, caller.withOperands (results ++ caller.operands), callers⟩

/-- Executes the next instruction of a dispatch loop. -/
def dispatch (s : Store σ) (r : Run) : Transition σ :=
  match s.spendFuel r.inst with
  | (false, s) => s.finish (.error (.trap .outOfFuel))
  | (true, s) =>
    let ⟨id, frame, callers⟩ := r
    let opcode := frame.pc
    match s.fetch? id opcode with
    | none => s.finish (.error (.fault .missingInstruction))
    | some (instr, pc) =>
      match { frame with pc }.exec opcode instr with
      | .ok (.next frame) => s.resume ⟨id, frame, callers⟩
      | .ok (.leave frame) => s.leave ⟨id, frame, callers⟩
      | .ok (.outside frame) => s.execOutside ⟨id, frame, callers⟩ instr
      | .error e => s.finish (.error e)

/-- Ends a host function.  The counters of the calling instance go back to what they were. -/
def endHostCall (s : Store σ) (call : HostCall) (outcome : Except Error (Option Value)) :
    Except Error (List Slot) × Store σ :=
  match call.caller with
  | none =>
    (outcome >>= HostCall.resultSlots call.results .argumentMismatch, s)
  | some c =>
    let s := s.modifyInstance c.inst fun inst =>
      { inst with hostDepth := c.outerHostDepth, reentryDepth := c.outerReentryDepth }
    (s.importOutcome c.inst c.ref call.results outcome, s)

/-- The instance that a host function calls, and the depth that it starts from. -/
def callTarget (call : HostCall) : Target → Except Error (InstanceId × Nat)
  | .instance id => .ok (id, 0)
  | .caller =>
    match call.caller with
    | some c => .ok (c.inst, call.depth)
    | none => .error .callerNotWasm

/-- The memory of the caller of a host function, for reading. -/
def callerMemory (s : Store σ) (call : HostCall) : Except Error Memory :=
  match call.caller with
  | none => .error .callerNotWasm
  | some c => (s.viewMemory? c.inst).getD (.error (.link .unknownMemory))

/-- Changes the memory of the caller of a host function. -/
def updateCallerMemory {α : Type} (s : Store σ) (call : HostCall) (op : Memory.Update α) :
    Except Error α × Store σ :=
  match call.caller with
  | none => (.error .callerNotWasm, s)
  | some c =>
    let (outcome, s) := s.updateMemory? c.inst op
    (outcome.getD (.error (.link .unknownMemory)), s)

/-- Answers the next request of a host function. -/
def serve (s : Store σ) (call : HostCall) : HostProgram σ → Transition σ
  | .done outcome =>
    let (outcome, s) := s.endHostCall call outcome
    s.finish outcome
  | .getState k => s.proceed call (k s.host)
  | .setState host k => { s with host }.proceed call k
  | .viewMemory k => s.proceed call (k (s.callerMemory call))
  | .updateMemory op k =>
    let (outcome, s) := s.updateCallerMemory call op
    s.proceed call (k outcome)
  | .call target callee args holds k =>
    match callTarget call target with
    | .error e => s.proceed call (k (.error e))
    | .ok (id, depth) =>
      match s.acquireAll holds with
      | (.error e, s) => s.finish (.error e)
      | (.ok (), s) =>
        let ((control, results), s) := s.invocation id callee args depth
        { store := s, control, waiting := [.invocation id holds, .host call results k] }
  | .setFuel id fuel k => (s.modifyInstance id fun inst => { inst with fuel }).proceed call k

/-- Hands an outcome to what waits for it. -/
def deliver (s : Store σ) (outcome : Except Error (List Slot)) : Pending σ → Transition σ
  | .run r =>
    match outcome with
    | .ok results =>
      s.resume { r with frame := r.frame.withOperands (results.reverse ++ r.frame.operands) }
    | .error e => s.finish (.error e)
  | .invocation id holds =>
    let s :=
      match outcome with
      | .error e => if e.IsFatal then s.modifyInstance id ({ · with isPoisoned := true }) else s
      | .ok _ => s
    (s.releaseAll holds).finish outcome
  | .host call results k =>
    match outcome with
    | .error (.fault f) => s.finish (.error (.fault f))
    | outcome => s.proceed call (k (outcome.map (Value.ofSlots · results)))

end Store

namespace Config

variable {σ : Type}

/-- What a configuration is after a transition. -/
def ofTransition (t : Transition σ) (pending : List (Pending σ)) : Config σ :=
  { store := t.store, control := t.control, pending := t.waiting ++ pending }

/-- The outcome of a configuration in which nothing is left to do. -/
def outcome? (c : Config σ) : Option (Except Error (List Slot)) :=
  match c.control, c.pending with
  | .done outcome, [] => some outcome
  | _, _ => none

/-- One step.  A configuration in which nothing is left to do stays as it is. -/
def step (c : Config σ) : Config σ :=
  let ⟨store, control, pending⟩ := c
  match control with
  | .run r => ofTransition (store.dispatch r) pending
  | .host call program => ofTransition (store.serve call program) pending
  | .done outcome =>
    match pending with
    | [] => ⟨store, .done outcome, []⟩
    | p :: pending => ofTransition (store.deliver outcome p) pending

/-- Takes steps until nothing is left to do, at most as many as `budget` says. -/
def run : (budget : Nat) → Config σ → Config σ
  | 0, c => c
  | budget + 1, c => if c.outcome?.isSome then c else run budget c.step

theorem run_of_isSome {c : Config σ} (h : c.outcome?.isSome) (n : Nat) : run n c = c := by
  cases n <;> simp [run, h]

/-- **A run may be cut anywhere.** -/
theorem run_add (m n : Nat) (c : Config σ) : run (m + n) c = run n (run m c) := by
  induction m generalizing c with
  | zero => simp [run]
  | succ m ih =>
    rw [Nat.succ_add, run, run]
    split
    · next h => exact (run_of_isSome h n).symm
    · exact ih c.step

/-- **A budget that suffices fixes the result**: a larger one gives the same. -/
theorem run_of_le {m n : Nat} {c : Config σ} (h : (run m c).outcome?.isSome) (hmn : m ≤ n) :
    run n c = run m c := by
  obtain ⟨k, rfl⟩ := Nat.exists_eq_add_of_le hmn
  rw [run_add, run_of_isSome h]

end Config

end WasmEngine
