import WasmEngine.Proofs.Nesting.Core

/-!
# Proofs/Nesting/Moves — what one step does to calls and counters

Seen from outside, a step starts a function, ends one, or does neither.  `Store.Entry` says how a
call can begin, `Store.Turn` what a dispatch loop can do and `Store.Service` what a host function can.
Each holds of the function of the machine that it is about, and says all that the laws of poisoning
and of the depth budgets need to know.
-/

namespace WasmEngine

variable {σ β : Type}

namespace Store

variable {s : Store σ} {id : InstanceId}

/-- Whether an outcome is a fault of the engine, of which no host function hears. -/
def IsFault : Except Error (List Slot) → Prop
  | .error (.fault _) => True
  | _ => False

/-- What cannot be borrowed is a fault. -/
theorem eq_of_acquire {hold : Hold} {e : Error} (h : (s.acquire hold).1 = .error e) :
    e = .fault .conflictingLoan := by
  cases hold with
  | hook h' =>
    simp only [acquire] at h
    split at h <;> cases h
    rfl
  | memory id exclusive =>
    simp only [acquire, withInstance_eq] at h
    repeat' split at h
    all_goals
      cases h
      try rfl

theorem eq_of_acquireAll {holds : List Hold} {e : Error} (h : (s.acquireAll holds).1 = .error e) :
    e = .fault .conflictingLoan := by
  induction holds generalizing s with
  | nil => cases h
  | cons hold holds ih =>
    rw [acquireAll] at h
    split at h
    · next heq =>
      cases h
      exact eq_of_acquire (congrArg Prod.fst heq)
    · next s₁ heq =>
      split at h
      · cases h
      · next heq' =>
        cases h
        exact ih (congrArg Prod.fst heq')

/-! ## Beginning a call -/

/-- The call of a host function by an instance, with the counters to put back. -/
def hostCall (id : InstanceId) (inst : Instance σ) (ref : ImportName) (depth : Nat)
    (results : List ValType) : HostCall where
  caller := some { inst := id, ref, outerHostDepth := inst.hostDepth
                   outerReentryDepth := inst.reentryDepth }
  depth := depth
  results := results

/-- The counters of an instance while a host function that it called at a depth is running. -/
def countHost (s : Store σ) (id : InstanceId) (depth : Nat) : Store σ :=
  s.modifyInstance id fun inst =>
    { inst with hostDepth := inst.hostDepth + 1, reentryDepth := depth }

/-- How a function of an instance can begin when `depth` of its frames are live. -/
inductive Entry (s : Store σ) (id : InstanceId) (depth : Nat) : Control σ × Store σ → Prop where
  /-- It does not, or it is a memory hook that fails. -/
  | failed {e : Error} {s' : Store σ} (hs : s'.cores = s.cores) :
      Entry s id depth (.done (.error e), s')
  /-- It is a memory hook that answers. -/
  | answered {slots : List Slot} {s' : Store σ} (hs : s'.cores = s.cores) (hp : ¬s'.IsPoisoned id) :
      Entry s id depth (.done (.ok slots), s')
  | code {inst : Instance σ} {frame : Frame} (hinst : s.instances[id]? = some inst)
      (hroom : depth < inst.limits.maxCallDepth) (hdepth : frame.depth = depth + 1) :
      Entry s id depth (.run { inst := id, frame }, s)
  | host {inst : Instance σ} {func : Nat} {type : Signature} {ref : ImportName} {f : HostFunc σ}
      (args : List Value) (hinst : s.instances[id]? = some inst)
      (hbound : inst.functions[func]? = some (.imported type ref (.func f)))
      (hroom : inst.hostDepth < inst.limits.maxHostDepth) :
      Entry s id depth
        (.host (hostCall id inst ref depth type.results) (f.body { depth } args),
          s.countHost id depth)

/-- Whatever an import answers, an instance that is poisoned goes no further. -/
theorem not_isPoisoned_of_importOutcome {ref : ImportName} {results : List ValType}
    {outcome : Except Error (Option Value)} {slots : List Slot}
    (h : s.importOutcome id ref results outcome = .ok slots) : ¬s.IsPoisoned id := by
  intro hp
  unfold importOutcome at h
  cases outcome with
  | error e => cases h
  | ok result =>
    rw [IsPoisoned] at hp
    simp only [hp, if_true] at h
    cases h

/-- A call of an import enters a host function, or has come to its end. -/
theorem callImport_entry {inst : Instance σ} {func : Nat} {type : Signature} {ref : ImportName}
    {binding : ImportBinding σ} (hinst : s.instances[id]? = some inst)
    (hbound : inst.functions[func]? = some (.imported type ref binding)) (args : List Slot)
    (depth : Nat) : s.Entry id depth (s.callImport id type ref binding args depth) := by
  cases binding with
  | hook h =>
    simp only [callImport]
    cases hout : importOutcome _ id ref type.results _ with
    | error e => exact .failed (cores_runHook ..)
    | ok slots => exact .answered (cores_runHook ..) (not_isPoisoned_of_importOutcome hout)
  | func f =>
    simp only [callImport, withInstance_eq, hinst]
    by_cases hroom : inst.limits.maxHostDepth ≤ inst.hostDepth
    · simp only [if_pos hroom]
      refine .failed ?_
      rw [cores, cores, Array.setIfInBounds]
      obtain ⟨hlt, rfl⟩ := Array.getElem?_eq_some_iff.1 hinst
      rw [dif_pos hlt, Array.set_getElem_self]
    · simp only [if_neg hroom]
      have hentry : s.Entry id depth (.host (hostCall id inst ref depth type.results)
          (f.body { depth } (Value.ofSlots args type.params)), s.countHost id depth) :=
        .host _ hinst hbound (Nat.not_le.1 hroom)
      rw [countHost, modifyInstance, withInstance_eq, hinst] at hentry
      exact hentry

/-- It never enters code. -/
theorem callImport_ne_run (s : Store σ) (id : InstanceId) (type : Signature) (ref : ImportName)
    (binding : ImportBinding σ) (args : List Slot) (depth : Nat) (r : Run) :
    (s.callImport id type ref binding args depth).1 ≠ .run r := by
  intro h
  cases binding with
  | hook hook => cases h
  | func f =>
    simp only [callImport] at h
    split at h <;> cases h

/-- A new activation is one deeper, and not deeper than allowed. -/
theorem depth_of_new {limits : Limits} {type : Signature} {entry declared below depth : Nat}
    {args : List Slot} {frame : Frame}
    (h : Frame.new limits type entry declared args below depth = .ok frame) :
    depth < limits.maxCallDepth ∧ frame.depth = depth + 1 := by
  unfold Frame.new at h
  split at h
  · cases h
  · next hdepth =>
    split at h
    · cases h
    · cases h
      exact ⟨Nat.not_le.1 hdepth, rfl⟩

/-- A call of a function enters its code, or the import that it stands for. -/
theorem callFunction_entry (s : Store σ) (id : InstanceId) (func : Nat) (args : List Slot)
    (depth : Nat) : s.Entry id depth (s.callFunction id func args depth) := by
  unfold callFunction
  cases hinst : s.instances[id]? with
  | none => exact .failed rfl
  | some inst =>
    simp only
    cases hfunc : inst.functions[func]? with
    | none => exact .failed rfl
    | some callee =>
      cases callee with
      | imported type ref binding => exact callImport_entry hinst hfunc args depth
      | code type entry declared =>
        simp only
        cases hnew : Frame.new inst.limits type entry declared args 0 depth with
        | error e => exact .failed rfl
        | ok frame => exact .code hinst (depth_of_new hnew).1 (depth_of_new hnew).2

/-- A name that is not exported is no reason to poison an instance; nor is a function that is not
there. -/
theorem not_isFatal_of_exportedFunc {inst : Instance σ} {name : String} {e : Error}
    (h : inst.exportedFunc name = .error e) : ¬e.IsFatal := by
  unfold Instance.exportedFunc at h
  repeat' split at h
  all_goals
    cases h
    try exact id

theorem not_isFatal_of_funcType {inst : Instance σ} {func : Nat} {e : Error}
    (h : inst.funcType func = .error e) : ¬e.IsFatal := by
  unfold Instance.funcType at h
  split at h <;> cases h
  exact id

/-- A function that cannot be found, or does not take the arguments, poisons nothing. -/
theorem not_isFatal_of_lookupCallee {inst : Instance σ} {callee : Callee} {args : List Value}
    {e : Error} (h : lookupCallee inst callee args = .error e) : ¬e.IsFatal := by
  cases callee with
  | «export» name =>
    cases hfunc : inst.exportedFunc name with
    | error e' =>
      simp only [lookupCallee, hfunc, bind, Except.bind] at h
      cases h
      exact not_isFatal_of_exportedFunc hfunc
    | ok func =>
      cases htype : inst.funcType func with
      | error e' =>
        simp only [lookupCallee, hfunc, htype, bind, Except.bind] at h
        cases h
        exact not_isFatal_of_funcType htype
      | ok type =>
        simp only [lookupCallee, hfunc, htype, bind, Except.bind] at h
        split at h <;> cases h
        exact id
  | typed f =>
    simp only [lookupCallee] at h
    split at h <;> cases h
    exact fun h => h

/-- An invocation begins in an instance that is not poisoned, above its innermost host function, or
it fails before it begins. -/
theorem invocation_entry (s : Store σ) (id : InstanceId) (callee : Callee) (args : List Value)
    (depth : Nat) :
    (∃ e : Error, ¬e.IsFatal ∧ (s.invocation id callee args depth).1.1 = .done (.error e) ∧
      (s.invocation id callee args depth).2 = s) ∨
    ∃ inst, s.instances[id]? = some inst ∧ inst.isPoisoned = false ∧
      s.Entry id (max depth inst.reentryDepth)
        ((s.invocation id callee args depth).1.1, (s.invocation id callee args depth).2) := by
  unfold invocation
  cases hinst : s.instances[id]? with
  | none => exact .inl ⟨.fault .missingInstance, fun h => h, rfl, rfl⟩
  | some inst =>
    simp only
    cases hlookup : lookupCallee inst callee args with
    | error e => exact .inl ⟨_, not_isFatal_of_lookupCallee hlookup, rfl, rfl⟩
    | ok found =>
      simp only
      cases hp : inst.isPoisoned with
      | true => exact .inl ⟨.poisoned, fun h => h, rfl, rfl⟩
      | false => exact .inr ⟨inst, rfl, hp, callFunction_entry ..⟩

/-! ## Dispatch loops -/

/-- What a dispatch loop can do in one instruction. -/
inductive Turn (s : Store σ) (r : Run) : Transition σ → Prop where
  | fail {e : Error} {s' : Store σ} (hs : s'.cores = s.cores) : Turn s r (finish s' (.error e))
  /-- It ends with the outermost function. -/
  | finish {slots : List Slot} {s' : Store σ} (hs : s'.cores = s.cores) (hr : r.callers = []) :
      Turn s r (s'.finish (.ok slots))
  /-- It stays in the function. -/
  | stay {frame : Frame} {s' : Store σ} (hs : s'.cores = s.cores)
      (hd : frame.depth = r.frame.depth) : Turn s r (s'.resume { r with frame })
  | enter {inst : Instance σ} {callee frame : Frame} {s' : Store σ} (hs : s'.cores = s.cores)
      (hinst : s.instances[r.inst]? = some inst)
      (hroom : r.frame.depth < inst.limits.maxCallDepth)
      (hd : frame.depth = r.frame.depth) (hc : callee.depth = r.frame.depth + 1) :
      Turn s r (s'.resume ⟨r.inst, callee, frame :: r.callers⟩)
  | leave {frame caller : Frame} {callers : List Frame} {s' : Store σ} (hs : s'.cores = s.cores)
      (hr : r.callers = caller :: callers) (hd : frame.depth = caller.depth) :
      Turn s r (s'.resume ⟨r.inst, frame, callers⟩)
  /-- It calls an import. -/
  | import {inst : Instance σ} {func : Nat} {type : Signature} {ref : ImportName}
      {binding : ImportBinding σ} {frame : Frame} {s₁ s' : Store σ} {control : Control σ}
      (hs : s₁.cores = s.cores) (hinst : s.instances[r.inst]? = some inst)
      (himport : inst.functions[func]? = some (.imported type ref binding))
      (hd : frame.depth = r.frame.depth)
      (he : s₁.Entry r.inst r.frame.depth (control, s')) (hc : ∀ r', control ≠ .run r') :
      Turn s r ⟨s', control, [.run { r with frame }]⟩

/-- What a loop does from one store, it does from all of the same cores. -/
theorem Turn.of_cores {s s₁ : Store σ} {r : Run} {t : Transition σ} (h : s₁.Turn r t)
    (hs : s₁.cores = s.cores) : s.Turn r t := by
  cases h with
  | fail h => exact .fail (h.trans hs)
  | finish h hr => exact .finish (h.trans hs) hr
  | stay h hd => exact .stay (h.trans hs) hd
  | enter h hinst hroom hd hc =>
    obtain ⟨inst, hinst', hcore⟩ := exists_of_cores hs hinst
    have hlimits := congrArg Instance.limits hcore
    exact .enter (h.trans hs) hinst' (hlimits ▸ hroom) hd hc
  | leave h hr hd => exact .leave (h.trans hs) hr hd
  | «import» h hinst himport hd he hc =>
    obtain ⟨inst, hinst', hcore⟩ := exists_of_cores hs hinst
    have hfunctions := congrArg Instance.functions hcore
    exact .import (h.trans hs) hinst' (hfunctions ▸ himport) hd he hc

/-- Only the depth of the innermost frame matters. -/
theorem Turn.of_frame {r : Run} {frame : Frame} {t : Transition σ}
    (h : s.Turn { r with frame } t) (hd : frame.depth = r.frame.depth) : s.Turn r t := by
  cases h with
  | fail hs => exact .fail hs
  | finish hs hr => exact .finish hs hr
  | stay hs hd' => exact .stay hs (hd'.trans hd)
  | enter hs hinst hroom hd' hc =>
    exact .enter hs hinst (hd ▸ hroom) (hd'.trans hd) (hc.trans (congrArg (· + 1) hd))
  | leave hs hr hd' => exact .leave hs hr hd'
  | «import» hs hinst himport hd' he hc =>
    exact .import hs hinst himport (hd'.trans hd) (hd ▸ he) hc

/-- A call pushes an activation, enters an import, or fails. -/
theorem callFrom_turn (s : Store σ) (r : Run) (func : Nat) : s.Turn r (s.callFrom r func) := by
  obtain ⟨id, frame, callers⟩ := r
  simp only [callFrom]
  cases hinst : s.instances[id]? with
  | none => exact .fail rfl
  | some inst =>
    simp only
    cases hfunc : inst.functions[func]? with
    | none => exact .fail rfl
    | some callee =>
      simp only
      split
      · exact .fail rfl
      · cases callee with
        | imported type ref binding =>
          exact .import rfl hinst hfunc rfl (callImport_entry hinst hfunc ..)
            (callImport_ne_run s id type ref binding _ _)
        | code type entry declared =>
          simp only
          split
          · next hnew =>
            obtain ⟨hroom, hc⟩ := depth_of_new hnew
            exact .enter rfl hinst hroom rfl hc
          · exact .fail rfl

theorem access_turn (s : Store σ) (r : Run) (instr : Instr BlockJump) :
    s.Turn r (match s.access r.inst instr r.frame.operands with
      | (.ok operands, s) => s.resume { r with frame := r.frame.withOperands operands }
      | (.error e, s) => s.finish (.error e)) := by
  have hs : (s.access r.inst instr r.frame.operands).2.cores = s.cores := cores_access ..
  generalize s.access r.inst instr r.frame.operands = x at hs
  obtain ⟨outcome, s'⟩ := x
  cases outcome with
  | ok operands => exact .stay hs rfl
  | error e => exact .fail hs

/-- An instruction that needs more than the frame goes on with it, calls, or fails. -/
theorem execOutside_turn (s : Store σ) (r : Run) (instr : Instr BlockJump) :
    s.Turn r (s.execOutside r instr) := by
  unfold execOutside
  split
  · exact callFrom_turn s r _
  · split
    · exact .fail rfl
    · next rest _ =>
      split
      · exact (callFrom_turn s { r with frame := r.frame.withOperands rest } _).of_frame rfl
      · exact .fail rfl
  · exact access_turn s r _

/-- The end of a function goes back to its caller, or ends the loop. -/
theorem leave_turn (s : Store σ) (r : Run) : s.Turn r (s.leave r) := by
  obtain ⟨id, frame, callers⟩ := r
  simp only [Store.leave]
  split
  · exact .fail rfl
  · cases callers with
    | nil => exact .finish rfl rfl
    | cons caller callers => exact .leave rfl rfl rfl

end Store

/-! ## Instructions inside a frame -/

/-- The frame that an instruction leaves. -/
def Flow.frame : Flow → Frame
  | next f | leave f | outside f => f

namespace Frame

variable {f : Frame} {flow : Flow}

/-- What no instruction changes about its frame. -/
def fixed (f : Frame) : Nat × Nat × Nat × Nat := (f.locals.size, f.resultCount, f.below, f.depth)

theorem eq_of_fixed {g : Frame} (h : g.fixed = f.fixed) : g.locals.size = f.locals.size ∧
    g.resultCount = f.resultCount ∧ g.below = f.below ∧ g.depth = f.depth := by
  simpa only [fixed, Prod.mk.injEq] using h

/-- A block that is opened changes labels alone. -/
theorem fixed_of_enter {paramCount target arity : Nat}
    (h : f.enter paramCount target arity = .ok flow) : flow.frame.fixed = f.fixed := by
  unfold enter at h
  split at h
  · cases h
  · cases h
    rfl

/-- A branch changes labels, operands and the place. -/
theorem fixed_of_branch {depth : Nat} (h : f.branch depth = .ok flow) :
    flow.frame.fixed = f.fixed := by
  unfold branch at h
  split at h
  · cases h
    rfl
  · simp only at h
    split at h
    · cases h
    · cases h
      rfl

/-- A local that is set leaves as many as there were. -/
theorem fixed_of_setLocal {index : Nat} {v : Slot} (h : exec.setLocal f index v = .ok flow) :
    flow.frame.fixed = f.fixed := by
  unfold exec.setLocal at h
  split at h
  · cases h
    exact congrArg (·, f.resultCount, f.below, f.depth) (Array.size_setIfInBounds ..)
  · cases h

/-- A numeric instruction changes operands. -/
theorem fixed_of_numeric {op : NumOp} (h : f.numeric op = .ok flow) :
    flow.frame.fixed = f.fixed := by
  unfold numeric at h
  split at h
  · split at h <;> cases h
    rfl
  · split at h <;> cases h
    rfl
  · cases h

/-- **No instruction changes what is fixed about its frame.** -/
theorem fixed_of_exec {opcode : Nat} {i : Instr BlockJump} (h : f.exec opcode i = .ok flow) :
    flow.frame.fixed = f.fixed := by
  unfold exec at h
  repeat' split at h
  all_goals first
    | exact (fixed_of_enter h).trans rfl
    | exact (fixed_of_branch h).trans rfl
    | exact (fixed_of_setLocal h).trans rfl
    | exact (fixed_of_numeric h).trans rfl
    | (cases h; rfl)
    | cases h

/-- No instruction inside a frame changes how deep it is. -/
theorem depth_of_exec {opcode : Nat} {i : Instr BlockJump} (h : f.exec opcode i = .ok flow) :
    flow.frame.depth = f.depth := congrArg (·.2.2.2) (fixed_of_exec h)

end Frame

namespace Store

variable {s : Store σ}

/-- **A dispatch loop takes turns.** -/
theorem dispatch_turn (s : Store σ) (r : Run) : s.Turn r (s.dispatch r) := by
  have hs : (s.spendFuel r.inst).2.cores = s.cores := cores_spendFuel
  unfold dispatch
  split
  · next s' heq =>
    rw [heq] at hs
    exact .fail hs
  · next s' heq =>
    rw [heq] at hs
    obtain ⟨id, frame, callers⟩ := r
    refine Turn.of_cores ?_ hs
    simp only
    split
    · exact .fail rfl
    · next instr pc _ =>
      split
      · next frame' hexec => exact .stay rfl (Frame.depth_of_exec hexec)
      · next frame' hexec =>
        have hd : frame'.depth = frame.depth := Frame.depth_of_exec hexec
        exact (leave_turn s' ⟨id, frame', callers⟩).of_frame hd
      · next frame' hexec =>
        have hd : frame'.depth = frame.depth := Frame.depth_of_exec hexec
        exact (execOutside_turn s' ⟨id, frame', callers⟩ instr).of_frame hd
      · exact .fail rfl

/-! ## Host functions -/

/-- The counters of the caller of a host function after it. -/
def uncountHost (s : Store σ) (call : HostCall) : Store σ :=
  match call.caller with
  | none => s
  | some c => s.modifyInstance c.inst fun inst =>
      { inst with hostDepth := c.outerHostDepth, reentryDepth := c.outerReentryDepth }

/-- What a host function can do in one request. -/
inductive Service (s : Store σ) (call : HostCall) : Transition σ → Prop where
  /-- It wants to borrow what is lent. -/
  | conflict {s' : Store σ} (hs : s'.cores = s.cores) :
      Service s call (finish s' (.error (.fault .conflictingLoan)))
  /-- It ends. -/
  | finish {outcome : Except Error (List Slot)}
      (hp : ∀ slots c, outcome = .ok slots → call.caller = some c →
        ¬(s.uncountHost call).IsPoisoned c.inst) :
      Service s call ((s.uncountHost call).finish outcome)
  /-- It goes on. -/
  | proceed {program : HostProgram σ} {s' : Store σ} (hs : s'.cores = s.cores) :
      Service s call (s'.proceed call program)
  /-- It invokes an instance, which does not begin. -/
  | refused {id : InstanceId} {holds : List Hold} {results : List ValType}
      {k : Except Error (List Value) → HostProgram σ} {e : Error} {s' : Store σ}
      (hs : s'.cores = s.cores) :
      Service s call ⟨s', .done (.error e), [.invocation id holds, .host call results k]⟩
  /-- It invokes an instance. -/
  | invoke {target : Target} {id : InstanceId} {depth : Nat} {holds : List Hold}
      {results : List ValType} {k : Except Error (List Value) → HostProgram σ}
      {inst : Instance σ} {s₁ s' : Store σ} {control : Control σ} (hs : s₁.cores = s.cores)
      (htarget : callTarget call target = .ok (id, depth))
      (hinst : s₁.instances[id]? = some inst) (hp : inst.isPoisoned = false)
      (he : s₁.Entry id (max depth inst.reentryDepth) (control, s')) :
      Service s call ⟨s', control, [.invocation id holds, .host call results k]⟩

/-- A host function that has ended hands its answer on. -/
theorem endHostCall_service (s : Store σ) (call : HostCall)
    (outcome : Except Error (Option Value)) :
    s.Service call ((s.endHostCall call outcome).2.finish (s.endHostCall call outcome).1) := by
  obtain ⟨caller, depth, results⟩ := call
  cases caller with
  | none => exact .finish fun slots c _ hc => absurd hc (Option.some_ne_none c).symm
  | some c =>
    refine .finish fun slots c' hout hc => ?_
    obtain rfl := Option.some.inj hc
    exact not_isPoisoned_of_importOutcome hout

/-- **A host function makes requests.** -/
theorem serve_service (s : Store σ) (call : HostCall) (program : HostProgram σ) :
    s.Service call (s.serve call program) := by
  cases program with
  | done outcome => exact endHostCall_service s call outcome
  | getState k => exact .proceed rfl
  | setState host k => exact .proceed rfl
  | viewMemory k => exact .proceed rfl
  | updateMemory op k => exact .proceed (cores_updateCallerMemory ..)
  | setFuel id fuel k => exact .proceed (cores_setFuel ..)
  | call target callee args holds k =>
    simp only [serve]
    split
    · exact .proceed rfl
    · next id depth htarget =>
      have hs : (s.acquireAll holds).2.cores = s.cores := cores_acquireAll holds
      split
      · next heq =>
        rw [heq] at hs
        obtain rfl := eq_of_acquireAll (congrArg Prod.fst heq)
        exact .conflict hs
      · next s₁ heq =>
        rw [heq] at hs
        obtain ⟨e, -, hcontrol, hstore⟩ | ⟨inst, hinst, hp, hentry⟩ :=
          invocation_entry s₁ id callee args depth
        · rw [hcontrol]
          exact .refused ((congrArg cores hstore).trans hs)
        · exact .invoke hs htarget hinst hp hentry

/-! ## What no move changes -/

end Store

/-- What is seen of an instance depends neither on what instructions change nor on counters. -/
structure Instance.IsFixed (g : Instance σ → β) : Prop where
  core : ∀ inst : Instance σ, g inst.core = g inst
  counters : ∀ (inst : Instance σ) (hostDepth reentryDepth : Nat),
    g { inst with hostDepth, reentryDepth } = g inst

namespace Store

variable {s : Store σ} {id : InstanceId} {g : Instance σ → β}

theorem map_eq_of_cores {s' : Store σ} (hg : Instance.IsFixed g) (h : s'.cores = s.cores) :
    s'.instances.map g = s.instances.map g := by
  have hcores (s : Store σ) : s.instances.map g = s.cores.map g := by
    rw [cores, Array.map_map]
    exact congrArg (Array.map · _) (funext fun inst => (hg.core inst).symm)
  rw [hcores, hcores, h]

theorem map_modifyInstance {f : Instance σ → Instance σ} (hf : ∀ inst, g (f inst) = g inst) :
    (s.modifyInstance id f).instances.map g = s.instances.map g :=
  congrArg Prod.fst (view_modifyInstance hf)

/-- To enter a call changes nothing that is fixed. -/
theorem Entry.map_eq {depth : Nat} {control : Control σ} {s' : Store σ} (hg : Instance.IsFixed g)
    (h : s.Entry id depth (control, s')) : s'.instances.map g = s.instances.map g := by
  cases h with
  | failed hs => exact map_eq_of_cores hg hs
  | answered hs hp => exact map_eq_of_cores hg hs
  | code hinst hroom hd => rfl
  | host args hinst hbound hroom => exact map_modifyInstance fun inst => hg.counters inst _ _

/-- Nor does a turn of a dispatch loop. -/
theorem Turn.map_eq {r : Run} {t : Transition σ} (hg : Instance.IsFixed g) (h : s.Turn r t) :
    t.store.instances.map g = s.instances.map g := by
  cases h with
  | fail hs => exact map_eq_of_cores hg hs
  | finish hs hr => exact map_eq_of_cores hg hs
  | stay hs hd => exact map_eq_of_cores hg hs
  | enter hs hinst hroom hd hc => exact map_eq_of_cores hg hs
  | leave hs hr hd => exact map_eq_of_cores hg hs
  | «import» hs hinst himport hd he hc => exact (he.map_eq hg).trans (map_eq_of_cores hg hs)

/-- Nor does what a host function asks for. -/
theorem Service.map_eq {call : HostCall} {t : Transition σ} (hg : Instance.IsFixed g)
    (h : s.Service call t) : t.store.instances.map g = s.instances.map g := by
  cases h with
  | conflict hs => exact map_eq_of_cores hg hs
  | finish hp =>
    simp only [Store.finish, uncountHost]
    split
    · rfl
    · exact map_modifyInstance fun inst => hg.counters inst _ _
  | proceed hs => exact map_eq_of_cores hg hs
  | refused hs => exact map_eq_of_cores hg hs
  | invoke hs htarget hinst hp he => exact (he.map_eq hg).trans (map_eq_of_cores hg hs)

/-! ## Outcomes -/

/-- A host function gets the outcome of the invocation that it has asked for. -/
theorem deliver_host {outcome : Except Error (List Slot)} (h : ¬IsFault outcome) (s : Store σ)
    (call : HostCall) (results : List ValType) (k : Except Error (List Value) → HostProgram σ) :
    s.deliver outcome (.host call results k) =
      s.proceed call (k (outcome.map (Value.ofSlots · results))) := by
  cases outcome with
  | ok slots => rfl
  | error e =>
    cases e with
    | fault f => exact absurd trivial h
    | _ => rfl

/-- It does not get a fault: that ends it. -/
theorem deliver_host_of_fault {outcome : Except Error (List Slot)} (h : IsFault outcome)
    (s : Store σ) (call : HostCall) (results : List ValType)
    (k : Except Error (List Value) → HostProgram σ) :
    s.deliver outcome (.host call results k) = s.finish outcome := by
  cases outcome with
  | ok slots => exact h.elim
  | error e =>
    cases e with
    | fault f => rfl
    | _ => exact h.elim

end Store

end WasmEngine
