import Mathlib.Data.List.Induction
import WasmEngine.Proofs.Limits.Rebound
import WasmEngine.Proofs.Nesting.Budgets

/-!
# Proofs/Globals/Writes — what writes globals

Nothing but `global.set` does.  `Config.globalWrite?` reads off a configuration what its next step
writes; the globals after the step are those before it with this one write (`Config.globals_step`),
and the globals after a run are those before it with all its writes replayed in order
(`Config.globals_run`).  After that, a global holds what was last written to it
(`GlobalWrite.getElem?_replay`).
-/

namespace WasmEngine

variable {σ α : Type}

/-! ## Writes -/

/-- A value that the code of an instance gives to one of its globals. -/
structure GlobalWrite where
  inst : InstanceId
  index : Nat
  value : Slot
deriving DecidableEq, Repr

namespace GlobalWrite

/-- The write that an instruction is, with the operands that it finds. -/
def of? (inst : InstanceId) : Instr BlockJump → List Slot → Option GlobalWrite
  | .globalSet index, v :: _ => some ⟨inst, index, v⟩
  | _, _ => none

/-- The globals of all instances after a write. -/
def applyTo (w : GlobalWrite) (globals : Array (Array Slot)) : Array (Array Slot) :=
  globals.modify w.inst fun slots => slots.setIfInBounds w.index w.value

/-- The globals of all instances after some writes. -/
def replay (log : List GlobalWrite) (globals : Array (Array Slot)) : Array (Array Slot) :=
  log.foldl (fun globals w => w.applyTo globals) globals

/-- What was last written to a global. -/
def lastTo (log : List GlobalWrite) (inst : InstanceId) (index : Nat) : Option Slot :=
  (log.reverse.find? fun w => w.inst = inst ∧ w.index = index).map (·.value)

variable {log log' : List GlobalWrite} {globals : Array (Array Slot)} {w : GlobalWrite}
  {inst : InstanceId} {index : Nat} {instr : Instr BlockJump} {v : Slot}

/-- Only `global.set` writes a global, and only where it has an operand. -/
theorem of?_eq_none {operands : List Slot}
    (h : ∀ index v rest, instr = .globalSet index → operands ≠ v :: rest) :
    of? inst instr operands = none := by
  unfold of?
  split
  · exact absurd rfl (h _ _ _ rfl)
  · rfl

theorem replay_append (log log' : List GlobalWrite) (globals : Array (Array Slot)) :
    replay (log ++ log') globals = replay log' (replay log globals) := List.foldl_append

/-- The latest write comes last. -/
theorem lastTo_concat (log : List GlobalWrite) (w : GlobalWrite) (inst : InstanceId) (index : Nat) :
    lastTo (log ++ [w]) inst index =
      if w.inst = inst ∧ w.index = index then some w.value else lastTo log inst index := by
  simp only [lastTo, List.reverse_append, List.reverse_singleton, List.singleton_append,
    List.find?_cons]
  by_cases h : w.inst = inst ∧ w.index = index <;> simp [h]

/-- Writes of a later log come before those of an earlier one. -/
theorem lastTo_append (log log' : List GlobalWrite) (inst : InstanceId) (index : Nat) :
    lastTo (log ++ log') inst index = (lastTo log' inst index).or (lastTo log inst index) := by
  rw [lastTo, lastTo, lastTo, List.reverse_append, List.find?_append, Option.map_or]

theorem lastTo_eq_none (h : ∀ w ∈ log, w.inst ≠ inst) : lastTo log inst index = none := by
  rw [lastTo, Option.map_eq_none_iff, List.find?_eq_none]
  exact fun w hw heq => h w (List.mem_reverse.1 hw) (of_decide_eq_true heq).1

/-- Writes to other instances do not matter. -/
theorem lastTo_filter {p : GlobalWrite → Bool} (hp : ∀ w, w.inst = inst → p w = true) :
    lastTo (log.filter p) inst index = lastTo log inst index := by
  rw [lastTo, lastTo, ← List.filter_reverse, List.find?_filter]
  congr 2
  funext w
  by_cases hw : w.inst = inst
  · simp [hp w hw]
  · simp [hw]

/-- The last value was written. -/
theorem mem_of_lastTo (h : lastTo log inst index = some v) :
    ∃ w ∈ log, w.inst = inst ∧ w.index = index ∧ w.value = v := by
  obtain ⟨w, hw, rfl⟩ := Option.map_eq_some_iff.1 h
  have hfound := List.find?_some hw
  obtain ⟨hinst, hindex⟩ : w.inst = inst ∧ w.index = index := of_decide_eq_true hfound
  exact ⟨w, List.mem_reverse.1 (List.mem_of_find?_eq_some hw), hinst, hindex, rfl⟩

/-- One global is written; the others stay. -/
theorem getElem?_applyTo (w : GlobalWrite) (globals : Array (Array Slot)) (inst : InstanceId)
    (index : Nat) : (w.applyTo globals)[inst]?.bind (·[index]?) =
      (globals[inst]?.bind (·[index]?)).map fun v =>
        if w.inst = inst ∧ w.index = index then w.value else v := by
  rw [applyTo, Array.getElem?_modify]
  by_cases hinst : w.inst = inst
  · cases globals[inst]? with
    | none => simp [hinst]
    | some slots =>
      simp only [hinst, if_true, Option.map_some, Option.bind_some, Array.getElem?_setIfInBounds, true_and]
      by_cases hindex : w.index = index
      · subst hindex
        simp only [if_true]
        split
        · next hlt => rw [Array.getElem?_eq_getElem hlt, Option.map_some]
        · next hlt => rw [Array.getElem?_eq_none (Nat.le_of_not_lt hlt), Option.map_none]
      · simp [hindex]
  · simp [hinst]

/-- **After some writes a global holds what was last written to it**, or what it held before. -/
theorem getElem?_replay (log : List GlobalWrite) (globals : Array (Array Slot)) (inst : InstanceId)
    (index : Nat) : (replay log globals)[inst]?.bind (·[index]?) =
      (globals[inst]?.bind (·[index]?)).map fun v => (lastTo log inst index).getD v := by
  induction log using List.reverseRecOn with
  | nil => simp [replay, lastTo]
  | append_singleton log w ih =>
    rw [replay_append, replay, List.foldl_cons, List.foldl_nil, getElem?_applyTo, ih, Option.map_map,
      lastTo_concat]
    congr 1
    funext v
    rw [Function.comp]
    split <;> rfl

end GlobalWrite

/-! ## What leaves globals alone -/

namespace Store

variable {s s' : Store σ} {id : InstanceId}

/-- The globals of all instances. -/
def globals (s : Store σ) : Array (Array Slot) := s.instances.map (·.globals)

/-- A view that shows the globals compares them. -/
theorem globals_of_view (h : s'.view (·.globals) = s.view (·.globals)) : s'.globals = s.globals :=
  congrArg Prod.fst h

theorem globals_modifyInstance {f : Instance σ → Instance σ}
    (hf : ∀ inst, (f inst).globals = inst.globals) : (s.modifyInstance id f).globals = s.globals :=
  globals_of_view (view_modifyInstance hf)

@[simp] theorem globals_updateMemory? (op : Memory.Update α) :
    (s.updateMemory? id op).2.globals = s.globals := by
  refine globals_of_view (view_withInstance fun inst => ?_)
  cases inst.memory with
  | none => rfl
  | some memory =>
    simp only
    split
    · cases op memory <;> rfl
    · rfl

@[simp] theorem globals_changeMemory (op : Memory.Update α) :
    (s.changeMemory id op).2.globals = s.globals := by
  have h : (s.updateMemory? id op).2.globals = s.globals := globals_updateMemory? op
  unfold changeMemory
  split <;> simp_all

@[simp] theorem globals_spendFuel : (s.spendFuel id).2.globals = s.globals :=
  globals_of_view (view_spendFuel fun _ _ => rfl)

@[simp] theorem globals_runHook (h : MemoryHook σ) (args : List Value) :
    (s.runHook id h args).2.globals = s.globals := by
  unfold runHook
  simp only
  split
  all_goals
    next heq =>
    have hglobals := congrArg (fun x => x.2.globals) heq
    exact hglobals.symm.trans (globals_updateMemory? _)

/-- A call of an import begins outside of the globals. -/
@[simp] theorem globals_callImport (type : Signature) (ref : ImportName)
    (binding : ImportBinding σ) (args : List Slot) (depth : Nat) :
    (s.callImport id type ref binding args depth).2.globals = s.globals := by
  cases binding with
  | hook h => exact globals_runHook ..
  | func f => exact globals_of_view (view_callImport (fun _ _ _ => rfl) type ref f args depth)

@[simp] theorem globals_callFunction (func : Nat) (args : List Slot) (depth : Nat) :
    (s.callFunction id func args depth).2.globals = s.globals := by
  unfold callFunction
  split
  · rfl
  · split
    · rfl
    · exact globals_callImport ..
    · split <;> rfl

@[simp] theorem globals_acquireAll (holds : List Hold) :
    (s.acquireAll holds).2.globals = s.globals :=
  globals_of_view (view_acquireAll (fun _ _ => rfl) holds)

@[simp] theorem globals_releaseAll (holds : List Hold) : (s.releaseAll holds).globals = s.globals :=
  globals_of_view (view_releaseAll (fun _ _ => rfl) holds)

@[simp] theorem globals_invocation (callee : Callee) (args : List Value) (depth : Nat) :
    (s.invocation id callee args depth).2.globals = s.globals := by
  unfold invocation
  split
  · rfl
  · split
    · rfl
    · split
      · rfl
      · exact globals_callFunction ..

@[simp] theorem globals_endHostCall (call : HostCall) (outcome : Except Error (Option Value)) :
    (s.endHostCall call outcome).2.globals = s.globals := by
  unfold endHostCall
  split
  · rfl
  · exact globals_modifyInstance fun _ => rfl

@[simp] theorem globals_updateCallerMemory (call : HostCall) (op : Memory.Update α) :
    (s.updateCallerMemory call op).2.globals = s.globals := by
  unfold updateCallerMemory
  split
  · rfl
  · exact globals_updateMemory? op

/-- A call pushes arguments; it writes no global. -/
theorem globals_callFrom (r : Run) (func : Nat) : (s.callFrom r func).store.globals = s.globals := by
  obtain ⟨id, frame, callers⟩ := r
  simp only [callFrom]
  split
  · rfl
  · split
    · rfl
    · split
      · rfl
      · split
        · exact globals_callImport ..
        · split <;> rfl

theorem globals_leave (r : Run) : (s.leave r).store.globals = s.globals := by
  obtain ⟨id, frame, callers⟩ := r
  simp only [leave]
  split
  · rfl
  · cases callers <;> rfl

/-- What a host program asks for is no write: invocations run their own code. -/
theorem globals_serve (call : HostCall) (program : HostProgram σ) :
    (s.serve call program).store.globals = s.globals := by
  cases program with
  | done outcome => exact globals_endHostCall ..
  | getState k | setState host k | viewMemory k => rfl
  | updateMemory op k => exact globals_updateCallerMemory ..
  | setFuel id fuel k => exact globals_modifyInstance fun _ => rfl
  | call target callee args holds k =>
    have hacquire : (s.acquireAll holds).2.globals = s.globals := globals_acquireAll holds
    simp only [serve]
    split
    · rfl
    · split
      · next heq => rwa [heq] at hacquire
      · next heq =>
        rw [heq] at hacquire
        exact (globals_invocation ..).trans hacquire

/-- Nor is the answer that it gets. -/
theorem globals_deliver (outcome : Except Error (List Slot)) (p : Pending σ) :
    (s.deliver outcome p).store.globals = s.globals := by
  cases p with
  | run r => cases outcome <;> rfl
  | invocation id holds =>
    refine (globals_releaseAll holds).trans ?_
    split
    · split
      · exact globals_modifyInstance fun _ => rfl
      · rfl
    · rfl
  | host call results k =>
    simp only [deliver]
    split <;> rfl

/-! ## What writes them -/

/-- Setting a global is the write itself. -/
theorem globals_setGlobal (index : Nat) (v : Slot) :
    (s.setGlobal id index v).2.globals = GlobalWrite.applyTo ⟨id, index, v⟩ s.globals := by
  refine Array.ext_getElem? fun i => ?_
  rw [GlobalWrite.applyTo, Array.getElem?_modify, globals, globals, Array.getElem?_map,
    Array.getElem?_map, setGlobal, getElem?_withInstance]
  by_cases hi : id = i
  · cases s.instances[i]? with
    | none => simp [hi]
    | some inst =>
      simp only [hi, if_true, Option.map_some]
      split
      · rfl
      · next hindex => rw [Array.setIfInBounds_eq_of_size_le (Nat.le_of_not_lt hindex)]
  · simp [hi, Ne.symm hi]

/-- **An access writes what `global.set` writes**, and nothing else. -/
theorem globals_access (instr : Instr BlockJump) (operands : List Slot) :
    (s.access id instr operands).2.globals =
      GlobalWrite.replay (GlobalWrite.of? id instr operands).toList s.globals := by
  unfold access
  split
  case h_2 => exact globals_setGlobal ..
  all_goals
    rw [GlobalWrite.of?_eq_none (by simp_all)]
    simp [GlobalWrite.replay]

/-- Of the instructions that need more than a frame, one writes a global. -/
theorem globals_execOutside (r : Run) (instr : Instr BlockJump) :
    (s.execOutside r instr).store.globals =
      GlobalWrite.replay (GlobalWrite.of? r.inst instr r.frame.operands).toList s.globals := by
  unfold execOutside
  split
  · exact globals_callFrom ..
  · split
    · rfl
    · split
      · exact globals_callFrom ..
      · rfl
  · have haccess := @globals_access _ s r.inst instr r.frame.operands
    split
    all_goals
      next heq =>
      rw [heq] at haccess
      exact haccess

/-- What the next instruction of a dispatch loop writes, if its budget allows it. -/
def globalWrite? (s : Store σ) (r : Run) : Option GlobalWrite :=
  if s.instances[r.inst]?.bind (·.fuel) = some 0 then none
  else do
    let (instr, _) ← s.fetch? r.inst r.frame.pc
    GlobalWrite.of? r.inst instr r.frame.operands

/-- **A step of a dispatch loop writes what `global.set` writes**, and nothing else. -/
theorem globals_dispatch (r : Run) : (s.dispatch r).store.globals =
    GlobalWrite.replay (s.globalWrite? r).toList s.globals := by
  obtain ⟨id, frame, callers⟩ := r
  have hglobals : (s.spendFuel id).2.globals = s.globals := globals_spendFuel
  have hfetch : (s.spendFuel id).2.fetch? id frame.pc = s.fetch? id frame.pc :=
    fetch?_of_cores cores_spendFuel id frame.pc
  have hspend : (s.spendFuel id).1 = true ↔ s.instances[id]?.bind (·.fuel) ≠ some 0 := by
    unfold spendFuel
    cases s.instances[id]?.bind (·.fuel) with
    | none => simp
    | some n => cases n <;> simp
  simp only [dispatch]
  split
  · next heq =>
    rw [heq] at hglobals hspend
    have hzero : s.instances[id]?.bind (·.fuel) = some 0 := by simpa using hspend
    rw [globalWrite?, if_pos hzero]
    exact hglobals
  · next s₁ heq =>
    rw [heq] at hglobals hfetch hspend
    have hfuel : s.instances[id]?.bind (·.fuel) ≠ some 0 := hspend.1 rfl
    rw [globalWrite?, if_neg hfuel, ← hglobals, ← hfetch]
    cases hnext : s₁.fetch? id frame.pc with
    | none => rfl
    | some p =>
      obtain ⟨instr, next⟩ := p
      simp only [Option.bind_eq_bind, Option.bind_some]
      by_cases hset : ∃ index, instr = .globalSet index
      · obtain ⟨index, rfl⟩ := hset
        exact globals_execOutside ⟨id, { frame with pc := next }, callers⟩ (.globalSet index)
      · have hne (operands : List Slot) : GlobalWrite.of? id instr operands = none :=
          GlobalWrite.of?_eq_none fun index _ _ h => absurd ⟨index, h⟩ hset
        rw [hne]
        split
        · rfl
        · exact globals_leave _
        · next f _ =>
          rw [globals_execOutside, hne]
        · rfl

end Store

namespace Config

variable {c : Config σ}

/-- What the next step of a configuration writes. -/
def globalWrite? (c : Config σ) : Option GlobalWrite :=
  match c.control with
  | .run r => c.store.globalWrite? r
  | _ => none

/-- What the first steps of a run write, in order. -/
def globalWrites (c : Config σ) (steps : Nat) : List GlobalWrite :=
  (List.range steps).filterMap fun k => (run k c).globalWrite?

/-- **A step changes the globals by what it writes.** -/
theorem globals_step (c : Config σ) :
    c.step.store.globals = GlobalWrite.replay c.globalWrite?.toList c.store.globals := by
  obtain ⟨store, control, pending⟩ := c
  cases control with
  | run r => exact Store.globals_dispatch r
  | host call program => exact Store.globals_serve call program
  | done outcome =>
    cases pending with
    | nil => rfl
    | cons p pending => exact Store.globals_deliver outcome p

/-- A run of one more step may write one more time. -/
theorem globalWrites_succ (c : Config σ) (n : Nat) :
    c.globalWrites (n + 1) = c.globalWrites n ++ (run n c).globalWrite?.toList := by
  rw [globalWrites, List.range_succ, List.filterMap_append]
  cases h : (run n c).globalWrite? <;> simp [h, globalWrites]

/-- **A run changes the globals by what it writes.** -/
theorem globals_run (c : Config σ) (n : Nat) :
    (run n c).store.globals = GlobalWrite.replay (c.globalWrites n) c.store.globals := by
  induction n with
  | zero => rfl
  | succ n ih => rw [run_succ, globals_step, ih, globalWrites_succ, GlobalWrite.replay_append]

end Config

end WasmEngine
