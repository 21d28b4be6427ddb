import WasmEngine.Proofs.Nesting.Moves

/-!
# Proofs/Nesting/Stack — how nested calls are stacked

A dispatch loop waits below the host function that it called, a host function below the invocation
that it asked for, and an invocation ends what its instance does.  `Config.IsNested` says so, and every
step keeps it.  `awaiting` is the instance that goes on when the present call ends.
-/

namespace WasmEngine

variable {σ : Type}

namespace Config

theorem step_of_isSome {c : Config σ} (h : c.outcome?.isSome) : c.step = c := by
  obtain ⟨store, control, pending⟩ := c
  cases control <;> cases pending <;> first | rfl | cases h

/-- One more step of a run is one more step. -/
theorem run_succ (n : Nat) (c : Config σ) : run (n + 1) c = (run n c).step := by
  rw [run_add n 1, run]
  split
  · next h => exact (step_of_isSome h).symm
  · rfl

/-- **What every step keeps, a run keeps.** -/
theorem run_induction {P : Config σ → Prop} (hstep : ∀ c, P c → P c.step) {c : Config σ} (h : P c)
    (n : Nat) : P (run n c) := by
  induction n with
  | zero => exact h
  | succ n ih => exact run_succ n c ▸ hstep _ ih

end Config

/-! ## The shape of the stack -/

/-- The instance of which an invocation is on top of the stack.  At the bottom it is `root`. -/
def entered (root : Option InstanceId) : List (Pending σ) → Option InstanceId
  | [] => root
  | .invocation id _ :: _ => some id
  | _ => none

/-- The instance that goes on when a call ends with something to go on with. -/
def awaiting (root : Option InstanceId) : List (Pending σ) → Option InstanceId
  | .run r :: _ => some r.inst
  | ps => entered root ps

theorem awaiting_of_entered {root : Option InstanceId} {ps : List (Pending σ)} {id : InstanceId}
    (h : entered root ps = some id) : awaiting root ps = some id := by
  cases ps with
  | nil => exact h
  | cons p ps =>
    cases p with
    | run r => cases h
    | invocation other holds => exact h
    | host call results k => cases h

/-- The instance that called a host function. -/
def HostCall.instance? (call : HostCall) : Option InstanceId := call.caller.map (·.inst)

/-- Whether each item of a stack stands on what it can be called from. -/
def NestedPending (root : Option InstanceId) : List (Pending σ) → Prop
  | [] => True
  | .run r :: ps => entered root ps = some r.inst ∧ NestedPending root ps
  | .invocation _ _ :: ps => awaiting root ps = none ∧ NestedPending root ps
  | .host call _ _ :: ps => awaiting root ps = call.instance? ∧ NestedPending root ps

/-- Whether what is in control stands on what it can be called from. -/
def Control.ActsOn (root : Option InstanceId) (ps : List (Pending σ)) : Control σ → Prop
  | .run r => entered root ps = some r.inst
  | .host call _ => awaiting root ps = call.instance?
  | .done _ => True

/-- Whether the calls of a configuration are stacked as calls are. -/
structure Config.IsNested (root : Option InstanceId) (c : Config σ) : Prop where
  control : c.control.ActsOn root c.pending
  pending : NestedPending root c.pending

variable {root : Option InstanceId} {s : Store σ} {pending : List (Pending σ)}

theorem Store.Entry.actsOn {id : InstanceId} {depth : Nat} {control : Control σ} {s' : Store σ}
    (h : s.Entry id depth (control, s')) (howner : entered root pending = some id) :
    control.ActsOn root pending := by
  cases h with
  | failed hs => trivial
  | answered hs hp => trivial
  | code hinst hroom hd => exact howner
  | host args hinst hbound hroom => exact awaiting_of_entered howner

theorem Store.Entry.actsOn_run {r : Run} {id : InstanceId} {depth : Nat} {control : Control σ}
    {s' : Store σ} (h : s.Entry id depth (control, s')) (hc : ∀ r', control ≠ .run r')
    (hr : r.inst = id) : control.ActsOn root (.run r :: pending) := by
  cases h with
  | failed hs => trivial
  | answered hs hp => trivial
  | code hinst hroom hd => exact absurd rfl (hc _)
  | host args hinst hbound hroom => exact congrArg some hr

namespace Config.IsNested

theorem turn {r : Run} {t : Transition σ} (h : IsNested root ⟨s, .run r, pending⟩)
    (ht : s.Turn r t) : IsNested root (ofTransition t pending) := by
  obtain ⟨howner, hpending⟩ := h
  cases ht with
  | fail hs => exact ⟨trivial, hpending⟩
  | finish hs hr => exact ⟨trivial, hpending⟩
  | stay hs hd => exact ⟨howner, hpending⟩
  | enter hs hinst hroom hd hc => exact ⟨howner, hpending⟩
  | leave hs hr hd => exact ⟨howner, hpending⟩
  | «import» hs hinst himport hd he hc => exact ⟨he.actsOn_run hc rfl, howner, hpending⟩

theorem service {call : HostCall} {program : HostProgram σ} {t : Transition σ}
    (h : IsNested root ⟨s, .host call program, pending⟩) (ht : s.Service call t) :
    IsNested root (ofTransition t pending) := by
  obtain ⟨howner, hpending⟩ := h
  cases ht with
  | conflict hs => exact ⟨trivial, hpending⟩
  | finish hp => exact ⟨trivial, hpending⟩
  | proceed hs => exact ⟨howner, hpending⟩
  | refused hs => exact ⟨trivial, rfl, howner, hpending⟩
  | invoke hs htarget hinst hp he => exact ⟨he.actsOn rfl, rfl, howner, hpending⟩

theorem deliver {p : Pending σ} (outcome : Except Error (List Slot))
    (h : NestedPending root (p :: pending)) :
    IsNested root (ofTransition (s.deliver outcome p) pending) := by
  cases p with
  | run r =>
    obtain ⟨howner, hpending⟩ := h
    cases outcome with
    | ok results => exact ⟨howner, hpending⟩
    | error e => exact ⟨trivial, hpending⟩
  | invocation id holds => exact ⟨trivial, h.2⟩
  | host call results k =>
    obtain ⟨howner, hpending⟩ := h
    by_cases hf : Store.IsFault outcome
    · rw [Store.deliver_host_of_fault hf]
      exact ⟨trivial, hpending⟩
    · rw [Store.deliver_host hf]
      exact ⟨howner, hpending⟩

/-- **A step keeps calls stacked.** -/
theorem step {c : Config σ} (h : c.IsNested root) : c.step.IsNested root := by
  obtain ⟨s, control, pending⟩ := c
  cases control with
  | run r => exact h.turn (s.dispatch_turn r)
  | host call program => exact h.service (s.serve_service call program)
  | done outcome =>
    cases pending with
    | nil => exact h
    | cons p pending => exact deliver outcome h.pending

theorem run {c : Config σ} (h : c.IsNested root) (n : Nat) : (Config.run n c).IsNested root :=
  run_induction (P := IsNested root) (fun _ => step) h n

end Config.IsNested

end WasmEngine
