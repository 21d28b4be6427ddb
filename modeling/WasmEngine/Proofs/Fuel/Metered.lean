import WasmEngine.Proofs.Fuel.Blind
import WasmEngine.Proofs.Nesting.Programs

/-!
# Proofs/Fuel/Metered — a run with a budget follows the run without

`Config.Spares` says that nothing in a configuration asks for another budget of an instance.  Then a
step does the same with any budget that it can pay from, and pays one unit if it dispatches in the
instance: `Config.step_setFuel`, `Config.step_setFuel_of_dispatches`.  A run pays for its dispatches
(`Config.run_setFuel`).
-/

namespace WasmEngine

variable {σ α β : Type}

/-! ## Programs that leave a budget alone -/

/-- Whether a program asks for no other budget of an instance. -/
def HostM.Spares (id : InstanceId) : HostM σ α → Prop
  | .done _ => True
  | .getState k => ∀ s, (k s).Spares id
  | .setState _ k => k.Spares id
  | .viewMemory k => ∀ m, (k m).Spares id
  | .updateMemory _ k => ∀ r, (k r).Spares id
  | .call _ _ _ _ k => ∀ r, (k r).Spares id
  | .setFuel other _ k => other ≠ id ∧ k.Spares id

/-- Whether what is in control asks for no other budget of an instance. -/
def Control.Spares (id : InstanceId) : Control σ → Prop
  | .host _ program => program.Spares id
  | _ => True

/-- Whether what waits asks for no other budget of an instance, whatever it is answered. -/
def Pending.Spares (id : InstanceId) : Pending σ → Prop
  | .host _ _ k => ∀ r, (k r).Spares id
  | _ => True

/-- Whether no host function that is bound in a store asks for another budget of an instance. -/
def Store.Spares (s : Store σ) (id : InstanceId) : Prop :=
  ∀ (i : InstanceId) (inst : Instance σ) (func : Nat) (type : Signature) (ref : ImportName)
    (f : HostFunc σ), s.instances[i]? = some inst →
    inst.functions[func]? = some (.imported type ref (.func f)) →
    ∀ site args, HostM.Spares id (f.body site args)

/-- Whether nothing in a configuration asks for another budget of an instance. -/
structure Config.Spares (c : Config σ) (id : InstanceId) : Prop where
  store : c.store.Spares id
  control : c.control.Spares id
  pending : ∀ p ∈ c.pending, p.Spares id

theorem HostM.isHereditary_spares (id : InstanceId) :
    IsHereditary (HostM.Spares id : HostM σ α → Prop) where
  getState h := h
  setState h := h
  viewMemory h := h
  updateMemory h := h
  call h := h
  setFuel h := h.2

namespace Store

variable {s s' : Store σ} {id i : InstanceId}

theorem Spares.of_map (h : s.Spares id)
    (hs : s'.instances.map (·.functions) = s.instances.map (·.functions)) : s'.Spares id :=
  BindsOnly.of_map (P := HostM.Spares id) h hs

theorem Spares.of_cores (h : s.Spares id) (hs : s'.cores = s.cores) : s'.Spares id :=
  BindsOnly.of_cores (P := HostM.Spares id) h hs

end Store

namespace Config

variable {c : Config σ} {id : InstanceId}

/-- To ask for no other budget is a property of all programs that run. -/
theorem spares_iff_runsOnly : c.Spares id ↔ c.RunsOnly (HostM.Spares id) := by
  have hcontrol : c.control.Spares id ↔ c.control.RunsOnly (HostM.Spares id) := by
    cases c.control <;> exact Iff.rfl
  have hpending (p : Pending σ) : p.Spares id ↔ p.RunsOnly (HostM.Spares id) := by
    cases p <;> exact Iff.rfl
  constructor
  · rintro ⟨hs, hc, hp⟩
    exact ⟨hs, hcontrol.1 hc, fun p hmem => (hpending p).1 (hp p hmem)⟩
  · rintro ⟨hs, hc, hp⟩
    exact ⟨hs, hcontrol.2 hc, fun p hmem => (hpending p).2 (hp p hmem)⟩

/-- **A step asks for no other budget** if nothing asks for one. -/
theorem Spares.step (h : c.Spares id) : c.step.Spares id :=
  spares_iff_runsOnly.2 ((spares_iff_runsOnly.1 h).step (HostM.isHereditary_spares id))

theorem Spares.run (h : c.Spares id) (n : Nat) : (Config.run n c).Spares id :=
  run_induction (P := fun c => c.Spares id) (fun _ => Spares.step) h n

end Config

/-! ## One step -/

namespace Store

variable {s s₁ : Store σ} {id i : InstanceId} {a b : Option Nat}

theorem setFuel_comm (h : i ≠ id) (s : Store σ) (a b : Option Nat) :
    (s.setFuel id a).setFuel i b = (s.setFuel i b).setFuel id a := by
  refine ext_of_instances (fun j => ?_) rfl rfl rfl
  simp only [getElem?_setFuel]
  by_cases hj : j = i
  · rw [if_pos hj, if_neg (hj ▸ h), if_neg (hj ▸ h), if_pos hj]
  · rw [if_neg hj, if_neg hj]

theorem setFuel_of_none (h : s.instances[id]? = none) (a : Option Nat) : s.setFuel id a = s := by
  refine ext_of_instances (fun j => ?_) rfl rfl rfl
  rw [getElem?_setFuel]
  split
  · next hj => rw [hj, h, Option.map_none]
  · rfl

theorem spendFuel_setFuel_of_ne (h : i ≠ id) :
    (s.setFuel id a).spendFuel i = refuel id a (s.spendFuel i) := by
  unfold spendFuel
  rw [getElem?_setFuel, if_neg h]
  split
  · rfl
  · rfl
  · exact congrArg (Prod.mk true) (setFuel_comm h ..)

/-- Without a budget nothing is spent. -/
theorem spendFuel_none : (s.setFuel id none).spendFuel id = (true, s.setFuel id none) := by
  unfold spendFuel
  rw [getElem?_setFuel, if_pos rfl]
  cases s.instances[id]? <;> rfl

/-- A budget pays one unit. -/
theorem spendFuel_succ (n : Nat) :
    (s.setFuel id (some (n + 1))).spendFuel id = (true, s.setFuel id (some n)) := by
  cases h : s.instances[id]? with
  | none =>
    rw [setFuel_of_none h, setFuel_of_none h, spendFuel, h]
    rfl
  | some inst =>
    rw [spendFuel, getElem?_setFuel, if_pos rfl, h]
    exact congrArg (Prod.mk true) (setFuel_setFuel ..)

/-- An empty budget pays nothing. -/
theorem spendFuel_zero (h : id < s.instances.size) :
    (s.setFuel id (some 0)).spendFuel id = (false, s.setFuel id (some 0)) := by
  rw [spendFuel, getElem?_setFuel, if_pos rfl, Array.getElem?_eq_getElem h]
  rfl

theorem serve_setFuel (call : HostCall) {program : HostProgram σ} (h : program.Spares id) :
    (s.setFuel id a).serve call program = (s.serve call program).setFuel id a := by
  cases program with
  | done outcome =>
    simp only [serve, endHostCall_setFuel]
    rfl
  | getState k => rfl
  | setState host k => rfl
  | viewMemory k =>
    simp only [serve, callerMemory_setFuel]
    rfl
  | updateMemory op k =>
    simp only [serve, updateCallerMemory_setFuel]
    rfl
  | setFuel other fuel k =>
    exact congrArg (fun s : Store σ => s.proceed call k) (setFuel_comm h.1 s a fuel)
  | call target callee args holds k =>
    simp only [serve]
    cases callTarget call target with
    | error e => rfl
    | ok found =>
      obtain ⟨i, depth⟩ := found
      simp only [acquireAll_setFuel]
      generalize s.acquireAll holds = x
      obtain ⟨outcome, s₁⟩ := x
      cases outcome with
      | error e => rfl
      | ok u =>
        simp only [refuel, invocation_setFuel]
        rfl

theorem deliver_setFuel (outcome : Except Error (List Slot)) (p : Pending σ) :
    (s.setFuel id a).deliver outcome p = (s.deliver outcome p).setFuel id a := by
  cases p with
  | run r => cases outcome <;> rfl
  | host call results k =>
    by_cases hf : IsFault outcome
    · rw [deliver_host_of_fault hf, deliver_host_of_fault hf]
      rfl
    · rw [deliver_host hf, deliver_host hf]
      rfl
  | invocation i holds =>
    cases outcome with
    | ok slots => exact congrArg (finish · _) (releaseAll_setFuel holds)
    | error e =>
      by_cases he : e.IsFatal
      · simp only [deliver, if_pos he]
        rw [modifyInstance_setFuel fun _ _ => rfl, releaseAll_setFuel]
        rfl
      · simp only [deliver, if_neg he, releaseAll_setFuel]
        rfl

end Store

namespace Config

variable {c : Config σ} {id : InstanceId}

/-- Whether the next step dispatches an instruction of an instance. -/
def dispatchesIn (id : InstanceId) (c : Config σ) : Bool :=
  match c.control with
  | .run r => r.inst == id
  | _ => false

/-- **Every step but the dispatch of an instruction is blind.** -/
theorem step_setFuel (h : c.Spares id) (hno : c.dispatchesIn id = false) (a : Option Nat) :
    (c.setFuel id a).step = c.step.setFuel id a := by
  obtain ⟨s, control, ps⟩ := c
  cases control with
  | run r =>
    have hne : r.inst ≠ id := by simpa [dispatchesIn] using hno
    have hspend : (s.setFuel id a).spendFuel r.inst = Store.refuel id a (s.spendFuel r.inst) :=
      Store.spendFuel_setFuel_of_ne hne
    have hdispatch : (s.setFuel id a).dispatch r = (s.dispatch r).setFuel id a := by
      cases hs : s.spendFuel r.inst with
      | mk isPaid s₁ =>
        rw [hs] at hspend
        cases isPaid with
        | true => exact Store.dispatch_setFuel hs hspend
        | false =>
          rw [Store.dispatch, Store.dispatch, hs, hspend]
          rfl
    exact congrArg (ofTransition · ps) hdispatch
  | host call program => exact congrArg (ofTransition · ps) (Store.serve_setFuel call h.control)
  | done outcome =>
    cases ps with
    | nil => rfl
    | cons p ps => exact congrArg (ofTransition · ps) (Store.deliver_setFuel outcome p)

/-- A dispatch does the same without a budget as with one, which pays for it. -/
theorem step_setFuel_of_dispatches (hd : c.dispatchesIn id = true) {a b : Option Nat}
    (hspend : (c.store.setFuel id a).spendFuel id = (true, c.store.setFuel id b)) :
    (c.setFuel id a).step = (c.setFuel id none).step.setFuel id b := by
  obtain ⟨s, control, ps⟩ := c
  cases control with
  | run r =>
    obtain rfl : r.inst = id := by simpa [dispatchesIn] using hd
    rw [← Store.setFuel_setFuel s r.inst none b] at hspend
    exact congrArg (ofTransition · ps) (Store.dispatch_setFuel Store.spendFuel_none hspend)
  | host call program => cases hd
  | done outcome => cases hd

/-! ## Runs -/

/-- The number of instructions of an instance among the first steps of a run. -/
def dispatches (id : InstanceId) (c : Config σ) : Nat → Nat
  | 0 => 0
  | n + 1 => c.dispatches id n + if (run n c).dispatchesIn id then 1 else 0

/-- What has ended dispatches nothing more. -/
theorem dispatches_of_le {m n : Nat} (h : (run m c).outcome?.isSome) (hmn : m ≤ n) :
    c.dispatches id n = c.dispatches id m := by
  obtain ⟨k, rfl⟩ := Nat.exists_eq_add_of_le hmn
  clear hmn
  induction k with
  | zero => rfl
  | succ k ih =>
    have hrun : run (m + k) c = run m c := run_of_le h (Nat.le_add_right m k)
    have hno : (run m c).dispatchesIn id = false := by
      generalize run m c = c' at h
      obtain ⟨s, control, ps⟩ := c'
      cases control with
      | run r => cases ps <;> cases h
      | host call program => rfl
      | done outcome => rfl
    rw [← Nat.add_assoc, dispatches, hrun, hno, if_neg Bool.false_ne_true]
    exact ih

/-- **A run pays for its dispatches**, and is otherwise what it is without a budget, as long as
nothing but dispatches asks for budgets. -/
theorem run_setFuel {n : Nat} (h : ∀ m < n, (run m c).dispatchesIn id = true ∨ (run m c).Spares id)
    (hc : c.setFuel id none = c) : (run n c).setFuel id none = run n c ∧ ∀ k,
      run n (c.setFuel id (some (c.dispatches id n + k))) = (run n c).setFuel id (some k) := by
  induction n with
  | zero =>
    refine ⟨hc, fun k => ?_⟩
    rw [dispatches, Nat.zero_add]
    rfl
  | succ n ih =>
    obtain ⟨hnone, hrun⟩ := ih fun m hm => h m (Nat.lt_succ_of_lt hm)
    cases hd : (run n c).dispatchesIn id with
    | false =>
      have hn : (run n c).Spares id := by simpa [hd] using h n (Nat.lt_succ_self n)
      refine ⟨?_, fun k => ?_⟩
      · rw [run_succ, ← step_setFuel hn hd, hnone]
      · have hcount : c.dispatches id (n + 1) = c.dispatches id n := by simp [dispatches, hd]
        rw [hcount, run_succ, run_succ, hrun, step_setFuel hn hd]
    | true =>
      refine ⟨?_, fun k => ?_⟩
      · have hstep := step_setFuel_of_dispatches hd Store.spendFuel_none
        rw [hnone] at hstep
        rw [run_succ, ← hstep]
      · have hstep := step_setFuel_of_dispatches hd (Store.spendFuel_succ k)
        rw [hnone] at hstep
        have hcount : c.dispatches id (n + 1) + k = c.dispatches id n + (k + 1) := by
          simp [dispatches, hd, Nat.add_assoc, Nat.add_comm]
        rw [hcount, run_succ, run_succ, hrun, hstep]

end Config

end WasmEngine
