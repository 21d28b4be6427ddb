import WasmEngine.Proofs.Nesting.Stack
import WasmEngine.Proofs.Safety.Reachable

/-!
# Proofs/Nesting/Session — what an embedder does with a store

`Store.Operation` lists what an embedder can do, each with the runs of the machine that it takes, and
a `Store.Session` is a sequence of operations.  No condition is put on modules, host functions, hooks
or arguments.  `Store.Effect` is what an operation comes to: a run from one of the configurations of
`Store.Starts`, a new instance, or a change that leaves all cores alone.
-/

namespace WasmEngine

variable {σ : Type}

/-- A new instance is not poisoned, and no host function of it is running. -/
structure Instance.IsFresh (inst : Instance σ) : Prop where
  isPoisoned : inst.isPoisoned = false
  hostDepth : inst.hostDepth = 0
  reentryDepth : inst.reentryDepth = 0

/-- **Allocation yields fresh instances.** -/
theorem Instance.isFresh_of_allocate {m : LoadedModule} {imports : Imports σ} {limits : Limits}
    {inst : Instance σ} (h : allocate m imports limits = .ok inst) : inst.IsFresh := by
  obtain ⟨id, module⟩ := m
  unfold allocate at h
  cases hst : module.sideTable with
  | none =>
    simp only [hst] at h
    cases h
  | some sideTable =>
    simp only [hst] at h
    obtain ⟨functions, -, h⟩ := Except.bind_eq_ok_iff.1 h
    obtain ⟨memory, -, h⟩ := Except.bind_eq_ok_iff.1 h
    obtain ⟨table, -, h⟩ := Except.bind_eq_ok_iff.1 h
    obtain ⟨globals, -, h⟩ := Except.bind_eq_ok_iff.1 h
    obtain ⟨elements, -, h⟩ := Except.bind_eq_ok_iff.1 h
    obtain ⟨data, -, h⟩ := Except.bind_eq_ok_iff.1 h
    obtain ⟨memory', -, h⟩ := Except.bind_eq_ok_iff.1 h
    cases h
    exact ⟨rfl, rfl, rfl⟩

namespace Store

variable {s t t' : Store σ} {c : Config σ} {root : Option InstanceId}

/-! ## The last instance -/

/-- An instance of a store that has got a new one is this, or was there. -/
theorem of_getElem?_push {inst inst' : Instance σ} {id : InstanceId}
    (h : (s.instances.push inst)[id]? = some inst') :
    (id = s.instances.size ∧ inst' = inst) ∨ s.instances[id]? = some inst' := by
  rw [Array.getElem?_push] at h
  split at h
  · next heq => exact .inl ⟨heq, (Option.some.inj h).symm⟩
  · exact .inr h

/-- An instance of a store that has lost its last one was there before. -/
theorem of_getElem?_pop {inst : Instance σ} {id : InstanceId}
    (h : s.instances.pop[id]? = some inst) : s.instances[id]? = some inst := by
  rw [Array.getElem?_pop] at h
  split at h
  · exact h
  · cases h

/-! ## Where runs start -/

/-- The configurations in which the operations on a store start the machine, each with the instance
that it acts for if that is not said by an invocation. -/
inductive Starts (s : Store σ) : Option InstanceId → Config σ → Prop where
  | call {id : InstanceId} {callee : Callee} {args : List Value} {holds : List Hold}
      (hholds : (s.acquireAll holds).1 = .ok ()) : Starts s none (s.callConfig id callee args holds)
  | standalone (f : HostFunc σ) (args : List Value) : Starts s none (s.standaloneConfig f args)
  | start {inst : Instance σ} {func : Nat} (hinst : inst.IsFresh) :
      Starts s (some s.instances.size) (s.startConfig inst func)

theorem callConfig_cases (s : Store σ) (id : InstanceId) (callee : Callee) (args : List Value)
    (holds : List Hold) :
    (∃ (e : Error) (s' : Store σ), ¬e.IsFatal ∧ s'.cores = s.cores ∧
      s.callConfig id callee args holds = ⟨s', .done (.error e), [.invocation id holds]⟩) ∨
    ∃ (s₁ : Store σ) (inst : Instance σ) (control : Control σ) (s' : Store σ),
      s₁.cores = s.cores ∧ s₁.instances[id]? = some inst ∧ inst.isPoisoned = false ∧
        s₁.Entry id inst.reentryDepth (control, s') ∧
        s.callConfig id callee args holds = ⟨s', control, [.invocation id holds]⟩ := by
  have hs : (s.acquireAll holds).2.cores = s.cores := cores_acquireAll holds
  simp only [callConfig]
  generalize (s.acquireAll holds).2 = s₁ at hs
  obtain ⟨e, hfatal, hcontrol, hstore⟩ | ⟨inst, hinst, hp, he⟩ :=
    invocation_entry s₁ id callee args 0
  · exact .inl ⟨e, s₁, hfatal, hs, by rw [hcontrol, hstore]⟩
  · rw [Nat.zero_max] at he
    exact .inr ⟨s₁, inst, _, _, hs, hinst, hp, he, rfl⟩

/-- **Runs start with calls stacked.** -/
theorem Starts.isNested (h : s.Starts root c) : c.IsNested root := by
  cases h with
  | @call id callee args holds hholds =>
    obtain ⟨e, s', -, -, heq⟩ | ⟨s₁, inst, control, s', -, -, -, he, heq⟩ :=
      callConfig_cases s id callee args holds
    · rw [heq]
      exact ⟨trivial, rfl, trivial⟩
    · rw [heq]
      exact ⟨he.actsOn rfl, rfl, trivial⟩
  | standalone f args => exact ⟨rfl, trivial⟩
  | start hinst => exact ⟨(callFunction_entry ..).actsOn rfl, trivial⟩

/-! ## Operations -/

/-- The run that a call takes, and the bound on its steps. -/
def callRuns (s : Store σ) (id : InstanceId) (callee : Callee) (args : List Value)
    (holds : List Hold) (budget : Nat) : List (Config σ × Nat) :=
  match (s.acquireAll holds).1 with
  | .ok () => [(s.callConfig id callee args holds, budget)]
  | .error _ => []

/-- The run that a call outside of any instance takes. -/
def standaloneRuns (s : Store σ) (f : HostFunc σ) (args : List Value) (budget : Nat) :
    List (Config σ × Nat) :=
  if Value.HaveTypes args f.params then [(s.standaloneConfig f args, budget)] else []

/-- The run that an instantiation takes. -/
def startRuns (s : Store σ) (m : LoadedModule) (imports : Imports σ) (limits : Limits)
    (budget : Nat) : List (Config σ × Nat) :=
  match Instance.allocate m imports limits, m.module.start with
  | .ok inst, some func => [(s.startConfig inst func, budget)]
  | _, _ => []

/-- What an embedder can do with a store, and the runs that it takes. -/
inductive Operation (s : Store σ) : List (Config σ × Nat) → Store σ → Prop where
  | call {id : InstanceId} {callee : Callee} {args : List Value} {holds : List Hold} {budget : Nat}
      {result : Except Error (List Value)} {t : Store σ}
      (h : s.call id callee args holds budget = some (result, t)) :
      Operation s (s.callRuns id callee args holds budget) t
  | callStandalone {f : HostFunc σ} {args : List Value} {budget : Nat}
      {result : Except Error (Option Value)} {t : Store σ}
      (h : s.callStandalone f args budget = some (result, t)) :
      Operation s (s.standaloneRuns f args budget) t
  | instantiate {m : LoadedModule} {imports : Imports σ} {limits : Limits} {budget : Nat}
      {result : Except Error InstanceId} {t : Store σ}
      (h : s.instantiate m imports limits budget = some (result, t)) :
      Operation s (s.startRuns m imports limits budget) t
  | load (m : Module) : Operation s [] (s.load m).2
  | setFuel (id : InstanceId) (fuel : Option Nat) : Operation s [] (s.setFuel id fuel)
  | updateMemory {α : Type} (id : InstanceId) (op : Memory.Update α) :
      Operation s [] (s.updateMemory? id op).2
  | setHost (host : σ) : Operation s [] { s with host }

/-- Operations one after another, and the runs that they take. -/
inductive Session (s : Store σ) : List (Config σ × Nat) → Store σ → Prop where
  | nil : Session s [] s
  | step {runs new : List (Config σ × Nat)} {t t' : Store σ} (h : Session s runs t)
      (hop : t.Operation new t') : Session s (runs ++ new) t'

/-- What an operation comes to. -/
inductive Effect (s : Store σ) : List (Config σ × Nat) → Store σ → Prop where
  /-- It runs nothing, and leaves every instance its core. -/
  | quiet {t : Store σ} (hs : t.cores = s.cores) : Effect s [] t
  /-- It adds an instance without running anything. -/
  | create {inst : Instance σ} (hinst : inst.IsFresh) :
      Effect s [] { s with instances := s.instances.push inst }
  /-- It runs to an end. -/
  | run {root : Option InstanceId} {c : Config σ} {n : Nat} (hstart : s.Starts root c)
      (hend : (Config.run n c).outcome?.isSome) : Effect s [(c, n)] (Config.run n c).store
  /-- It runs the start function of a new instance, which it takes back. -/
  | undo {inst : Instance σ} {func n : Nat} (hinst : inst.IsFresh) {c : Config σ}
      (hc : c = s.startConfig inst func) (hend : (Config.run n c).outcome?.isSome) :
      Effect s [(c, n)]
        { (Config.run n c).store with instances := (Config.run n c).store.instances.pop }

theorem call_eq_of_conflict {id : InstanceId} {callee : Callee} {args : List Value}
    {holds : List Hold} {budget : Nat} {result : Except Error (List Value)} {e : Error}
    (hholds : (s.acquireAll holds).1 = .error e)
    (h : s.call id callee args holds budget = some (result, t)) :
    result = .error (.fault .conflictingLoan) ∧ t.cores = s.cores := by
  obtain rfl := eq_of_acquireAll hholds
  have hs : (s.acquireAll holds).2.cores = s.cores := cores_acquireAll holds
  unfold call at h
  split at h
  · next heq =>
    rw [heq] at hholds hs
    cases hholds
    cases h
    exact ⟨rfl, hs⟩
  · next heq =>
    rw [heq] at hholds
    cases hholds

theorem effect_of_call {id : InstanceId} {callee : Callee} {args : List Value} {holds : List Hold}
    {budget : Nat} {result : Except Error (List Value)}
    (h : s.call id callee args holds budget = some (result, t)) :
    s.Effect (s.callRuns id callee args holds budget) t := by
  unfold callRuns
  cases hholds : (s.acquireAll holds).1 with
  | ok u =>
    obtain ⟨outcome, hout, rfl, -⟩ := of_call hholds h
    exact .run (.call hholds) (by rw [hout]; rfl)
  | error e => exact .quiet (call_eq_of_conflict hholds h).2

theorem effect_of_callStandalone {f : HostFunc σ} {args : List Value} {budget : Nat}
    {result : Except Error (Option Value)}
    (h : s.callStandalone f args budget = some (result, t)) :
    s.Effect (s.standaloneRuns f args budget) t := by
  unfold callStandalone at h
  unfold standaloneRuns
  split at h
  · next hargs =>
    rw [if_pos hargs]
    obtain ⟨⟨outcome, s₂⟩, hcomplete, hr⟩ := Option.map_eq_some_iff.1 h
    obtain ⟨hout, rfl⟩ := exists_of_complete hcomplete
    cases hr
    exact .run (.standalone f args) (Option.isSome_iff_exists.2 ⟨outcome, hout⟩)
  · next hargs =>
    rw [if_neg hargs]
    cases h
    exact .quiet rfl

/-- A start function that ends well leaves its instance in place. -/
theorem of_instantiate {m : LoadedModule} {imports : Imports σ} {limits : Limits} {budget : Nat}
    {result : Except Error InstanceId} {inst : Instance σ} {func : Nat}
    (halloc : Instance.allocate m imports limits = .ok inst) (hfunc : m.module.start = some func)
    (h : s.instantiate m imports limits budget = some (result, t)) :
    ∃ outcome, (Config.run budget (s.startConfig inst func)).outcome? = some outcome ∧
      ((∃ slots, outcome = .ok slots ∧ result = .ok s.instances.size ∧
          t = (Config.run budget (s.startConfig inst func)).store) ∨
        ∃ e, outcome = .error e ∧ result = .error e ∧
          t = { (Config.run budget (s.startConfig inst func)).store with
            instances := (Config.run budget (s.startConfig inst func)).store.instances.pop }) := by
  simp only [instantiate, halloc, hfunc] at h
  obtain ⟨⟨outcome, s₂⟩, hcomplete, hr⟩ := Option.map_eq_some_iff.1 h
  obtain ⟨hout, rfl⟩ := exists_of_complete hcomplete
  refine ⟨outcome, hout, ?_⟩
  cases outcome with
  | ok slots =>
    cases hr
    exact .inl ⟨slots, rfl, rfl, rfl⟩
  | error e =>
    cases hr
    exact .inr ⟨e, rfl, rfl, rfl⟩

theorem effect_of_instantiate {m : LoadedModule} {imports : Imports σ} {limits : Limits}
    {budget : Nat} {result : Except Error InstanceId}
    (h : s.instantiate m imports limits budget = some (result, t)) :
    s.Effect (s.startRuns m imports limits budget) t := by
  unfold startRuns
  cases halloc : Instance.allocate m imports limits with
  | error e =>
    simp only [instantiate, halloc] at h
    cases h
    exact .quiet rfl
  | ok inst =>
    have hfresh := Instance.isFresh_of_allocate halloc
    cases hfunc : m.module.start with
    | none =>
      simp only [instantiate, halloc, hfunc] at h
      cases h
      exact .create hfresh
    | some func =>
      obtain ⟨outcome, hout, hcases⟩ := of_instantiate halloc hfunc h
      have hend := Option.isSome_iff_exists.2 ⟨outcome, hout⟩
      obtain ⟨-, -, -, rfl⟩ | ⟨-, -, -, rfl⟩ := hcases
      · exact .run (.start hfresh) hend
      · exact .undo hfresh rfl hend

/-- **Every operation has an effect of these kinds.** -/
theorem Operation.effect {runs : List (Config σ × Nat)} (h : s.Operation runs t) :
    s.Effect runs t := by
  cases h with
  | call h => exact effect_of_call h
  | callStandalone h => exact effect_of_callStandalone h
  | instantiate h => exact effect_of_instantiate h
  | load m => exact .quiet rfl
  | setFuel id fuel => exact .quiet (cores_setFuel fuel)
  | updateMemory id op => exact .quiet (cores_updateMemory? op)
  | setHost host => exact .quiet rfl

end Store

end WasmEngine
