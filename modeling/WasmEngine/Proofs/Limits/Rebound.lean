import WasmEngine.Proofs.Nesting.Session

/-!
# Proofs/Limits/Rebound — what looks at no bound

The limits of an instance and its budget bound what its code may do.  `Store.rebound` puts others in
their place.  An operation that looks at neither does the same before and after: it commutes with
`Store.rebound`.  Such are all operations on memory, on globals, on tables and on loans.
-/

namespace WasmEngine

variable {σ α : Type}

/-- The instance with other limits and another budget. -/
def Instance.rebound (inst : Instance σ) (l : Limits → Limits) (a : Option Nat → Option Nat) :
    Instance σ :=
  { inst with limits := l inst.limits, fuel := a inst.fuel }

namespace Store

/-- The store with other limits and another budget for an instance. -/
def rebound (s : Store σ) (id : InstanceId) (l : Limits → Limits) (a : Option Nat → Option Nat) :
    Store σ :=
  s.modifyInstance id (·.rebound l a)

/-- The result of an operation, with other limits and another budget for an instance. -/
def rebounded (id : InstanceId) (l : Limits → Limits) (a : Option Nat → Option Nat)
    (x : α × Store σ) : α × Store σ :=
  (x.1, x.2.rebound id l a)

variable {s s' : Store σ} {id i : InstanceId} {inst : Instance σ} {l : Limits → Limits}
  {a : Option Nat → Option Nat}

/-- Stores are the same if they agree in each instance and in the rest. -/
theorem ext_of_instances (hinstances : ∀ i : InstanceId, s'.instances[i]? = s.instances[i]?)
    (hhost : s'.host = s.host) (hhooks : s'.heldHooks = s.heldHooks)
    (hcount : s'.moduleCount = s.moduleCount) : s' = s := by
  obtain ⟨instances, host, hooks, count⟩ := s
  obtain ⟨instances', host', hooks', count'⟩ := s'
  obtain rfl : instances' = instances := Array.ext_getElem? hinstances
  obtain rfl : host' = host := hhost
  obtain rfl : hooks' = hooks := hhooks
  obtain rfl : count' = count := hcount
  rfl

/-- One instance gets other bounds; the others keep theirs. -/
theorem getElem?_rebound (s : Store σ) (id i : InstanceId) (l : Limits → Limits)
    (a : Option Nat → Option Nat) : (s.rebound id l a).instances[i]? =
      if i = id then s.instances[i]?.map (·.rebound l a) else s.instances[i]? :=
  getElem?_modifyInstance ..

theorem getElem?_rebound_of_none (h : s.instances[i]? = none) :
    (s.rebound id l a).instances[i]? = none := by
  rw [getElem?_rebound, h]
  exact ite_self _

/-- Other bounds leave the rest of every instance. -/
theorem getElem?_rebound_of_some (h : s.instances[i]? = some inst) (id : InstanceId)
    (l : Limits → Limits) (a : Option Nat → Option Nat) :
    ∃ l' a', (s.rebound id l a).instances[i]? = some (inst.rebound l' a') := by
  rw [getElem?_rebound, h]
  split
  · exact ⟨l, a, rfl⟩
  · exact ⟨fun limits => limits, fun fuel => fuel, rfl⟩

/-- One instance is updated; the others stay. -/
theorem getElem?_withInstance {missing : α} {f : Instance σ → α × Instance σ} :
    (s.withInstance id missing f).2.instances[i]? =
      if i = id then s.instances[i]?.map (fun inst => (f inst).2) else s.instances[i]? := by
  rw [← getElem?_modifyInstance, modifyInstance, withInstance_eq, withInstance_eq]
  cases s.instances[id]? <;> rfl

/-- **A change that looks at no bound of one instance looks at none.** -/
theorem withInstance_rebound {missing : α} {f : Instance σ → α × Instance σ}
    (hf : ∀ (inst : Instance σ) (l : Limits → Limits) (a : Option Nat → Option Nat),
      f (inst.rebound l a) = ((f inst).1, (f inst).2.rebound l a)) :
    (s.rebound id l a).withInstance i missing f =
      rebounded id l a (s.withInstance i missing f) := by
  refine Prod.ext ?_ (ext_of_instances (fun j => ?_) rfl rfl rfl)
  · rw [rebounded, withInstance_eq, withInstance_eq]
    cases hinst : s.instances[i]? with
    | none => rw [getElem?_rebound_of_none hinst]
    | some inst =>
      obtain ⟨l', a', hinst'⟩ := getElem?_rebound_of_some hinst id l a
      rw [hinst']
      exact (congrArg Prod.fst (hf inst l' a') :)
  · rw [rebounded, getElem?_withInstance, getElem?_rebound, getElem?_rebound, getElem?_withInstance]
    by_cases hi : j = i
    · by_cases hid : j = id
      · rw [if_pos hi, if_pos hid, if_pos hid, if_pos hi, Option.map_map, Option.map_map]
        exact congrArg (Option.map · _) (funext fun inst => congrArg Prod.snd (hf inst l a))
      · rw [if_pos hi, if_neg hid, if_neg hid, if_pos hi]
    · rw [if_neg hi, if_neg hi]

/-- A change that looks at no bound commutes with changing them. -/
theorem modifyInstance_rebound {f : Instance σ → Instance σ}
    (hf : ∀ (inst : Instance σ) (l : Limits → Limits) (a : Option Nat → Option Nat),
      f (inst.rebound l a) = (f inst).rebound l a) :
    (s.rebound id l a).modifyInstance i f = (s.modifyInstance i f).rebound id l a :=
  congrArg Prod.snd (withInstance_rebound fun inst l a => congrArg (Prod.mk ()) (hf inst l a))

/-! ## Memory and globals -/

/-- A memory that is viewed has no bound in what can be seen of it. -/
theorem viewMemory?_rebound : (s.rebound id l a).viewMemory? i = s.viewMemory? i := by
  cases hinst : s.instances[i]? with
  | none =>
    rw [viewMemory?, viewMemory?, getElem?_rebound_of_none hinst, hinst]
  | some inst =>
    obtain ⟨l', a', hinst'⟩ := getElem?_rebound_of_some hinst id l a
    rw [viewMemory?, viewMemory?, hinst', hinst]
    rfl

/-- A memory grows up to its own maximum, which was fixed when it was made. -/
theorem updateMemory?_rebound (op : Memory.Update α) :
    (s.rebound id l a).updateMemory? i op = rebounded id l a (s.updateMemory? i op) := by
  refine withInstance_rebound fun inst l a => ?_
  obtain ⟨_, _, _, _, _, _, memory, loan, _⟩ := inst
  cases memory with
  | none => rfl
  | some memory =>
    by_cases hloan : loan = .shared 0
    · simp only [Instance.rebound, hloan, if_true]
      cases op memory <;> rfl
    · simp only [Instance.rebound, hloan, if_false]

/-- Globals have no bounds. -/
theorem getGlobal_rebound (index : Nat) :
    (s.rebound id l a).getGlobal i index = s.getGlobal i index := by
  cases hinst : s.instances[i]? with
  | none => rw [getGlobal, getGlobal, getElem?_rebound_of_none hinst, hinst]
  | some inst =>
    obtain ⟨l', a', hinst'⟩ := getElem?_rebound_of_some hinst id l a
    rw [getGlobal, getGlobal, hinst', hinst]
    rfl

theorem setGlobal_rebound (index : Nat) (v : Slot) :
    (s.rebound id l a).setGlobal i index v = rebounded id l a (s.setGlobal i index v) := by
  refine withInstance_rebound fun inst l a => ?_
  by_cases hi : index < inst.globals.size
  · simp only [Instance.rebound, hi, if_true]
  · simp only [Instance.rebound, hi, if_false]

/-- Loads depend on the size of the memory, which is kept. -/
theorem readMemory_rebound (f : Memory → Except Error α) :
    (s.rebound id l a).readMemory i f = s.readMemory i f := by
  rw [readMemory, readMemory, viewMemory?_rebound]

theorem changeMemory_rebound (op : Memory.Update α) :
    (s.rebound id l a).changeMemory i op = rebounded id l a (s.changeMemory i op) := by
  rw [changeMemory, changeMemory, updateMemory?_rebound]
  generalize s.updateMemory? i op = x
  obtain ⟨outcome, s⟩ := x
  cases outcome <;> rfl

/-- **No access looks at a bound.** -/
theorem access_rebound (instr : Instr BlockJump) (operands : List Slot) :
    (s.rebound id l a).access i instr operands =
      rebounded id l a (s.access i instr operands) := by
  unfold access
  split
  all_goals
    first
    | rfl
    | simp only [getGlobal_rebound, setGlobal_rebound, readMemory_rebound, changeMemory_rebound]; rfl

/-! ## Code and tables -/

/-- Code has no bounds. -/
theorem fetch?_rebound (pc : Nat) : (s.rebound id l a).fetch? i pc = s.fetch? i pc := by
  cases hinst : s.instances[i]? with
  | none => rw [fetch?, fetch?, getElem?_rebound_of_none hinst, hinst]
  | some inst =>
    obtain ⟨l', a', hinst'⟩ := getElem?_rebound_of_some hinst id l a
    rw [fetch?, fetch?, hinst', hinst]
    rfl

/-- The table has its entries, however many were allowed. -/
theorem tableEntry_rebound (type slot : Nat) :
    (s.rebound id l a).tableEntry i type slot = s.tableEntry i type slot := by
  cases hinst : s.instances[i]? with
  | none => rw [tableEntry, tableEntry, getElem?_rebound_of_none hinst, hinst]
  | some inst =>
    obtain ⟨l', a', hinst'⟩ := getElem?_rebound_of_some hinst id l a
    rw [tableEntry, tableEntry, hinst', hinst]
    rfl

/-! ## Loans -/

/-- No bound is on how many views are held. -/
theorem acquire_rebound (hold : Hold) :
    (s.rebound id l a).acquire hold = rebounded id l a (s.acquire hold) := by
  cases hold with
  | hook h =>
    have hhooks : (s.rebound id l a).heldHooks = s.heldHooks := rfl
    simp only [acquire, hhooks]
    split <;> rfl
  | memory other exclusive =>
    simp only [acquire]
    refine withInstance_rebound fun inst l a => ?_
    obtain ⟨_, _, _, _, _, _, memory, loan, _⟩ := inst
    cases memory with
    | none => rfl
    | some memory =>
      simp only [Instance.rebound, Option.isNone_some, Bool.false_eq_true, if_false]
      split <;> rfl

theorem release_rebound (hold : Hold) :
    (s.rebound id l a).release hold = (s.release hold).rebound id l a := by
  cases hold with
  | hook h => rfl
  | memory other exclusive =>
    simp only [release]
    refine modifyInstance_rebound fun inst l a => ?_
    obtain ⟨_, _, _, _, _, _, memory, loan, _⟩ := inst
    cases memory with
    | none => rfl
    | some memory =>
      simp only [Instance.rebound, Option.isNone_some, Bool.false_eq_true, if_false]
      split <;> rfl

/-- Those that are asked for one after the other are granted or refused alike. -/
theorem acquireAll_rebound (holds : List Hold) :
    (s.rebound id l a).acquireAll holds = rebounded id l a (s.acquireAll holds) := by
  induction holds generalizing s with
  | nil => rfl
  | cons hold holds ih =>
    simp only [acquireAll, acquire_rebound]
    generalize s.acquire hold = x
    obtain ⟨outcome, s₁⟩ := x
    cases outcome with
    | error e => rfl
    | ok u =>
      simp only [rebounded, ih]
      generalize s₁.acquireAll holds = y
      obtain ⟨outcome, s₂⟩ := y
      cases outcome with
      | error e => exact congrArg (Prod.mk _) (release_rebound hold)
      | ok u => rfl

theorem releaseAll_rebound (holds : List Hold) :
    (s.rebound id l a).releaseAll holds = (s.releaseAll holds).rebound id l a := by
  induction holds generalizing s with
  | nil => rfl
  | cons hold holds ih =>
    have hhead := ih (s := s.release hold)
    rw [← release_rebound] at hhead
    exact hhead

end Store

end WasmEngine
