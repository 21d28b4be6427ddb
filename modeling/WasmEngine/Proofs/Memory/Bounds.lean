import WasmEngine.Proofs.Fuel.Budget
import WasmEngine.Proofs.Instance.Initial
import WasmEngine.Proofs.Memory.Work

/-!
# Proofs/Memory/Bounds — memory stays within its bounds and only grows

A memory is created with the declared minimum, and it may grow up to the declared maximum and the
configured limit, whichever is less (`Memory.IsWithin`).  Whoever works on it by its operations, it stays
within these bounds: instructions, the allocator, host functions, the embedder.  `Store.IsLawful` are the
stores that an embedder gets to in this way and `Store.LawfulStart` the runs that it starts there; in every
state of these, and from each to the next, `Store.memory_within_bounds` holds.
-/

namespace WasmEngine

variable {σ α : Type}

/-! ## Bounds -/

/-- A memory of whole pages, between the declared minimum and the maximum that it was created with. -/
structure Memory.IsWithin (m : Memory) (e : Extent) (limits : Limits) : Prop where
  isPaged : m.IsPaged
  min_le : e.min ≤ m.pages
  le_maximum : m.pages ≤ m.maximum
  maximum_eq : m.maximum = min (e.max.getD maxPages) limits.maxMemoryPages

theorem Memory.IsWithin.becomes {m m' : Memory} {e : Extent} {limits : Limits}
    (h : m.IsWithin e limits) (hm : m.Becomes m') : m'.IsWithin e limits where
  isPaged := hm.isPaged h.isPaged
  min_le := Nat.le_trans h.min_le hm.pages_le
  le_maximum := hm.pages_le_maximum h.le_maximum
  maximum_eq := hm.maximum_eq.trans h.maximum_eq

/-- An instance whose memory is within the bounds that its module and its limits set. -/
def Instance.IsBounded (inst : Instance σ) : Prop :=
  ∀ m, inst.memory = some m → ∃ e, inst.module.memory = some e ∧ m.IsWithin e inst.limits

/-- A store of such instances. -/
def Store.IsBounded (s : Store σ) : Prop :=
  ∀ (id : InstanceId) (inst : Instance σ), s.instances[id]? = some inst → inst.IsBounded

namespace Instance

variable {bytes : ByteArray} {m : LoadedModule} {imports : Imports σ} {limits : Limits}
  {inst : Instance σ}

/-- An instance of a compiled module starts in its declared state. -/
theorem exists_isInitial (hm : Module.compile bytes = .ok m.module)
    (h : allocate m imports limits = .ok inst) : m.module.Grounded m.module.bytes ∧
      ∃ c : Module.Constants, c.AreOf m.module ∧ m.module.Links c imports limits ∧
        Module.IsInitial m c imports limits inst := by
  obtain ⟨id, module⟩ := m
  obtain ⟨hgrounded, table, hst⟩ := Module.grounded_of_compile hm
  obtain ⟨c, hc⟩ := hgrounded.exists_constants
  obtain ⟨hlinks, -⟩ := (allocate_eq_ok_iff hst hc).1 h
  obtain ⟨inst', hinst', hinitial⟩ : ∃ inst', allocate ⟨id, module⟩ imports limits = .ok inst' ∧
      Module.IsInitial ⟨id, module⟩ c imports limits inst' :=
    exists_allocate hst hgrounded hc hlinks
  obtain rfl := Except.ok.inj (h.symm.trans hinst')
  exact ⟨hgrounded, c, hc, hlinks, hinitial⟩

/-- **The memory of a new instance** is within bounds. -/
theorem isBounded_of_allocate (hm : Module.compile bytes = .ok m.module)
    (h : allocate m imports limits = .ok inst) : inst.IsBounded := by
  obtain ⟨hgrounded, c, -, hlinks, hinitial⟩ := exists_isInitial hm h
  intro memory hmemory
  have hsome : m.module.memory.isSome := by
    rw [← hinitial.memory_isSome, hmemory]
    rfl
  obtain ⟨e, he⟩ := Option.isSome_iff_exists.1 hsome
  obtain ⟨hpages, hsize, hmaximum, -⟩ := hinitial.memory e he memory hmemory
  obtain ⟨hordered, hmin, hmax⟩ := hgrounded.memory e he
  have hdeclared : e.min ≤ e.max.getD Memory.maxPages ∧
      e.max.getD Memory.maxPages ≤ Memory.maxPages := by
    cases hsome : e.max with
    | none => exact ⟨hmin, Nat.le_refl _⟩
    | some max => exact ⟨hordered max hsome, hmax max hsome⟩
  have hlimit : e.min ≤ limits.maxMemoryPages := (hlinks.memory e he).2
  have hmaximum' : memory.maximum = min (e.max.getD Memory.maxPages) limits.maxMemoryPages :=
    hmaximum.trans (Nat.min_eq_left (Nat.le_trans (Nat.min_le_left ..) hdeclared.2))
  refine ⟨e, by rw [hinitial.module_eq.2]; exact he, ⟨?_, ?_⟩, ?_, ?_, ?_⟩
  · rw [hsize, hpages, Module.memorySize, he]
    rfl
  · rw [hmaximum]
    exact Nat.min_le_right ..
  · exact Nat.le_of_eq hpages.symm
  · rw [hpages, hmaximum']
    exact Nat.le_min.2 ⟨hdeclared.1, hlimit⟩
  · rw [hmaximum', hinitial.limits.1]

/-- **What a new instance can call** is what its imports are bound to. -/
theorem exists_of_allocate (hm : Module.compile bytes = .ok m.module)
    (h : allocate m imports limits = .ok inst) {func : Nat} {type : Signature} {ref : ImportName}
    {binding : ImportBinding σ} (hf : inst.functions[func]? = some (.imported type ref binding)) :
    ∃ ref', imports.get? ref' = some binding := by
  obtain ⟨-, c, -, -, hinitial⟩ := exists_isInitial hm h
  rw [← Array.getElem?_toList] at hf
  obtain ⟨hlt, hcallee⟩ := List.getElem?_eq_some_iff.1 hf
  have hresolved := hinitial.functions.get (hinitial.functions.length_eq ▸ hlt) hlt
  rw [List.get_eq_getElem, List.get_eq_getElem, hcallee, Module.ResolvesTo] at hresolved
  split at hresolved
  · cases hresolved
  · obtain ⟨binding', hget, heq⟩ := hresolved
    cases heq
    exact ⟨_, hget⟩

end Instance

/-! ## From one state to the next -/

/-- An instance after some time: operations have changed its memory. -/
structure Instance.Advances (inst inst' : Instance σ) : Prop where
  module : inst'.module = inst.module
  limits : inst'.limits = inst.limits
  memory : Option.Rel Memory.Becomes inst.memory inst'.memory

/-- A store after some time: the instances are still there. -/
def Store.Advances (s s' : Store σ) : Prop :=
  ∀ (id : InstanceId) (inst : Instance σ), s.instances[id]? = some inst →
    ∃ inst', s'.instances[id]? = some inst' ∧ inst.Advances inst'

namespace Instance

variable {inst inst' inst'' : Instance σ}

theorem Advances.of_memory_eq (hmodule : inst'.module = inst.module)
    (hlimits : inst'.limits = inst.limits) (hmemory : inst'.memory = inst.memory) :
    inst.Advances inst' where
  module := hmodule
  limits := hlimits
  memory := by
    rw [hmemory]
    cases inst.memory with
    | none => exact .none
    | some m => exact .some .refl

theorem Advances.trans (h : inst.Advances inst') (h' : inst'.Advances inst'') :
    inst.Advances inst'' where
  module := h'.module.trans h.module
  limits := h'.limits.trans h.limits
  memory := by
    have hfirst := h.memory
    have hsecond := h'.memory
    generalize inst.memory = m at hfirst ⊢
    generalize inst''.memory = m'' at hsecond ⊢
    revert hfirst hsecond
    cases inst'.memory with
    | none => rintro ⟨⟩ ⟨⟩; exact .none
    | some m' => rintro ⟨h₁⟩ ⟨h₂⟩; exact .some (h₁.trans h₂)

theorem Keeps.advances (h : inst.Keeps Memory.Becomes inst') : inst.Advances inst' := by
  obtain heq | ⟨-, m, m', hm, hm', hbecomes⟩ := h.memory
  · exact .of_memory_eq h.module h.limits heq
  · refine ⟨h.module, h.limits, ?_⟩
    rw [hm, hm']
    exact .some hbecomes

theorem Advances.isBounded (h : inst.Advances inst') (hb : inst.IsBounded) : inst'.IsBounded := by
  intro m' hm'
  have hmemory := h.memory
  rw [hm'] at hmemory
  cases hm : inst.memory with
  | none =>
    rw [hm] at hmemory
    cases hmemory
  | some m =>
    rw [hm] at hmemory
    obtain ⟨hbecomes⟩ := hmemory
    obtain ⟨e, he, hwithin⟩ := hb m hm
    exact ⟨e, h.module ▸ he, h.limits ▸ hwithin.becomes hbecomes⟩

end Instance

namespace Store

variable {s s' s'' t : Store σ} {c : Config σ}

theorem Advances.refl (s : Store σ) : s.Advances s :=
  fun _ inst hinst => ⟨inst, hinst, .of_memory_eq rfl rfl rfl⟩

theorem Advances.trans (h : s.Advances s') (h' : s'.Advances s'') : s.Advances s'' := by
  intro id inst hinst
  obtain ⟨inst', hinst', hone⟩ := h id inst hinst
  obtain ⟨inst'', hinst'', htwo⟩ := h' id inst' hinst'
  exact ⟨inst'', hinst'', hone.trans htwo⟩

theorem Keeps.advances (h : s.Keeps Memory.Becomes s') : s.Advances s' := by
  intro id inst hinst
  obtain ⟨inst', hinst', hkeeps⟩ := h.instances hinst
  exact ⟨inst', hinst', hkeeps.advances⟩

/-- What changes neither modules, limits nor memories. -/
theorem advances_of_view {g : Instance σ → Module × Limits × Option Memory}
    (hg : g = fun inst => (inst.module, inst.limits, inst.memory)) (h : s'.view g = s.view g) :
    s.Advances s' := by
  subst hg
  intro id inst hinst
  have hid := congrArg (fun v => v.1[id]?) h
  simp only [view, Array.getElem?_map, hinst, Option.map_some] at hid
  obtain ⟨inst', hinst', heq⟩ := Option.map_eq_some_iff.1 hid
  simp only [Prod.mk.injEq] at heq
  exact ⟨inst', hinst', .of_memory_eq heq.1 heq.2.1 heq.2.2⟩

theorem advances_acquireAll (s : Store σ) (holds : List Hold) :
    s.Advances (s.acquireAll holds).2 :=
  advances_of_view rfl (view_acquireAll (fun _ _ => rfl) holds)

theorem advances_releaseAll (s : Store σ) (holds : List Hold) :
    s.Advances (s.releaseAll holds) :=
  advances_of_view rfl (view_releaseAll (fun _ _ => rfl) holds)

/-- **A step leaves instances, with memories that operations have changed.** -/
theorem Passage.advances {held held' : List Hold}
    (h : s.Passage Memory.Becomes held s' held') : s.Advances s' := by
  cases h with
  | work h => exact h.advances
  | borrow hok h => exact (s.advances_acquireAll _).trans h.advances
  | conflict herror => exact s.advances_acquireAll _
  | giveBack hheld h => exact h.advances.trans (advances_releaseAll _ _)

theorem Advances.isBounded (h : s.Advances s') (hsize : s'.instances.size = s.instances.size)
    (hs : s.IsBounded) : s'.IsBounded := by
  intro id inst' hinst'
  have hlt : id < s.instances.size := hsize ▸ (Array.getElem?_eq_some_iff.1 hinst').1
  have hinst := Array.getElem?_eq_getElem hlt
  obtain ⟨inst₁, hinst₁, hadvances⟩ := h id _ hinst
  obtain rfl := Option.some.inj (hinst'.symm.trans hinst₁)
  exact hadvances.isBounded (hs id _ hinst)

end Store

/-! ## What an embedder does -/

/-- A host function that works on memory by its operations. -/
def HostFunc.IsLawful (f : HostFunc σ) : Prop :=
  ∀ site args, HostM.Obeys Memory.Becomes (f.body site args)

/-- Imports that do. -/
def Imports.IsLawful (imports : Imports σ) : Prop :=
  ∀ ref binding, imports.get? ref = some binding → binding.Obeys Memory.Becomes

namespace Store

/-- What an embedder does with a store, if host functions, hooks and the embedder itself work on
memory by its operations. -/
inductive LawfulOperation (s : Store σ) : Store σ → Prop where
  | load (m : Module) : LawfulOperation s (s.load m).2
  | instantiate {bytes : ByteArray} {m : LoadedModule} {imports : Imports σ} {limits : Limits}
      {budget : Nat} {result : Except Error InstanceId} {t : Store σ}
      (hm : Module.compile bytes = .ok m.module) (himports : imports.IsLawful)
      (h : s.instantiate m imports limits budget = some (result, t)) : LawfulOperation s t
  | call {id : InstanceId} {callee : Callee} {args : List Value} {holds : List Hold} {budget : Nat}
      {result : Except Error (List Value)} {t : Store σ}
      (h : s.call id callee args holds budget = some (result, t)) : LawfulOperation s t
  | callStandalone {f : HostFunc σ} {args : List Value} {budget : Nat}
      {result : Except Error (Option Value)} {t : Store σ} (hf : f.IsLawful)
      (h : s.callStandalone f args budget = some (result, t)) : LawfulOperation s t
  | setFuel (id : InstanceId) (fuel : Option Nat) : LawfulOperation s (s.setFuel id fuel)
  | updateMemory {α : Type} (id : InstanceId) {op : Memory.Update α}
      (hop : op.Obeys Memory.Becomes) : LawfulOperation s (s.updateMemory? id op).2
  | setHost (host : σ) : LawfulOperation s { s with host }

/-- The configurations in which these operations start the machine. -/
inductive LawfulStart (s : Store σ) : Config σ → Prop where
  | call {id : InstanceId} {callee : Callee} {args : List Value} {holds : List Hold}
      (hholds : (s.acquireAll holds).1 = .ok ()) : LawfulStart s (s.callConfig id callee args holds)
  | standalone {f : HostFunc σ} (hf : f.IsLawful) (args : List Value) :
      LawfulStart s (s.standaloneConfig f args)
  | start {bytes : ByteArray} {m : LoadedModule} {imports : Imports σ} {limits : Limits}
      {inst : Instance σ} {func : Nat} (hm : Module.compile bytes = .ok m.module)
      (himports : imports.IsLawful) (hinst : Instance.allocate m imports limits = .ok inst)
      (hfunc : m.module.start = some func) : LawfulStart s (s.startConfig inst func)

/-- The stores that such operations lead to. -/
inductive IsLawful : Store σ → Prop where
  | empty (host : σ) : IsLawful { host }
  | step {s t : Store σ} (h : IsLawful s) (hop : s.LawfulOperation t) : IsLawful t

/-- The stores that such operations pass: between them, and while something runs. -/
inductive IsPassed : Store σ → Prop where
  | between {s : Store σ} (h : s.IsLawful) : IsPassed s
  | during {s : Store σ} {c : Config σ} (h : s.IsLawful) (hc : s.LawfulStart c) (n : Nat) :
      IsPassed (Config.run n c).store

end Store

/-! ## What all of them keep -/

/-- A store whose memories are within bounds and change by operations only. -/
structure Store.IsTame (s : Store σ) : Prop where
  obeys : s.Obeys Memory.Becomes
  isBounded : s.IsBounded

/-- A configuration whose memories are within bounds and change by operations only. -/
structure Config.IsTame (c : Config σ) : Prop where
  obeys : c.Obeys Memory.Becomes
  isBounded : c.store.IsBounded

namespace Config.IsTame

variable {c : Config σ}

theorem store (h : c.IsTame) : c.store.IsTame := ⟨h.obeys.store, h.isBounded⟩

theorem advances_step (h : c.IsTame) : c.store.Advances c.step.store :=
  (h.obeys.passage Memory.isWorkOrder_becomes).advances

/-- **A step leaves memories within bounds.** -/
theorem step (h : c.IsTame) : c.step.IsTame where
  obeys := h.obeys.step Memory.isWorkOrder_becomes
  isBounded := h.advances_step.isBounded (size_step c) h.isBounded

/-- **A run leaves memories within bounds**, and they have only grown. -/
theorem run (h : c.IsTame) (n : Nat) :
    (Config.run n c).IsTame ∧ c.store.Advances (Config.run n c).store := by
  induction n with
  | zero => exact ⟨h, .refl _⟩
  | succ n ih =>
    rw [run_succ]
    exact ⟨ih.1.step, ih.2.trans ih.1.advances_step⟩

end Config.IsTame

namespace Store

variable {s s' t : Store σ} {c : Config σ} {inst : Instance σ}

theorem IsTame.of_keeps (h : s.IsTame) (hs : s.Keeps Memory.Becomes s') :
    s'.IsTame ∧ s.Advances s' :=
  ⟨⟨hs.obeys h.obeys, hs.advances.isBounded hs.size h.isBounded⟩, hs.advances⟩

theorem IsTame.acquireAll (h : s.IsTame) (holds : List Hold) :
    (s.acquireAll holds).2.IsTame ∧ s.Advances (s.acquireAll holds).2 := by
  have hsize : (s.acquireAll holds).2.instances.size = s.instances.size := by
    rw [← size_cores, cores_acquireAll, size_cores]
  have hadvances := s.advances_acquireAll holds
  exact ⟨⟨h.obeys.acquireAll holds, hadvances.isBounded hsize h.isBounded⟩, hadvances⟩

/-- A new instance can call what it is given. -/
theorem Obeys.push {T : Memory → Memory → Prop} {bytes : ByteArray} {m : LoadedModule}
    {imports : Imports σ} {limits : Limits} (h : s.Obeys T)
    (hm : Module.compile bytes = .ok m.module)
    (himports : ∀ ref binding, imports.get? ref = some binding → binding.Obeys T)
    (hinst : Instance.allocate m imports limits = .ok inst) :
    { s with instances := s.instances.push inst }.Obeys T := by
  intro i inst' func type ref binding hi hf
  obtain ⟨-, rfl⟩ | hi := of_getElem?_push hi
  · obtain ⟨ref', hget⟩ := Instance.exists_of_allocate hm hinst hf
    exact himports ref' binding hget
  · exact h i inst' func type ref binding hi hf

theorem Obeys.pop {T : Memory → Memory → Prop} (h : s.Obeys T) :
    { s with instances := s.instances.pop }.Obeys T :=
  fun i inst func type ref binding hi => h i inst func type ref binding (of_getElem?_pop hi)

theorem IsTame.push {bytes : ByteArray} {m : LoadedModule} {imports : Imports σ} {limits : Limits}
    (h : s.IsTame) (hm : Module.compile bytes = .ok m.module)
    (himports : imports.IsLawful) (hinst : Instance.allocate m imports limits = .ok inst) :
    { s with instances := s.instances.push inst }.IsTame := by
  refine ⟨h.obeys.push hm himports hinst, fun i inst' hi => ?_⟩
  obtain ⟨-, rfl⟩ | hi := of_getElem?_push hi
  · exact Instance.isBounded_of_allocate hm hinst
  · exact h.isBounded i inst' hi

theorem advances_push (s : Store σ) (inst : Instance σ) :
    s.Advances { s with instances := s.instances.push inst } := by
  intro id inst' hinst'
  have hlt : id < s.instances.size := (Array.getElem?_eq_some_iff.1 hinst').1
  refine ⟨inst', ?_, .of_memory_eq rfl rfl rfl⟩
  rw [Array.getElem?_push, if_neg (Nat.ne_of_lt hlt)]
  exact hinst'

theorem IsTame.pop (h : s.IsTame) : { s with instances := s.instances.pop }.IsTame :=
  ⟨h.obeys.pop, fun i inst hi => h.isBounded i inst (of_getElem?_pop hi)⟩

/-- Instances that were there before a new one stay when that is taken back. -/
theorem Advances.pop (h : { s with instances := s.instances.push inst }.Advances t)
    (hsize : t.instances.size = s.instances.size + 1) :
    s.Advances { t with instances := t.instances.pop } := by
  intro id inst₁ hinst₁
  have hlt : id < s.instances.size := (Array.getElem?_eq_some_iff.1 hinst₁).1
  obtain ⟨inst₂, hinst₂, hone⟩ := s.advances_push inst id inst₁ hinst₁
  obtain ⟨inst₃, hinst₃, htwo⟩ := h id inst₂ hinst₂
  have hlt' : id < t.instances.size - 1 := by
    rw [hsize]
    exact hlt
  refine ⟨inst₃, ?_, hone.trans htwo⟩
  rw [Array.getElem?_pop, if_pos hlt']
  exact hinst₃

/-- A start function begins within bounds. -/
theorem startConfig_isTame (h : { s with instances := s.instances.push inst }.IsTame) (func : Nat) :
    (s.startConfig inst func).IsTame ∧
      { s with instances := s.instances.push inst }.Advances (s.startConfig inst func).store ∧
      (s.startConfig inst func).store.instances.size = s.instances.size + 1 := by
  have hkeeps : { s with instances := s.instances.push inst }.Keeps Memory.Becomes
      (s.startConfig inst func).store :=
    keeps_callFunction Memory.isWorkOrder_becomes h.obeys ..
  obtain ⟨hstore, hadvances⟩ := h.of_keeps hkeeps
  exact ⟨⟨⟨hstore.obeys, h.obeys.bindsOnly.startConfig func⟩, hstore.isBounded⟩, hadvances,
    hkeeps.size.trans (Array.size_push _)⟩

/-- **Runs start within bounds.** -/
theorem LawfulStart.isTame (h : s.LawfulStart c) (hs : s.IsTame) : c.IsTame ∧ s.Advances c.store := by
  cases h with
  | @call id callee args holds hholds =>
    obtain ⟨hacquire, hadvances⟩ := hs.acquireAll holds
    obtain ⟨hstore, hadvances'⟩ := hacquire.of_keeps (keeps_invocation
      Memory.isWorkOrder_becomes hacquire.obeys callee args 0)
    exact ⟨⟨⟨hstore.obeys, hs.obeys.bindsOnly.callConfig id callee args holds⟩, hstore.isBounded⟩,
      hadvances.trans hadvances'⟩
  | standalone hf args =>
    exact ⟨⟨⟨hs.obeys, hs.obeys.bindsOnly, hf _ _, List.forall_mem_nil _⟩, hs.isBounded⟩, .refl s⟩
  | @start _ _ _ _ inst func hm himports hinst hfunc =>
    obtain ⟨hconfig, hadvances, -⟩ := startConfig_isTame (hs.push hm himports hinst) func
    exact ⟨hconfig, (s.advances_push inst).trans hadvances⟩

/-- **What an embedder does leaves memories within bounds.** -/
theorem LawfulOperation.isTame (h : s.LawfulOperation t) (hs : s.IsTame) :
    t.IsTame ∧ s.Advances t := by
  have hrun {c : Config σ} (hc : s.LawfulStart c) (n : Nat) :
      (Config.run n c).store.IsTame ∧ s.Advances (Config.run n c).store := by
    obtain ⟨htame, hadvances⟩ := hc.isTame hs
    exact ⟨(htame.run n).1.store, hadvances.trans (htame.run n).2⟩
  cases h with
  | load m => exact ⟨⟨hs.obeys, hs.isBounded⟩, .refl s⟩
  | setHost host => exact ⟨⟨hs.obeys, hs.isBounded⟩, .refl s⟩
  | setFuel id fuel => exact hs.of_keeps (keeps_modifyInstance fun _ => rfl)
  | updateMemory id hop => exact hs.of_keeps (keeps_updateMemory? hop)
  | @call id callee args holds budget result t h =>
    cases hholds : (s.acquireAll holds).1 with
    | ok u =>
      obtain ⟨outcome, -, rfl, -⟩ := of_call hholds h
      exact hrun (.call hholds) budget
    | error e =>
      have heq : s.acquireAll holds = (.error e, (s.acquireAll holds).2) := Prod.ext hholds rfl
      rw [Store.call, heq] at h
      cases h
      exact hs.acquireAll holds
  | @callStandalone f args budget result t hf h =>
    unfold Store.callStandalone at h
    split at h
    · obtain ⟨⟨outcome, s₂⟩, hcomplete, hr⟩ := Option.map_eq_some_iff.1 h
      obtain ⟨-, rfl⟩ := exists_of_complete hcomplete
      cases hr
      exact hrun (.standalone hf args) budget
    · cases h
      exact ⟨hs, .refl s⟩
  | @instantiate bytes m imports limits budget result t hm himports h =>
    cases halloc : Instance.allocate m imports limits with
    | error e =>
      simp only [Store.instantiate, halloc] at h
      cases h
      exact ⟨hs, .refl s⟩
    | ok inst =>
      cases hfunc : m.module.start with
      | none =>
        simp only [Store.instantiate, halloc, hfunc] at h
        cases h
        exact ⟨hs.push hm himports halloc, s.advances_push inst⟩
      | some func =>
        have hstart : s.LawfulStart (s.startConfig inst func) := .start hm himports halloc hfunc
        obtain ⟨outcome, -, ⟨-, -, -, rfl⟩ | ⟨-, -, -, rfl⟩⟩ := of_instantiate halloc hfunc h
        · exact hrun hstart budget
        · -- The new instance is taken back.
          obtain ⟨htame, hadvances, hsize⟩ :=
            startConfig_isTame (hs.push hm himports halloc) func
          obtain ⟨htame', hadvances'⟩ := htame.run budget
          refine ⟨htame'.store.pop, (hadvances.trans hadvances').pop ?_⟩
          rw [Config.size_run, hsize]

/-- The stores that an embedder gets to keep memories within bounds. -/
theorem IsLawful.isTame (h : s.IsLawful) : s.IsTame := by
  induction h with
  | empty host => exact ⟨fun _ _ _ _ _ _ h => by simp at h, fun _ _ h => by simp at h⟩
  | step _ hop ih => exact (hop.isTame ih).1

theorem IsPassed.isTame (h : s.IsPassed) : s.IsTame := by
  cases h with
  | between h => exact h.isTame
  | during h hc n => exact ((hc.isTame h.isTame).1.run n).1.store

/-- **`memory.grow`** yields what growth yields, or its sentinel, and leaves what growth leaves. -/
theorem access_memoryGrow {id : InstanceId} {m : Memory} (hinst : s.instances[id]? = some inst)
    (hmemory : inst.memory = some m) (hloan : inst.loan = .shared 0) (delta : Slot)
    (rest : List Slot) :
    s.access id .memoryGrow (delta :: rest) =
      (.ok ((((m.grow delta.toUInt32.toNat).1.map Nat.toUInt64).getD growthFailed) :: rest),
        s.modifyInstance id fun inst =>
          { inst with memory := some (m.grow delta.toUInt32.toNat).2 }) := by
  simp only [access, changeMemory, updateMemory?, modifyInstance, withInstance_eq, hinst, hmemory,
    hloan, if_true]
  rfl

/-- The memories of a store are still there in another one, with as many pages or more. -/
def OnlyGrows (s t : Store σ) : Prop :=
  ∀ (id : InstanceId) (inst : Instance σ) (m : Memory), s.instances[id]? = some inst →
    inst.memory = some m → ∃ inst' m', t.instances[id]? = some inst' ∧ inst'.memory = some m' ∧
      m.pages ≤ m'.pages

theorem Advances.onlyGrows (h : s.Advances t) : s.OnlyGrows t := by
  intro id inst m hinst hm
  obtain ⟨inst', hinst', hadvances⟩ := h id inst hinst
  have hmemory := hadvances.memory
  rw [hm] at hmemory
  cases hm' : inst'.memory with
  | none =>
    rw [hm'] at hmemory
    cases hmemory
  | some m' =>
    rw [hm'] at hmemory
    obtain ⟨hbecomes⟩ := hmemory
    exact ⟨inst', m', hinst', hm', hbecomes.pages_le⟩

/-- **Memory stays within its declared and configured bounds and only grows**, if host functions,
hooks and the embedder work on it by its operations.  In every store that is passed, between operations
or in the middle of a run, a memory has whole pages, at least the declared minimum and at most the
declared maximum and the configured limit.  It grows whenever these allow it: growth yields the old number
of pages, keeps the old bytes and adds zeros; otherwise it yields nothing, or the sentinel of the
instruction, and changes nothing.  No step of a run and no operation takes pages away.  The allocator is
among the hooks that work on memory by its operations. -/
theorem memory_within_bounds :
    (∀ (s : Store σ) (id : InstanceId) (inst : Instance σ) (m : Memory), s.IsPassed →
      s.instances[id]? = some inst → inst.memory = some m → ∃ e : Extent,
        inst.module.memory = some e ∧ m.size = m.pages * Memory.pageSize ∧ e.min ≤ m.pages ∧
        m.pages ≤ min (e.max.getD Memory.maxPages) inst.limits.maxMemoryPages ∧
        (∀ delta, m.pages + delta ≤ min (e.max.getD Memory.maxPages) inst.limits.maxMemoryPages →
          ∃ m', m.grow delta = (some m.pages, m') ∧ m.GrowsTo delta m') ∧
        (∀ delta, min (e.max.getD Memory.maxPages) inst.limits.maxMemoryPages < m.pages + delta →
          m.grow delta = (none, m)) ∧
        (inst.loan = .shared 0 → ∀ (delta : Slot) rest,
          s.access id .memoryGrow (delta :: rest) =
            (.ok ((((m.grow delta.toUInt32.toNat).1.map Nat.toUInt64).getD growthFailed) :: rest),
              s.modifyInstance id fun inst =>
                { inst with memory := some (m.grow delta.toUInt32.toNat).2 }))) ∧
    (∀ (s : Store σ) (c : Config σ), s.IsLawful → s.LawfulStart c → s.OnlyGrows c.store ∧
      ∀ n, (Config.run n c).store.OnlyGrows (Config.run (n + 1) c).store) ∧
    (∀ s t : Store σ, s.IsLawful → s.LawfulOperation t → s.OnlyGrows t) ∧
    ∀ id get set, ImportBinding.Obeys Memory.Becomes (.hook (Heap.hook id get set) : ImportBinding σ) := by
  refine ⟨fun s id inst m hs hinst hm => ?_, fun s c hs hc => ?_, fun s t hs hop => ?_,
    Heap.hook_obeys⟩
  · obtain ⟨e, he, hpaged, hmin, hle, hmaximum⟩ := hs.isTame.isBounded id inst hinst m hm
    refine ⟨e, he, hpaged.size, hmin, hmaximum ▸ hle, fun delta hfits => ?_, fun delta hfull => ?_,
      fun hloan delta rest => access_memoryGrow hinst hm hloan delta rest⟩
    · rw [← hmaximum] at hfits
      exact (Memory.grow_eq hle delta).1 hfits
    · rw [← hmaximum] at hfull
      exact (Memory.grow_eq hle delta).2 hfull
  · obtain ⟨htame, hadvances⟩ := hc.isTame hs.isTame
    refine ⟨hadvances.onlyGrows, fun n => ?_⟩
    rw [Config.run_succ]
    exact (htame.run n).1.advances_step.onlyGrows
  · exact (hop.isTame hs.isTame).2.onlyGrows

/-! ## A sample -/

/-- A lawful store with an instance of the populated module, whose memory has one page. -/
theorem exists_isLawful_populated : ∃ (s : Store Unit) (inst : Instance Unit) (m : Memory),
    s.IsLawful ∧ s.instances[0]? = some inst ∧ inst.memory = some m ∧
      inst.module = .compiledPopulated ∧ inst.limits = {} ∧ m.pages = 1 := by
  have hcompile := Module.compile_populatedBytes
  obtain ⟨hgrounded, table, hst⟩ := Module.grounded_of_compile hcompile
  obtain ⟨c, hc⟩ := hgrounded.exists_constants
  obtain ⟨inst, halloc, hinitial⟩ : ∃ inst, Instance.allocate ⟨0, .compiledPopulated⟩
      Module.populatedImports {} = .ok inst ∧
      Module.IsInitial ⟨0, .compiledPopulated⟩ c Module.populatedImports {} inst :=
    Instance.exists_allocate hst hgrounded hc (Module.links_populated hc)
  have hlawful : Module.populatedImports.IsLawful := by
    intro ref binding hget
    obtain ⟨entry, hfind, rfl⟩ := Option.map_eq_some_iff.1 hget
    obtain rfl := List.mem_singleton.1 (List.mem_of_find?_eq_some hfind)
    exact fun _ _ => trivial
  have hsome : inst.memory.isSome := hinitial.memory_isSome
  obtain ⟨m, hm⟩ := Option.isSome_iff_exists.1 hsome
  have hrun : { host := (), moduleCount := 1 : Store Unit }.instantiate ⟨0, .compiledPopulated⟩
      Module.populatedImports {} 0 =
        some (.ok 0, { host := (), moduleCount := 1, instances := #[inst] }) := by
    rw [instantiate, halloc]
    rfl
  refine ⟨_, inst, m, .step (.step (.empty ()) (.load .compiledPopulated))
    (.instantiate hcompile hlawful hrun), rfl, hm, hinitial.module_eq.2,
    hinitial.limits.1, ?_⟩
  exact (hinitial.memory _ rfl m hm).1

/-- A memory of one page grows by two, and not by 65536; a call and an operation only let it grow. -/
theorem memory_within_bounds_sample : ∃ (s t : Store Unit) (inst : Instance Unit) (m m' : Memory),
    s.instances[0]? = some inst ∧ inst.memory = some m ∧ m.grow 2 = (some 1, m') ∧
      m.GrowsTo 2 m' ∧ m.grow 65536 = (none, m) ∧ t = (s.updateMemory? 0 (growMemory 2)).2 ∧
      s.OnlyGrows (s.callConfig 0 (.export "f") [] []).store ∧ s.OnlyGrows t := by
  obtain ⟨s, inst, m, hs, hinst, hm, hmodule, hlimits, hpages⟩ := exists_isLawful_populated
  obtain ⟨hbounds, hruns, hoperations, -⟩ := memory_within_bounds (σ := Unit)
  obtain ⟨e, he, -, -, -, hgrows, hfull, -⟩ := hbounds s 0 inst m (.between hs) hinst hm
  rw [hmodule] at he
  obtain rfl := Option.some.inj he
  rw [hlimits, hpages] at hgrows hfull
  obtain ⟨m', hgrow, hgrowsTo⟩ := hgrows 2 (by decide)
  exact ⟨s, _, inst, m, m', hinst, hm, hgrow, hgrowsTo, hfull 65536 (by decide), rfl,
    (hruns s _ hs (.call rfl)).1,
    hoperations s _ hs (.updateMemory 0 (obeys_growMemory Memory.isWorkOrder_becomes 2))⟩

end Store

end WasmEngine
