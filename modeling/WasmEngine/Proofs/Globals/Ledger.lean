import WasmEngine.Proofs.Globals.Writes
import WasmEngine.Proofs.Memory.Bounds
import WasmEngine.Proofs.Slots.Step

/-!
# Proofs/Globals/Ledger — globals hold what has been written to them

`Store.Accounts` compares a store with all the writes that led to it: code writes only to globals
that are declared mutable, and only values that fit, so that every global holds the last of these
values, or what its initialiser told.  What fits at the beginning fits then, which is what the
invariant of configurations takes as given (`Config.IsFit.step`); a step therefore keeps both
(`Config.IsKept.step`).
-/

namespace WasmEngine

variable {σ α : Type} {S : Outline σ} {loaded : List LoadedModule}

/-! ## Memories that are counted in 32 bits -/

namespace Memory

/-- A memory that is counted in 32 bits stays so. -/
def StaysSized (m m' : Memory) : Prop := m.IsSized → m'.IsSized

theorem IsSized.grow {m : Memory} (h : m.IsSized) (delta : Nat) : (m.grow delta).2.IsSized where
  pages_lt := by
    cases hold : (m.grow delta).1 with
    | none => exact (congrArg pages (grow_of_none hold)).symm ▸ h.pages_lt
    | some old =>
      rw [(pages_grow_of_some hold).2]
      obtain rfl | hdelta := Nat.eq_zero_or_pos delta
      · exact h.pages_lt
      · exact Nat.lt_of_le_of_lt (le_maximum_of_grow hold hdelta) h.maximum_lt
  maximum_lt := (maximum_grow m delta).symm ▸ h.maximum_lt

theorem Becomes.staysSized {m m' : Memory} (h : m.Becomes m') : m.StaysSized m' := by
  intro hm
  induction h with
  | refl => exact hm
  | @write m' op hop _ ih =>
    obtain ⟨-, hpages, hmaximum⟩ := hop.sameExtent m'
    exact ⟨hpages ▸ ih.pages_lt, hmaximum ▸ ih.maximum_lt⟩
  | grow delta _ ih => exact ih.grow delta

theorem isWorkOrder_staysSized : IsWorkOrder StaysSized :=
  ⟨Becomes.staysSized, fun h h' hm => h' (h hm)⟩

theorem IsWithin.isSized {m : Memory} {e : Extent} {limits : Limits} (h : m.IsWithin e limits) :
    m.IsSized :=
  have hmaximum : m.maximum < 2 ^ 32 := Nat.lt_of_le_of_lt h.isPaged.maximum (by decide)
  ⟨Nat.lt_of_le_of_lt h.le_maximum hmaximum, hmaximum⟩

end Memory

namespace Store

variable {s s' : Store σ}

theorem Keeps.isSized (h : s.Keeps Memory.StaysSized s') (hsized : s.IsSized) : s'.IsSized := by
  intro id inst' m' hinst' hm'
  obtain ⟨inst, hinst, hkeeps⟩ := h.exists_of_some hinst'
  obtain heq | ⟨-, m, m₁, hm, hm₁, hstays⟩ := hkeeps.memory
  · exact hsized id inst m' hinst (heq ▸ hm')
  · obtain rfl := Option.some.inj (hm'.symm.trans hm₁)
    exact hstays (hsized id inst m hinst hm)

theorem IsSized.acquireAll (h : s.IsSized) (holds : List Hold) : (s.acquireAll holds).2.IsSized :=
  h.of_map (congrArg Prod.fst (view_acquireAll (fun _ _ => rfl) holds))

theorem IsSized.releaseAll (h : s.IsSized) (holds : List Hold) : (s.releaseAll holds).IsSized :=
  h.of_map (congrArg Prod.fst (view_releaseAll (fun _ _ => rfl) holds))

theorem Passage.isSized {held held' : List Hold} (h : s.Passage Memory.StaysSized held s' held')
    (hsized : s.IsSized) : s'.IsSized := by
  cases h with
  | work h => exact h.isSized hsized
  | borrow hok h => exact h.isSized (hsized.acquireAll _)
  | conflict herror => exact hsized.acquireAll _
  | giveBack hheld h => exact (h.isSized hsized).releaseAll _

end Store

/-! ## Writes by typed code -/

/-- A write that the declarations allow: to a mutable global, of a value that fits. -/
def GlobalWrite.IsDeclared (w : GlobalWrite) (S : Outline σ) : Prop :=
  ∃ (sh : Shape σ) (g : Global), S.shapes[w.inst]? = some sh ∧
    sh.module.globals[w.index]? = some g ∧ g.isMutable = true ∧ w.value.Fits (some g.type)

/-- A write of the instruction that code meets comes from its typing rule. -/
theorem CodeContext.Meets.of_globalSet {c : CodeContext} {table : SideTable} {labels : List Label}
    {types : LabelTypes} {pc index next : Nat} {v : Slot} {rest : List Slot}
    (h : c.Meets table labels types pc (v :: rest) (.globalSet index) next) :
    ∃ g : Global, c.module.globals[index]? = some g ∧ g.isMutable = true ∧ v.Fits (some g.type) := by
  generalize hi : Instr.globalSet index = i at h
  generalize hoperands : v :: rest = operands at h
  cases h with
  | plain ha hops hargs =>
    cases ha with
    | @globalSet index' g hg hm =>
      obtain rfl : index = index' := Instr.globalSet.inj hi
      obtain ⟨u, rfl, hu⟩ := exists_eq_singleton hargs
      obtain rfl : v = u := (List.cons.inj (hoperands.trans hops)).1
      exact ⟨g, hg, hm, hu⟩
    | _ => cases hi
  | _ => cases hi

/-- **Typed code writes what the declarations allow.** -/
theorem Config.IsFit.isDeclared {c : Config σ} {ts : List ValType} (h : c.IsFit S ts)
    {w : GlobalWrite} (hw : c.globalWrite? = some w) : w.IsDeclared S := by
  obtain ⟨s, control, pending⟩ := c
  cases control with
  | host | done => cases hw
  | run r =>
    obtain ⟨hS, ks, ⟨sh, hs, g, hrun, -⟩, -⟩ := h
    obtain ⟨types, hgoes⟩ := (hrun [] .nil).goesOn
    obtain ⟨i, next, hfetch, hmeets⟩ := hgoes.meets
    obtain ⟨inst, hinst, rfl⟩ := Store.exists_of_shapes (hS ▸ hs)
    have hfetch' : s.fetch? r.inst r.frame.pc = some (i, next) := by
      rw [Store.fetch?, hinst]
      exact hfetch
    replace hw : s.globalWrite? r = some w := hw
    unfold Store.globalWrite? at hw
    split at hw
    · cases hw
    · rw [hfetch'] at hw
      replace hw : GlobalWrite.of? r.inst i r.frame.operands = some w := hw
      replace hmeets : CodeContext.Meets ⟨inst.module, g⟩ inst.sideTable r.frame.labels types
        r.frame.pc r.frame.operands i next := hmeets
      generalize r.frame.operands = operands at hw hmeets
      unfold GlobalWrite.of? at hw
      split at hw
      · cases hw
        obtain ⟨global, hglobal, hmutable, hv⟩ := hmeets.of_globalSet
        exact ⟨_, global, hs, hglobal, hmutable, hv⟩
      · cases hw

/-! ## The ledger -/

/-- What the globals of an instance are after some writes: the last value of each, or else the value
of its initialiser. -/
structure Instance.HoldsLast (inst : Instance σ) (id : InstanceId) (c : Module.Constants)
    (log : List GlobalWrite) : Prop where
  constants : c.AreOf inst.module
  notImported : ∀ g ∈ inst.module.globals, g.imported = none
  globals : ∀ index, inst.globals[index]? = inst.module.globals[index]?.map fun _ =>
    (GlobalWrite.lastTo log id index).getD (ConstExpr.valueAt c.globals index).toSlot

theorem Instance.HoldsLast.size_eq {inst : Instance σ} {id : InstanceId} {c : Module.Constants}
    {log : List GlobalWrite} (h : inst.HoldsLast id c log) :
    inst.globals.size = inst.module.globals.size := by
  have hiff (i : Nat) : inst.globals.size ≤ i ↔ inst.module.globals.size ≤ i := by
    rw [← Array.getElem?_eq_none_iff, h.globals, Option.map_eq_none_iff, Array.getElem?_eq_none_iff]
  exact Nat.le_antisymm ((hiff _).2 (Nat.le_refl _)) ((hiff _).1 (Nat.le_refl _))

/-- **The invariant of a store and the writes that led to it.** -/
structure Store.Accounts (s : Store σ) (log : List GlobalWrite) : Prop where
  declared : ∀ w ∈ log, w.IsDeclared s.outline
  globals : ∀ (id : InstanceId) (inst : Instance σ), s.instances[id]? = some inst →
    ∃ c, inst.HoldsLast id c log

namespace Store

variable {s s' : Store σ} {id : InstanceId} {inst : Instance σ} {log new : List GlobalWrite}
  {c : Module.Constants} {index : Nat} {g : Global}

theorem getElem?_globals (h : s.instances[id]? = some inst) (index : Nat) :
    s.globals[id]?.bind (·[index]?) = inst.globals[index]? := by
  rw [globals, Array.getElem?_map, h]
  rfl

theorem Accounts.inst_lt (h : s.Accounts log) {w : GlobalWrite} (hw : w ∈ log) :
    w.inst < s.instances.size := by
  obtain ⟨sh, g, hs, -⟩ := h.declared w hw
  obtain ⟨inst, hinst, -⟩ := exists_of_shapes hs
  exact (Array.getElem?_eq_some_iff.1 hinst).1

/-- What was last written to a global was declared by its instance. -/
theorem Accounts.of_lastTo (h : s.Accounts log) (hinst : s.instances[id]? = some inst)
    (hg : inst.module.globals[index]? = some g) {v : Slot}
    (hv : GlobalWrite.lastTo log id index = some v) :
    g.isMutable = true ∧ v.Fits (some g.type) := by
  obtain ⟨w, hw, rfl, rfl, rfl⟩ := GlobalWrite.mem_of_lastTo hv
  obtain ⟨sh, g', hs, hg', hm, hfits⟩ := h.declared w hw
  obtain ⟨inst', hinst', rfl⟩ := exists_of_shapes hs
  obtain rfl := Option.some.inj (hinst.symm.trans hinst')
  obtain rfl := Option.some.inj (hg.symm.trans hg')
  exact ⟨hm, hfits⟩

/-- **What a global holds fits its type.** -/
theorem Accounts.fits (h : s.Accounts log) (hinst : s.instances[id]? = some inst)
    (hholds : inst.HoldsLast id c log) (hg : inst.module.globals[index]? = some g) :
    Slot.Fits ((GlobalWrite.lastTo log id index).getD (ConstExpr.valueAt c.globals index).toSlot)
      (some g.type) := by
  cases hv : GlobalWrite.lastTo log id index with
  | some v => exact (h.of_lastTo hinst hg hv).2
  | none =>
    rw [← hholds.constants.type_eq hholds.notImported index g hg]
    exact Slot.fits_toSlot _

theorem Accounts.globalsFit (h : s.Accounts log) : s.GlobalsFit := by
  intro id inst hinst
  obtain ⟨c, hholds⟩ := h.globals id inst hinst
  rw [Instance.GlobalsFit, FitAll, known, List.map_map, List.forall₂_map_right_iff,
    List.forall₂_iff_get]
  refine ⟨hholds.size_eq, fun i hi hi' => ?_⟩
  have hg : inst.module.globals[i]? = some inst.module.globals[i] := Array.getElem?_eq_getElem hi'
  have hslot := hholds.globals i
  rw [hg, Array.getElem?_eq_getElem hi, Option.map_some, Option.some.injEq] at hslot
  have hfits := h.fits hinst hholds hg
  rwa [← hslot] at hfits

/-- **Writes are entered.** -/
theorem Accounts.replay (h : s.Accounts log) (houtline : s'.outline = s.outline)
    (hdeclared : ∀ w ∈ new, w.IsDeclared s.outline)
    (hglobals : s'.globals = GlobalWrite.replay new s.globals) : s'.Accounts (log ++ new) where
  declared w hw := houtline ▸ (List.mem_append.1 hw).elim (h.declared w) (hdeclared w)
  globals id inst' hinst' := by
    have hs' : s'.shapes[id]? = some inst'.shape := by
      rw [shapes, Array.getElem?_map, hinst']
      rfl
    obtain ⟨inst, hinst, hshape⟩ := exists_of_shapes
      (show s.shapes[id]? = some inst'.shape from (Outline.mk.inj houtline).1 ▸ hs')
    have hmodule : inst'.module = inst.module := congrArg Shape.module hshape.symm
    obtain ⟨c, hholds⟩ := h.globals id inst hinst
    refine ⟨c, hmodule ▸ hholds.constants, hmodule ▸ hholds.notImported, fun index => ?_⟩
    rw [← getElem?_globals hinst', hglobals, GlobalWrite.getElem?_replay, getElem?_globals hinst,
      hholds.globals, hmodule, Option.map_map, GlobalWrite.lastTo_append]
    congr 1
    funext _
    cases GlobalWrite.lastTo new id index <;> rfl

end Store

/-! ## Steps -/

/-- **The invariant of a configuration** with the writes that led to it. -/
structure Config.IsKept (S : Outline σ) (ts : List ValType) (log : List GlobalWrite)
    (c : Config σ) : Prop where
  fit : c.IsFit S ts
  obeys : c.Obeys Memory.StaysSized
  isSized : c.store.IsSized
  accounts : c.store.Accounts log

namespace Config.IsKept

variable {c : Config σ} {ts : List ValType} {log : List GlobalWrite}

theorem step (h : c.IsKept S ts log) (hsound : S.IsSound loaded) (hallows : c.Allows) :
    c.step.IsKept S ts (log ++ c.globalWrite?.toList) where
  fit := h.fit.step hsound h.isSized h.accounts.globalsFit hallows
  obeys := h.obeys.step Memory.isWorkOrder_staysSized
  isSized := (h.obeys.passage Memory.isWorkOrder_staysSized).isSized h.isSized
  accounts := by
    have hfit := h.fit.step hsound h.isSized h.accounts.globalsFit hallows
    refine h.accounts.replay (hfit.outline_eq.trans h.fit.outline_eq.symm) (fun w hw => ?_)
      (globals_step c)
    rw [h.fit.outline_eq]
    exact h.fit.isDeclared (Option.mem_toList.1 hw)

/-- **A run enters its writes.** -/
theorem run (h : c.IsKept S ts log) (hsound : S.IsSound loaded) (hhonest : c.IsHonest) (n : Nat) :
    (Config.run n c).IsKept S ts (log ++ c.globalWrites n) := by
  induction n with
  | zero => exact (List.append_nil log).symm ▸ h
  | succ n ih =>
    rw [run_succ, globalWrites_succ, ← List.append_assoc]
    exact ih.step hsound (hhonest n)

end Config.IsKept

end WasmEngine
