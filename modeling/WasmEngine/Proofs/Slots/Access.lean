import WasmEngine.Proofs.Safety.Access
import WasmEngine.Proofs.Slots.Frame

/-!
# Proofs/Slots/Access — what comes from globals and memory fits

A read of a global yields what the global holds, which fits as long as all globals do
(`Store.GlobalsFit`); a load yields a number of its width; and the number of pages is a 32-bit number
as long as memories are counted in 32 bits (`Store.IsSized`).  Accesses take and leave operands of
their types: `Store.access_fits`.
-/

namespace WasmEngine

variable {σ α : Type}

/-- A memory whose pages are counted in 32 bits. -/
structure Memory.IsSized (m : Memory) : Prop where
  pages_lt : m.pages < 2 ^ 32
  maximum_lt : m.maximum < 2 ^ 32

/-- The globals of an instance fit their declared types. -/
def Instance.GlobalsFit (inst : Instance σ) : Prop :=
  FitAll inst.globals.toList (known (inst.module.globals.toList.map (·.type)))

namespace Store

/-- All memories of a store are counted in 32 bits. -/
def IsSized (s : Store σ) : Prop :=
  ∀ (id : InstanceId) (inst : Instance σ) (m : Memory), s.instances[id]? = some inst →
    inst.memory = some m → m.IsSized

/-- All globals of a store fit their declared types. -/
def GlobalsFit (s : Store σ) : Prop :=
  ∀ (id : InstanceId) (inst : Instance σ), s.instances[id]? = some inst → inst.GlobalsFit

variable {s : Store σ} {id : InstanceId} {sh : Shape σ}

/-- A global that is read fits its type. -/
theorem fits_of_getGlobal {index : Nat} {g : Global} {v : Slot} (hfit : s.GlobalsFit)
    (hs : s.shapes[id]? = some sh) (hg : sh.module.globals[index]? = some g)
    (h : s.getGlobal id index = .ok v) : v.Fits (some g.type) := by
  obtain ⟨inst, hinst, rfl⟩ := exists_of_shapes hs
  have hg : inst.module.globals[index]? = some g := hg
  obtain ⟨v', hv', hfits⟩ := (hfit id inst hinst).exists_getElem? (i := index) (x := some g.type)
    (by simp [hg])
  rw [Array.getElem?_toList] at hv'
  simp only [getGlobal, hinst, Option.bind_some, hv'] at h
  cases h
  exact hfits

/-- What is read from memory comes from the memory of the instance. -/
theorem exists_of_readMemory {f : Memory → Except Error α} {a : α}
    (h : s.readMemory id f = .ok a) :
    ∃ inst m, s.instances[id]? = some inst ∧ inst.memory = some m ∧ f m = .ok a := by
  cases hinst : s.instances[id]? with
  | none => simp [readMemory, viewMemory?, hinst] at h
  | some inst =>
    cases hm : inst.memory with
    | none => simp [readMemory, viewMemory?, hinst, hm] at h
    | some m =>
      rw [readMemory, viewMemory?_eq hinst hm] at h
      cases hl : inst.loan with
      | shared n =>
        rw [hl] at h
        exact ⟨inst, m, rfl, hm, h⟩
      | exclusive =>
        rw [hl] at h
        cases h

/-- What a change of memory yields comes from the memory of the instance. -/
theorem exists_of_changeMemory {op : Memory.Update α} {a : α}
    (h : (s.changeMemory id op).1 = .ok a) :
    ∃ inst m m', s.instances[id]? = some inst ∧ inst.memory = some m ∧ op m = .ok a m' := by
  cases hinst : s.instances[id]? with
  | none => simp [changeMemory, updateMemory?, withInstance_eq, hinst] at h
  | some inst =>
    cases hm : inst.memory with
    | none => simp [changeMemory, updateMemory?, withInstance_eq, hinst, hm] at h
    | some m =>
      have hfst := updateMemory?_fst (u := op) hinst hm
      unfold changeMemory at h
      split at h
      · next heq =>
        rw [heq] at hfst
        obtain rfl := Option.some.inj hfst
        simp only at h
        split at h
        · split at h
          · next hrun =>
            cases h
            exact ⟨inst, m, _, rfl, hm, hrun⟩
          · cases h
        · cases h
      · next heq =>
        rw [heq] at hfst
        cases hfst

/-- A number of pages is a 32-bit number. -/
theorem fits_pages {m : Memory} (h : m.IsSized) (x : OperandType) :
    Slot.Fits m.pages.toUInt64 x := by
  refine Slot.fits_of_lt ?_ x
  rw [Nat.toUInt64, UInt64.toNat_ofNat', Nat.mod_eq_of_lt (Nat.lt_trans h.pages_lt (by decide))]
  exact h.pages_lt

theorem fits_of_growMemory {m m' : Memory} {delta v : Slot} (hm : m.IsSized)
    (h : growMemory delta m = .ok v m') (x : OperandType) : v.Fits x := by
  have hgrow : (m.grow delta.toUInt32.toNat).1 = some m.pages ∨
      (m.grow delta.toUInt32.toNat).1 = none := by
    unfold Memory.grow
    split
    · exact .inl rfl
    · split
      · exact .inr rfl
      · exact .inl rfl
  obtain rfl : ((m.grow delta.toUInt32.toNat).1.map Nat.toUInt64).getD growthFailed = v :=
    (EStateM.Result.ok.inj h).1
  obtain hsome | hnone := hgrow
  · rw [hsome]
    exact fits_pages hm x
  · rw [hnone]
    exact Slot.fits_of_lt (by decide) x

/-- What an access may leave: operands of types `qs` above the others. -/
def Leaves (qs : List OperandType) (rest : List Slot) (outcome : Except Error (List Slot)) : Prop :=
  ∀ operands, outcome = .ok operands → ∃ vs : List Slot, operands = vs ++ rest ∧ FitAll vs.reverse qs

theorem leaves_map {qs : List OperandType} {rest : List Slot} {outcome : Except Error α}
    {g : α → List Slot} (hg : ∀ a, outcome = .ok a → FitAll (g a).reverse qs) :
    Leaves qs rest (outcome.map fun a => g a ++ rest) := by
  intro operands h
  cases outcome with
  | error e => cases h
  | ok a =>
    cases h
    exact ⟨g a, rfl, hg a rfl⟩

/-- **An access takes and leaves operands of its types.** -/
theorem access_fits {f : Function} {types : LabelTypes} {j : Instr Empty}
    {ps qs : List OperandType} {args rest : List Slot} (hsized : s.IsSized) (hfit : s.GlobalsFit)
    (hs : s.shapes[id]? = some sh) (hj : j.NeedsStore) (hcall : ∀ func, j ≠ .call func)
    (hcall' : ∀ type table, j ≠ .callIndirect type table) (hstandard : j.LoadsStandard)
    (ha : HasArrow ⟨sh.module, f⟩ types j ps qs) (hargs : FitAll args.reverse ps) :
    Leaves qs rest (s.access id j.embed (args ++ rest)).1 := by
  open CodeContext in
  cases ha with
  | call => exact absurd rfl (hcall _)
  | callIndirect => exact absurd rfl (hcall' _ _)
  | globalGet hg =>
    obtain rfl := eq_nil_of_fitAll hargs
    exact leaves_map (g := fun v => [v]) fun v hv => .cons (fits_of_getGlobal hfit hs hg hv) .nil
  | globalSet hg hm =>
    obtain ⟨v, rfl, hv⟩ := exists_eq_singleton hargs
    exact leaves_map (g := fun _ => []) fun _ _ => .nil
  | @load op arg hm _ =>
    obtain ⟨ptr, rfl, -⟩ := exists_eq_singleton hargs
    refine leaves_map (g := fun n => [op.extend n]) fun n hn => .cons ?_ .nil
    obtain ⟨inst, m, -, -, hload⟩ := exists_of_readMemory hn
    exact LoadOp.fits_extend hstandard hload
  | store hm _ =>
    obtain ⟨v, args, rfl, -, hargs⟩ := exists_top [_] hargs
    obtain ⟨ptr, rfl, -⟩ := exists_eq_singleton hargs
    exact leaves_map (g := fun _ => []) fun _ _ => .nil
  | memorySize hm =>
    obtain rfl := eq_nil_of_fitAll hargs
    refine leaves_map (g := fun v => [v]) fun v hv => .cons ?_ .nil
    obtain ⟨inst, m, hinst, hmemory, hpages⟩ := exists_of_readMemory hv
    cases hpages
    exact fits_pages (hsized id inst m hinst hmemory) _
  | memoryGrow hm =>
    obtain ⟨delta, rfl, -⟩ := exists_eq_singleton hargs
    refine leaves_map (g := fun v => [v]) fun v hv => .cons ?_ .nil
    obtain ⟨inst, m, m', hinst, hmemory, hgrow⟩ := exists_of_changeMemory hv
    exact fits_of_growMemory (hsized id inst m hinst hmemory) hgrow _
  | memoryCopy hm =>
    obtain ⟨len, args, rfl, -, hargs⟩ := exists_top [_, _] hargs
    obtain ⟨src, args, rfl, -, hargs⟩ := exists_top [_] hargs
    obtain ⟨dst, rfl, -⟩ := exists_eq_singleton hargs
    exact leaves_map (g := fun _ => []) fun _ _ => .nil
  | memoryFill hm =>
    obtain ⟨len, args, rfl, -, hargs⟩ := exists_top [_, _] hargs
    obtain ⟨value, args, rfl, -, hargs⟩ := exists_top [_] hargs
    obtain ⟨dst, rfl, -⟩ := exists_eq_singleton hargs
    exact leaves_map (g := fun _ => []) fun _ _ => .nil
  | _ => exact hj.elim

end Store

end WasmEngine
