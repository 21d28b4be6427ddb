import WasmEngine.Instance.Allocate
import WasmEngine.Proofs.Safety.Config

/-!
# Proofs/Safety/Allocate — new instances

`Instance.allocate_sound`: an instance of a compiled module, with imports of at most one result, is
one that the machine can run.  Every step of the allocation is a traversal of one section, and what
matters about it is that it keeps positions, or that what it writes comes from the section.
-/

namespace Except

variable {ε α β : Type}

theorem bind_eq_ok_iff {x : Except ε α} {f : α → Except ε β} {b : β} :
    x >>= f = .ok b ↔ ∃ a, x = .ok a ∧ f a = .ok b := by
  cases x with
  | error e => exact ⟨nofun, nofun⟩
  | ok a => exact ⟨fun h => ⟨a, rfl, h⟩, fun ⟨_, hx, h⟩ => Except.ok.inj hx ▸ h⟩

theorem map_eq_ok_iff {x : Except ε α} {f : α → β} {b : β} :
    f <$> x = .ok b ↔ ∃ a, x = .ok a ∧ f a = b := by
  cases x with
  | error e => exact ⟨nofun, nofun⟩
  | ok a => exact ⟨fun h => ⟨a, rfl, Except.ok.inj h⟩, fun ⟨_, hx, h⟩ => by cases hx; exact h ▸ rfl⟩

/-- A traversal that succeeds relates the elements at each place. -/
theorem forall₂_of_mapM {f : α → Except ε β} {as : List α} {bs : List β}
    (h : as.mapM f = .ok bs) : List.Forall₂ (fun a b => f a = .ok b) as bs := by
  induction as generalizing bs with
  | nil =>
    cases h
    exact .nil
  | cons a as ih =>
    rw [List.mapM_cons] at h
    obtain ⟨b, hb, h⟩ := bind_eq_ok_iff.1 h
    obtain ⟨bs', hbs, h⟩ := bind_eq_ok_iff.1 h
    cases h
    exact .cons hb (ih hbs)

theorem mapM_eq_ok_iff {f : α → Except ε β} {as : List α} {bs : List β} :
    as.mapM f = .ok bs ↔ List.Forall₂ (fun a b => f a = .ok b) as bs := by
  refine ⟨forall₂_of_mapM, fun h => ?_⟩
  induction h with
  | nil => rfl
  | cons hab _ ih =>
    rw [List.mapM_cons]
    exact bind_eq_ok_iff.2 ⟨_, hab, bind_eq_ok_iff.2 ⟨_, ih, rfl⟩⟩

/-- A traversal succeeds exactly if it does everywhere. -/
theorem exists_mapM_iff {f : α → Except ε β} {as : List α} :
    (∃ bs, as.mapM f = .ok bs) ↔ ∀ a ∈ as, ∃ b, f a = .ok b := by
  induction as with
  | nil => exact ⟨fun _ => nofun, fun _ => ⟨[], rfl⟩⟩
  | cons a as ih =>
    rw [List.mapM_cons, List.forall_mem_cons, ← ih]
    simp only [bind_eq_ok_iff]
    constructor
    · rintro ⟨_, b, hb, bs, hbs, -⟩
      exact ⟨⟨b, hb⟩, bs, hbs⟩
    · rintro ⟨⟨b, hb⟩, bs, hbs⟩
      exact ⟨b :: bs, b, hb, bs, hbs, rfl⟩

/-- A traversal that keeps what `g` sees yields nothing else. -/
theorem mem_of_mapM {f : α → Except ε β} {g : β → α} (hf : ∀ a b, f a = .ok b → g b = a)
    {as : List α} {bs : List β} (h : as.mapM f = .ok bs) : ∀ b ∈ bs, g b ∈ as := by
  have hrel := forall₂_of_mapM h
  clear h
  induction hrel with
  | nil => exact nofun
  | cons hab _ ih =>
    exact List.forall_mem_cons.2
      ⟨hf _ _ hab ▸ List.mem_cons_self, fun b hb => List.mem_cons_of_mem _ (ih b hb)⟩

theorem isSome_of_mapM {f : α → Except ε β} {a? : Option α} {b? : Option β}
    (h : a?.mapM f = .ok b?) : b?.isSome = a?.isSome := by
  cases a? with
  | none =>
    cases h
    rfl
  | some a =>
    obtain ⟨b, -, rfl⟩ := map_eq_ok_iff.1 h
    rfl

end Except

namespace WasmEngine

variable {σ : Type}

/-- The imports that an embedder can bind: functions and hooks of at most one result. -/
def Imports.HaveOneResult (t : Imports σ) : Prop :=
  ∀ ref binding, t.get? ref = some binding → binding.signature.results.length ≤ 1

namespace Instance

/-! ## Sections -/

/-- **A function is resolved to something of its type.** -/
theorem implements_of_resolve {m : Module} (hm : m.Sound) {imports : Imports σ}
    (himports : imports.HaveOneResult) {i : Nat} {f : Function} {callee : Callable σ}
    (hf : m.functions[i]? = some f) (h : resolve imports f = .ok callee) :
    callee.Implements f := by
  unfold resolve at h
  split at h
  · next hlocal =>
    cases h
    obtain ⟨declared, hd⟩ := (hm.fits i f hf hlocal).locals_eq
    refine .code hlocal ?_
    rw [hd, List.length_append]
    omega
  · next himported =>
    split at h
    · cases h
    · next binding hget =>
      split at h
      · next heq =>
        cases h
        exact .imported himported (heq ▸ himports _ binding hget)
      · cases h

theorem size_of_pushGlobal {m : Module} {gs : Array Slot} {g : Global} {gs' : Array Slot}
    (h : pushGlobal m gs g = .ok gs') : gs'.size = gs.size + 1 := by
  unfold pushGlobal at h
  split at h
  · cases h
  · obtain ⟨v, -, h⟩ := Except.bind_eq_ok_iff.1 h
    cases h
    exact Array.size_push ..

theorem size_of_pushGlobals {m : Module} {globals : List Global} {gs gs' : Array Slot}
    (h : globals.foldlM (pushGlobal m) gs = .ok gs') : gs'.size = gs.size + globals.length := by
  induction globals generalizing gs with
  | nil =>
    cases h
    rfl
  | cons g globals ih =>
    obtain ⟨gs₁, hg, h⟩ := Except.bind_eq_ok_iff.1 h
    rw [ih h, size_of_pushGlobal hg, List.length_cons]
    omega

/-- Every entry of a table is a function below `n`. -/
def TableBelow (n : Nat) (table : Array (Option Nat)) : Prop :=
  ∀ slot func : Nat, table[slot]? = some (some func) → func < n

theorem TableBelow.setElements {n : Nat} {table : Array (Option Nat)} (h : TableBelow n table)
    {start : Nat} {funcs : List (Option Nat)} (hfuncs : ∀ k, some k ∈ funcs → k < n) :
    TableBelow n (setElements table start funcs) := by
  induction funcs generalizing table start with
  | nil => exact h
  | cons f funcs ih =>
    refine ih (fun slot func hslot => ?_) fun k hk => hfuncs k (List.mem_cons_of_mem _ hk)
    rw [Array.getElem?_setIfInBounds] at hslot
    split at hslot
    · split at hslot
      · exact hfuncs func (Option.some.inj hslot ▸ List.mem_cons_self)
      · cases hslot
    · exact h slot func hslot

theorem tableBelow_of_newTable {limits : Limits} {n : Nat} {e? : Option Extent}
    {table? : Option (Array (Option Nat))} (h : e?.mapM (newTable limits) = .ok table?) :
    TableBelow n (table?.getD #[]) := by
  cases e? with
  | none =>
    cases h
    exact nofun
  | some e =>
    obtain ⟨table, he, rfl⟩ := Except.map_eq_ok_iff.1 h
    unfold newTable at he
    split at he
    · cases he
    · split at he
      · cases he
      · cases he
        intro slot func hslot
        simp [Array.getElem?_replicate] at hslot

/-- **The entries of a new table are functions of the module.** -/
theorem tableBelow_foldl {m : Module} (hm : m.Sound)
    {elements : List (Option Nat × ElementSegment)} (hmem : ∀ e ∈ elements, e.2 ∈ m.elements)
    {table : Array (Option Nat)} (h : TableBelow m.functions.size table) :
    TableBelow m.functions.size (elements.foldl (fun table (start, s) =>
      match start with
      | some start => setElements table start s.funcs
      | none => table) table) := by
  induction elements generalizing table with
  | nil => exact h
  | cons e elements ih =>
    obtain ⟨start, s⟩ := e
    obtain ⟨hs, hmem⟩ := List.forall_mem_cons.1 hmem
    refine ih hmem ?_
    cases start with
    | none => exact h
    | some start => exact h.setElements (hm.elements s hs)

/-! ## Instances -/

/-- **A new instance of a compiled module is sound.** -/
theorem allocate_sound {m : LoadedModule} {imports : Imports σ} {limits : Limits}
    {inst : Instance σ} (hm : ∃ table, m.module.IsCompiled table)
    (himports : imports.HaveOneResult) (h : allocate m imports limits = .ok inst) :
    inst.shape.IsSound ∧ inst.moduleId = m.id ∧ inst.module = m.module ∧
      inst.fuel = limits.fuel ∧ inst.loan = .shared 0 := by
  obtain ⟨sideTable, hm⟩ := hm
  obtain ⟨id, module⟩ := m
  have hst : module.sideTable = some sideTable := hm.sideTable_eq
  simp only [allocate, hst] at h
  obtain ⟨functions, hfunctions, h⟩ := Except.bind_eq_ok_iff.1 h
  obtain ⟨memory, hmemory, h⟩ := Except.bind_eq_ok_iff.1 h
  obtain ⟨table, htable, h⟩ := Except.bind_eq_ok_iff.1 h
  obtain ⟨globals, hglobals, h⟩ := Except.bind_eq_ok_iff.1 h
  obtain ⟨elements, helements, h⟩ := Except.bind_eq_ok_iff.1 h
  obtain ⟨data, hdata, h⟩ := Except.bind_eq_ok_iff.1 h
  obtain ⟨memory', hmemory', h⟩ := Except.bind_eq_ok_iff.1 h
  cases h
  rw [Array.mapM_eq_mapM_toList] at hfunctions
  obtain ⟨callables, hcallables, rfl⟩ := Except.map_eq_ok_iff.1 hfunctions
  have hresolve := Except.forall₂_of_mapM hcallables
  have hsize : callables.toArray.size = module.functions.size := by
    simpa using hresolve.length_eq.symm
  refine ⟨⟨hm, hsize, fun i f callee hf hc => ?_, ?_, ?_, ?_⟩, rfl, rfl, rfl, rfl⟩
  · refine implements_of_resolve hm.sound himports hf ?_
    replace hf : module.functions.toList[i]? = some f := Array.getElem?_toList.trans hf
    replace hc : callables[i]? = some callee := List.getElem?_toArray.symm.trans hc
    obtain ⟨hi, rfl⟩ := List.getElem?_eq_some_iff.1 hf
    obtain ⟨hi', rfl⟩ := List.getElem?_eq_some_iff.1 hc
    exact hresolve.get hi hi'
  · have hmem : ∀ e ∈ elements, e.2 ∈ module.elements :=
      Except.mem_of_mapM (fun s e hs => by
        obtain ⟨start, -, hs⟩ := Except.bind_eq_ok_iff.1 hs
        cases hs
        rfl) helements
    have htables := tableBelow_foldl hm.sound hmem (tableBelow_of_newTable htable)
    exact fun slot func hslot => hsize ▸ htables slot func hslot
  · rw [← Array.foldlM_toList] at hglobals
    exact (size_of_pushGlobals hglobals).trans (Nat.zero_add _)
  · exact (Except.isSome_of_mapM hmemory').trans (Except.isSome_of_mapM hmemory)

end Instance

end WasmEngine
