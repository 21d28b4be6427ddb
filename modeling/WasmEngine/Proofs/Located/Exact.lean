import Mathlib
import WasmEngine.Proofs.Located.Compiled
import WasmEngine.Proofs.Located.Layout
import WasmEngine.Proofs.Typing.Validity

/-!
# Proofs/Located/Exact — the side table of a compiled module is exact

Compilation validates the functions one after the other and joins their tables.  It succeeds exactly
if each function would pass alone and the start function is one that can be called, and then the
table is the disjoint union of the tables of the functions: an entry for every block of every body,
and no other (`Module.compile_exact`).
-/

namespace WasmEngine.Module

variable {m d : Module} {func : Nat} {f : Function} {funcs : List Nat} {table : SideTable}

/-! ## Joining tables -/

theorem exists_validateFunctions_iff :
    (∃ table, m.validateFunctions funcs = .ok table) ↔
      ∀ func ∈ funcs, ∃ table, m.validateFunction func = .ok table := by
  induction funcs with
  | nil => exact ⟨fun _ => nofun, fun _ => ⟨[], rfl⟩⟩
  | cons func funcs ih =>
    rw [List.forall_mem_cons, ← ih]
    constructor
    · rintro ⟨_, h⟩
      obtain ⟨t, others, ht, hothers, -⟩ := validateFunctions_cons_eq_ok_iff.1 h
      exact ⟨⟨t, ht⟩, others, hothers⟩
    · rintro ⟨⟨t, ht⟩, others, hothers⟩
      exact ⟨_, validateFunctions_cons_eq_ok_iff.2 ⟨t, others, ht, hothers, rfl⟩⟩

/-- Whatever is found in the union is found in the table of some function. -/
theorem exists_of_find?_validateFunctions {p : Nat} {jump : BlockJump}
    (hsorted : ∀ func ∈ funcs, ∀ t, m.validateFunction func = .ok t → t.IsSorted)
    (h : m.validateFunctions funcs = .ok table) (hfind : table.find? p = some jump) :
    ∃ func ∈ funcs, ∃ t, m.validateFunction func = .ok t ∧ t.find? p = some jump := by
  induction funcs generalizing table with
  | nil =>
    cases h
    cases hfind
  | cons func funcs ih =>
    obtain ⟨t, others, ht, hothers, rfl⟩ := validateFunctions_cons_eq_ok_iff.1 h
    obtain ⟨hfunc, hfuncs⟩ := List.forall_mem_cons.1 hsorted
    have ht' := hfunc t ht
    by_cases hmem : p ∈ t.map Prod.fst
    · obtain ⟨e, he, rfl⟩ := List.mem_map.1 hmem
      rw [SideTable.find?_insertAll_of_mem ht'.nodup he] at hfind
      exact ⟨func, List.mem_cons_self, t, ht,
        (SideTable.find?_eq_some_iff ht').2 (Option.some.inj hfind ▸ he)⟩
    · rw [SideTable.find?_insertAll_of_not_mem hmem] at hfind
      obtain ⟨other, hother, t₁, ht₁, hfind₁⟩ := ih hfuncs hothers hfind
      exact ⟨other, List.mem_cons_of_mem _ hother, t₁, ht₁, hfind₁⟩

/-- Blocks of different functions have different opcodes. -/
theorem func_eq_of_find?_validateFunction (hs : m.Sound) {i j p : Nat} {t u : SideTable}
    {jump jump' : BlockJump} (hi : m.Defines i) (hj : m.Defines j)
    (ht : m.validateFunction i = .ok t) (hu : m.validateFunction j = .ok u)
    (hfind : t.find? p = some jump) (hfind' : u.find? p = some jump') : i = j := by
  obtain ⟨f, hf, hl⟩ := hi
  obtain ⟨g, hg, hl'⟩ := hj
  have hbounds := bounds_of_validateFunction hf (hs.fits i f hf hl).stop_le ht hfind
  have hbounds' := bounds_of_validateFunction hg (hs.fits j g hg hl').stop_le hu hfind'
  obtain hlt | heq | hlt := Nat.lt_trichotomy i j
  · have := hs.apart i j f g hf hg hl hlt
    omega
  · exact heq
  · have := hs.apart j i g f hg hf hl' hlt
    omega

/-! ## Compilation -/

/-- Whether the functions that a module defines pass validation, each by itself, and its start
function takes and returns nothing. -/
structure PassesAlone (m : Module) : Prop where
  functions : ∀ func, m.Defines func → ∃ table, m.validateFunction func = .ok table
  start : ∀ k ∈ m.start, ∀ f, m.functions[k]? = some f → f.type.params = [] ∧ f.type.results = []

theorem hasValidStart_iff :
    m.HasValidStart ↔
      ∀ k ∈ m.start, ∀ f, m.functions[k]? = some f → f.type.params = [] ∧ f.type.results = [] := by
  have htype (f : Function) : f.type = {} ↔ f.type.params = [] ∧ f.type.results = [] := by
    rw [Signature.mk.injEq]
  simp only [HasValidStart, Option.mem_def, Option.bind_eq_some_iff, ← htype]
  constructor
  · exact fun h k hk f hf => h f ⟨k, hk, hf⟩
  · rintro h f ⟨k, hk, hf⟩
    exact h k hk f hf

/-- **A module passes validation exactly if its functions do alone.** -/
theorem exists_validate_iff (hs : m.Sound) (hnone : m.sideTable = none) :
    (∃ m', m.validate = .ok m') ↔ m.PassesAlone := by
  simp only [validate_eq_ok_iff hnone]
  constructor
  · rintro ⟨_, table, htable, hstart, -⟩
    exact ⟨fun func hfunc => exists_validateFunctions_iff.1 ⟨table, htable⟩ func
      ((mem_definedIndices_iff hs).2 hfunc), hasValidStart_iff.1 hstart⟩
  · rintro ⟨hfunctions, hstart⟩
    obtain ⟨table, htable⟩ := exists_validateFunctions_iff.2 fun func hmem =>
      hfunctions func ((mem_definedIndices_iff hs).1 hmem)
    exact ⟨_, table, htable, hasValidStart_iff.2 hstart, rfl⟩

/-- What a table should be for a module. -/
structure HasTable (m : Module) (table : SideTable) : Prop where
  /-- There is an entry for each block of a function, with the places of its parts. -/
  block_iff : ∀ p jump, table.find? p = some jump ↔ ∃ func, m.HasBlock func p jump
  /-- The table is the union of the tables of the functions that the module defines. -/
  union_iff : ∀ p jump, table.find? p = some jump ↔
    ∃ func t, m.Defines func ∧ m.validateFunction func = .ok t ∧ t.find? p = some jump
  /-- No offset is in the tables of two functions. -/
  disjoint : ∀ i j t u, m.Defines i → m.Defines j → m.validateFunction i = .ok t →
    m.validateFunction j = .ok u → ∀ p jump jump', t.find? p = some jump →
      u.find? p = some jump' → i = j

/-- **The functions of a module yield its table.** -/
theorem hasTable_of_validateFunctions (hs : m.Sound)
    (h : m.validateFunctions m.definedIndices = .ok table) : m.HasTable table := by
  have hdefined (func : Nat) (hmem : func ∈ m.definedIndices) : m.Defines func :=
    (mem_definedIndices_iff hs).1 hmem
  have hsorted (func : Nat) (hmem : func ∈ m.definedIndices) (t : SideTable)
      (ht : m.validateFunction func = .ok t) : t.IsSorted := by
    obtain ⟨f, hf, hl⟩ := hdefined func hmem
    exact isSorted_of_validateFunction hf (hs.fits func f hf hl).stop_le ht
  have hunion (p : Nat) (jump : BlockJump) : table.find? p = some jump ↔
      ∃ func t, m.Defines func ∧ m.validateFunction func = .ok t ∧ t.find? p = some jump := by
    constructor
    · intro hfind
      obtain ⟨func, hmem, t, ht, hfind⟩ := exists_of_find?_validateFunctions hsorted h hfind
      exact ⟨func, t, hdefined func hmem, ht, hfind⟩
    · rintro ⟨func, t, hfunc, ht, hfind⟩
      obtain ⟨t', ht', himp⟩ := find?_validateFunctions hs hdefined (pairwise_definedIndices m) h
        func ((mem_definedIndices_iff hs).2 hfunc)
      obtain rfl := Except.ok.inj (ht.symm.trans ht')
      exact himp p jump hfind
  refine ⟨fun p jump => ?_, hunion, fun i j t u hi hj ht hu p jump jump' =>
    func_eq_of_find?_validateFunction hs hi hj ht hu⟩
  rw [hunion]
  constructor
  · rintro ⟨func, t, ⟨f, hf, hl⟩, ht, hfind⟩
    exact ⟨func, (find?_validateFunction_iff hf hl (hs.fits func f hf hl).stop_le ht).1 hfind⟩
  · rintro ⟨func, hblock⟩
    obtain ⟨f, -, -, -, hf, hl, -⟩ := id hblock
    obtain ⟨t, ht, -⟩ := find?_validateFunctions hs hdefined (pairwise_definedIndices m) h
      func ((mem_definedIndices_iff hs).2 ⟨f, hf, hl⟩)
    exact ⟨func, t, ⟨f, hf, hl⟩, ht,
      (find?_validateFunction_iff hf hl (hs.fits func f hf hl).stop_le ht).2 hblock⟩

/-- **The side table of a compiled module is exact**, and whatever passes function by function is
compiled. -/
theorem compile_exact (bytes : ByteArray) :
    ((∃ m, compile bytes = .ok m) ↔ ∃ d, decode bytes = .ok d ∧ d.PassesAlone) ∧
      ∀ m, compile bytes = .ok m →
        ∃ d table, decode bytes = .ok d ∧ m = { d with sideTable := some table } ∧
          d.HasTable table := by
  refine ⟨?_, fun m h => ?_⟩
  · simp only [compile_eq_ok_iff]
    constructor
    · rintro ⟨m, d, hd, h⟩
      obtain ⟨hs, -, hnone⟩ := decode_sound hd
      exact ⟨d, hd, (exists_validate_iff hs hnone).1 ⟨m, h⟩⟩
    · rintro ⟨d, hd, h⟩
      obtain ⟨hs, -, hnone⟩ := decode_sound hd
      obtain ⟨m, hm⟩ := (exists_validate_iff hs hnone).2 h
      exact ⟨m, d, hd, hm⟩
  · obtain ⟨d, hd, h⟩ := compile_eq_ok_iff.1 h
    obtain ⟨hs, -, hnone⟩ := decode_sound hd
    obtain ⟨table, htable, -, rfl⟩ := (validate_eq_ok_iff hnone).1 h
    exact ⟨d, table, hd, rfl, hasTable_of_validateFunctions hs htable⟩

/-- The `if` of the sample is the one entry of its table. -/
theorem hasTable_sample :
    ∃ d table, decode sampleBytes = .ok d ∧ compiledSample = { d with sideTable := some table } ∧
      d.HasTable table :=
  (compile_exact sampleBytes).2 compiledSample compile_sampleBytes

end WasmEngine.Module
