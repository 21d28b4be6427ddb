import WasmEngine.Proofs.Encoding.Framing

/-!
# Proofs/Encoding/Stages — what each section of a module adds

`Source.draft M k` is what is known of the module `M` when its first `k` sections have been read.
Each section leads from one draft to the next (`Source.IsValid.stage`).
-/

namespace WasmEngine.Source

open Encoding

variable (M : Source)

/-- What is known of a module when its first `k` sections and some custom sections have been
read. -/
def draft (k : Nat) (customs : List CustomSection) : Draft where
  bytes := M.encode
  types := if 0 < k then M.types.toArray else #[]
  imports := if 1 < k then M.imports.map Import.record else []
  functions := ((if 1 < k then M.importedFunctions else []) ++
    if 10 < k then M.definedFunctions
    else if 2 < k then M.functions.map (Func.declared M.types) else []).toArray
  table :=
    if 3 < k then M.tables.head?
    else if 1 < k then (M.imports.filterMap Import.table?).head? else none
  memory :=
    if 4 < k then M.memories.head?
    else if 1 < k then (M.imports.filterMap Import.memory?).head? else none
  globals := ((if 1 < k then M.importedGlobals else []) ++
    if 5 < k then M.definedGlobals else []).toArray
  exports := if 6 < k then M.exports else []
  start := if 7 < k then M.start else none
  elements :=
    if 8 < k then place Element.bytes Element.record (M.itemsStart 8 M.elements.length) M.elements
    else []
  dataCount := if 9 < k ∧ M.announcesData then some M.dataSegments.length else none
  dataSegments :=
    if 11 < k then
      place Data.bytes Data.record (M.itemsStart 11 M.dataSegments.length) M.dataSegments
    else []
  customSections := customs
  bodyCount := if 10 < k then M.functions.length else 0

/-- The section in a place, if it is there, is read by `content`; it may be left out if it would not
add anything. -/
structure Stage (k : Nat) (content : Draft → Reader Draft) : Prop where
  present : ∀ bs, M.payload k = some bs → ∀ customs w,
    Reads (content (M.draft k customs)) w (M.contentStart k) bs (M.draft (k + 1) customs)
  absent : M.payload k = none → ∀ customs, M.draft (k + 1) customs = M.draft k customs

variable {M}

/-- A section that holds a vector is a stage if its items are read where there are some, and if
nothing is to be read where there are none, since the section is then left out. -/
theorem stage_of_vec {α : Type} {k : Nat} {content : Draft → Reader Draft} {f : α → List UInt8}
    (as : List α) (hpayload : M.payload k = content? f as)
    (hpresent : as ≠ [] → ∀ customs w, Reads (content (M.draft k customs)) w (M.contentStart k)
      (vec f as) (M.draft (k + 1) customs))
    (habsent : as = [] → ∀ customs, M.draft (k + 1) customs = M.draft k customs) :
    M.Stage k content := by
  cases as with
  | nil =>
    refine ⟨fun bs h => ?_, fun _ => habsent rfl⟩
    rw [hpayload] at h
    cases h
  | cons a as =>
    refine ⟨fun bs h => ?_, fun h => ?_⟩
    · rw [hpayload] at h
      cases h
      exact hpresent (List.cons_ne_nil a as)
    · rw [hpayload] at h
      cases h

/-! ## What is valid fits into 32 bits -/

theorem one_le_length_u32 {n : Nat} : 1 ≤ (u32 n).length := List.length_pos_of_ne_nil u32_ne_nil

theorem one_le_length_sized {bs : List UInt8} : 1 ≤ (sized bs).length := by
  rw [sized, List.length_append]
  exact Nat.le_add_right_of_le one_le_length_u32

/-- An import has two names at least, each of one byte at least. -/
theorem two_le_length_bytes_import (i : Import) : 2 ≤ i.bytes.length := by
  rw [Import.bytes, List.length_append, List.length_append]
  have hmodule : 1 ≤ (text i.ref.module).length := one_le_length_sized
  have hname : 1 ≤ (text i.ref.name).length := one_le_length_sized
  omega

/-- A body has its size and the number of its runs at least. -/
theorem two_le_length_bytes_func (f : Func) : 2 ≤ f.bytes.length := by
  rw [Func.bytes, sized, vec, List.length_append]
  have hlength : 1 ≤ (u32 (u32 f.runs.length ++ f.runs.flatMap runBytes ++ f.code).length).length :=
    one_le_length_u32
  have hruns : 1 ≤ (u32 f.runs.length).length := one_le_length_u32
  simp only [List.length_append] at hlength ⊢
  omega

namespace IsValid

variable (h : M.IsValid)
include h

/-- The content of a section bounds the number of its items. -/
theorem mul_length_lt {α : Type} {f : α → List UInt8} {as : List α} {k n : Nat}
    (hpayload : M.payload k = content? f as) (hf : ∀ a ∈ as, n ≤ (f a).length) :
    n * as.length < 2 ^ 32 := by
  cases as with
  | nil => exact Nat.two_pow_pos 32
  | cons a as =>
    have hlt := h.length_lt k _ hpayload
    have hle := mul_length_le_length_flatMap hf
    rw [vec, List.length_append] at hlt
    omega

/-- There are fewer types than words: they stand in a section whose size is one. -/
theorem types_length_lt : M.types.length < 2 ^ 32 := by
  simpa using h.mul_length_lt (k := 0) (n := 1) rfl fun s _ => by simp [Signature.bytes]

theorem dataSegments_length_lt : M.dataSegments.length < 2 ^ 32 := by
  have hne (s : Data) : 1 ≤ s.bytes.length :=
    List.length_pos_of_ne_nil (by simp [Data.bytes, u32_ne_nil])
  simpa using h.mul_length_lt (k := 11) (n := 1) rfl fun s _ => hne s

/-- Imports take two bytes each, so there are half as many at most. -/
theorem imports_length_lt : 2 * M.imports.length < 2 ^ 32 :=
  h.mul_length_lt (k := 1) rfl fun i _ => two_le_length_bytes_import i

/-- Imported functions and bodies, two bytes each, do not exceed words together. -/
theorem functionCount_lt : M.functionCount < 2 ^ 32 := by
  have himports := h.imports_length_lt
  have himported : M.importedFunctions.length ≤ M.imports.length := List.length_filterMap_le ..
  have hfunctions : 2 * M.functions.length < 2 ^ 32 :=
    h.mul_length_lt (k := 10) rfl fun f _ => two_le_length_bytes_func f
  rw [functionCount]
  omega

/-- Imported globals and others, two bytes each, do not exceed words together. -/
theorem globalCount_lt : M.globalCount < 2 ^ 32 := by
  have himports := h.imports_length_lt
  have himported : M.importedGlobals.length ≤ M.imports.length := List.length_filterMap_le ..
  have hglobals : 2 * M.globals.length < 2 ^ 32 := h.mul_length_lt (k := 5) rfl fun g _ => by
    simp [GlobalDecl.bytes]
  rw [globalCount]
  omega

end IsValid

/-! ## The only table and the only memory -/

/-- Where there is at most one item of a kind, none stands before it. -/
theorem filterMap_eq_nil_of_length_le {α β : Type} {f : α → Option β} {before after : List α} {a : α}
    {more : List β} (h : ((before ++ a :: after).filterMap f ++ more).length ≤ 1)
    (ha : (f a).isSome) : before.filterMap f = [] := by
  obtain ⟨b, hb⟩ := Option.isSome_iff_exists.1 ha
  rw [List.filterMap_append, List.filterMap_cons_some hb] at h
  simp only [List.length_append, List.length_cons] at h
  exact List.eq_nil_of_length_eq_zero (by omega)

theorem eq_nil_of_length_append_le {β : Type} {xs : List β} {b : β} (h : (xs ++ [b]).length ≤ 1) :
    xs = [] := by
  rw [List.length_append, List.length_singleton] at h
  exact List.eq_nil_of_length_eq_zero (by omega)

/-- What the import section must satisfy, an import at a time. -/
theorem IsValid.fits (h : M.IsValid) {before after : List Import} {i : Import}
    (heq : M.imports = before ++ i :: after) : Draft.Fits M.types before i := by
  have hi : i ∈ M.imports := heq ▸ List.mem_append_right _ (List.mem_cons_self ..)
  have htables := h.oneTable
  have hmemories := h.oneMemory
  rw [tables, heq] at htables
  rw [memories, heq] at hmemories
  refine ⟨fun k hk => ?_, filterMap_eq_nil_of_length_le htables, fun e he => ?_,
    filterMap_eq_nil_of_length_le hmemories, fun e he => ?_⟩
  · exact ⟨h.importTypes i hi k hk, Nat.lt_trans (h.importTypes i hi k hk) h.types_length_lt⟩
  · exact h.tableBounds e (List.mem_append_left _ (List.mem_filterMap.2 ⟨i, hi, he⟩))
  · exact h.memoryBounds e (List.mem_append_left _ (List.mem_filterMap.2 ⟨i, hi, he⟩))

/-! ## The stages -/

/-- A function that is imported knows what it is imported as. -/
theorem isSome_imported {f : Function} (hf : f ∈ M.importedFunctions) : f.imported.isSome := by
  obtain ⟨i, -, hi⟩ := List.mem_filterMap.1 hf
  unfold Import.func? at hi
  split at hi
  · cases hi
    rfl
  · cases hi

/-- The globals that segments may read. -/
theorem isConstant_draft {k : Nat} {customs : List CustomSection} {t : ConstExpr.Term}
    (hk : 5 < k)
    (ht : IsConstant (M.scope M.globals.length) .i32 t) :
    IsConstant (M.draft k customs).globals .i32 t := by
  refine ht.congr ?_
  simp only [scope, draft, if_pos hk, if_pos (Nat.lt_trans (by decide : 1 < 5) hk),
    List.take_length, List.map_append, List.map_map]
  congr 1
  exact (map_place (by intros; rfl)).symm

namespace IsValid

variable (h : M.IsValid)
include h

omit h in
/-- Types are read into an empty draft. -/
theorem stage_types : M.Stage 0 Draft.typeSection :=
  stage_of_vec _ rfl (fun _ _ _ => Draft.reads_typeSection M.types) fun h _ => by simp [draft, h]

/-- Imports are read once the types are. -/
theorem stage_imports : M.Stage 1 Draft.importSection := by
  refine stage_of_vec _ rfl (fun _ customs w => ?_) fun h _ => ?_
  · refine (Draft.reads_importSection M.types rfl rfl
      fun before i after heq => h.fits heq).congr ?_
    simp [draft, Draft.withImports, importedFunctions, importedGlobals]
  · simp [draft, h, importedFunctions, importedGlobals]

/-- Function types are read behind the imported functions. -/
theorem stage_functions : M.Stage 2 Draft.functionSection := by
  refine stage_of_vec _ rfl (fun _ customs w => ?_) fun h _ => ?_
  · refine (Draft.reads_functionSection M.types rfl
      (Nat.le_of_lt h.types_length_lt) h.functionTypes).congr ?_
    simp [draft]
  · simp [draft, h]

/-- The table is read, unless an import has brought one. -/
theorem stage_table : M.Stage 3 Draft.tableSection := by
  have htables := h.oneTable
  have hbounds := h.tableBounds
  refine stage_of_vec M.table.toList rfl (fun hne customs w => ?_) fun hnil customs => ?_
  · obtain ⟨l, hl⟩ : ∃ l, M.table = some l := Option.ne_none_iff_exists'.1 (by simpa using hne)
    rw [tables, hl] at htables hbounds
    have hnone := eq_nil_of_length_append_le htables
    rw [hl]
    refine (Draft.reads_tableSection (by simp [draft, hnone])
      (hbounds _ (List.mem_append_right _ (List.mem_singleton_self _)))).congr ?_
    simp [draft, tables, hl, hnone]
  · have hnone : M.table = none := by simpa using hnil
    simp [draft, tables, hnone]

/-- The memory is read, unless an import has brought one. -/
theorem stage_memory : M.Stage 4 Draft.memorySection := by
  have hmemories := h.oneMemory
  have hbounds := h.memoryBounds
  refine stage_of_vec M.memory.toList rfl (fun hne customs w => ?_) fun hnil customs => ?_
  · obtain ⟨l, hl⟩ : ∃ l, M.memory = some l := Option.ne_none_iff_exists'.1 (by simpa using hne)
    rw [memories, hl] at hmemories hbounds
    have hnone := eq_nil_of_length_append_le hmemories
    rw [hl]
    refine (Draft.reads_memorySection (by simp [draft, hnone])
      (hbounds _ (List.mem_append_right _ (List.mem_singleton_self _)))).congr ?_
    simp [draft, memories, hl, hnone]
  · have hnone : M.memory = none := by simpa using hnil
    simp [draft, memories, hnone]

/-- Globals are read behind the imported ones. -/
theorem stage_globals : M.Stage 5 Draft.globalSection := by
  refine stage_of_vec _ rfl (fun _ customs w => ?_) fun h _ => ?_
  · have hcount := h.globalCount_lt
    refine (Draft.reads_globalSection ?_ fun before g after heq => ?_).congr ?_
    · simp only [draft, globalCount] at hcount ⊢
      simpa using Nat.le_of_lt hcount
    · have hg : M.globals[before.length]? = some g := by simp [heq]
      have hscope := h.initialisers before.length g hg
      have htake : M.globals.take before.length = before := by simp [heq]
      rw [scope, htake] at hscope
      simpa [draft] using hscope
    · simp [draft, definedGlobals, itemsStart]
  · simp [draft, h, definedGlobals, place]

/-- Exports are read once all that they may name is there. -/
theorem stage_exports : M.Stage 6 Draft.exportSection := by
  refine stage_of_vec _ rfl (fun _ customs w => ?_) fun h _ => by simp [draft, h]
  have hfunctions := h.functionCount_lt
  have hglobals := h.globalCount_lt
  refine (Draft.reads_exportSection rfl h.exportNames (fun e he => ?_) fun e he => ?_).congr rfl
  · have hprovides := h.exports e he
    unfold Provides at hprovides
    split at hprovides <;> omega
  · have hprovides := h.exports e he
    unfold Provides at hprovides
    unfold Draft.Provides
    split <;> simp only [*] at hprovides
    · simpa [draft, functionCount] using hprovides
    · simpa [draft, List.isSome_head?] using hprovides
    · simpa [draft, List.isSome_head?] using hprovides
    · simpa [draft, globalCount, definedGlobals] using hprovides

/-- The start function is read, if there is one. -/
theorem stage_start : M.Stage 7 Draft.startSection := by
  refine ⟨fun bs hbs customs w => ?_, fun hnone customs => ?_⟩
  · obtain ⟨k, hk, rfl⟩ := Option.map_eq_some_iff.1 (show M.start.map u32 = some bs from hbs)
    have hlt := h.start k hk
    refine (Draft.reads_startSection ?_ (Nat.lt_trans hlt h.functionCount_lt)).congr ?_
    · simpa [draft, functionCount] using hlt
    · simp [draft, hk]
  · have hnone : M.start = none := Option.map_eq_none_iff.1 hnone
    simp [draft, hnone]

/-- From the exports on, all globals are there, and they do not exceed words. -/
theorem size_globals_draft {k : Nat} {customs : List CustomSection} (hk : 5 < k) :
    (M.draft k customs).globals.size ≤ 2 ^ 32 := by
  have hcount := h.globalCount_lt
  simp only [draft, if_pos hk, if_pos (Nat.lt_trans (by decide : 1 < 5) hk), List.size_toArray,
    List.length_append, definedGlobals, length_place]
  exact Nat.le_of_lt hcount

/-- Segments of elements are read once the table and the functions are there. -/
theorem stage_elements : M.Stage 8 Draft.elementSection := by
  refine stage_of_vec _ rfl (fun _ customs w => ?_) fun h _ => by simp [draft, h, place]
  have hfunctions : (M.draft 8 customs).functions.size = M.functionCount := by
    simp [draft, functionCount]
  refine (Draft.reads_elementSection rfl (h.size_globals_draft (k := 8) (by decide))
    (hfunctions ▸ Nat.le_of_lt h.functionCount_lt) fun e he => ⟨fun b offset hb => ?_,
      fun k hk => hfunctions ▸ h.elementFunctions e he k hk⟩).congr rfl
  obtain ⟨htable, hconst⟩ := h.activeElements e he b offset hb
  exact ⟨by simpa [draft, List.isSome_head?] using htable, isConstant_draft (by decide) hconst⟩

/-- The number of data segments is read where it is announced. -/
theorem stage_dataCount : M.Stage 9 Draft.dataCountSection := by
  have hpayload : M.payload 9 =
      if M.announcesData then some (u32 M.dataSegments.length) else none := rfl
  refine ⟨fun bs hbs customs w => ?_, fun hnone customs => ?_⟩
  · rw [hpayload] at hbs
    split at hbs
    · next hannounced =>
      cases hbs
      refine (Draft.reads_dataCountSection h.dataSegments_length_lt).congr ?_
      simp [draft, hannounced]
    · cases hbs
  · rw [hpayload] at hnone
    split at hnone
    · cases hnone
    · next hannounced => simp [draft, hannounced]

/-- Bodies are read into the functions. -/
theorem stage_code : M.Stage 10 Draft.codeSection := by
  refine stage_of_vec _ rfl (fun _ customs w => ?_) fun h _ => by
    simp [draft, h, definedFunctions, place]
  refine (Draft.reads_codeSection M.importedFunctions M.types ?_
    (fun f hf => isSome_imported hf) h.locals).congr ?_
  · simp [draft, Draft.withBodies, place]
  · simp [draft, Draft.withBodies, definedFunctions, itemsStart]

/-- Data segments are read once the memory is there. -/
theorem stage_data : M.Stage 11 Draft.dataSection := by
  refine stage_of_vec _ rfl (fun _ customs w => ?_) fun h _ => by simp [draft, h, place]
  refine (Draft.reads_dataSection rfl (h.size_globals_draft (k := 11) (by decide))
    fun s hs b offset hb => ?_).congr (by simp [draft, itemsStart])
  obtain ⟨hmemory, hconst⟩ := h.activeData s hs b offset hb
  exact ⟨by simpa [draft, List.isSome_head?] using hmemory, isConstant_draft (by decide) hconst⟩

/-- **Each section leads from one draft to the next.** -/
theorem stage {k : Nat} {id : UInt8} {content : Draft → Reader Draft}
    (hk : Draft.knownSections[k]? = some (id, content)) :
    M.Stage k content ∧ ids[k]? = some id := by
  match k, hk with
  | 0, rfl => exact ⟨stage_types, rfl⟩
  | 1, rfl => exact ⟨h.stage_imports, rfl⟩
  | 2, rfl => exact ⟨h.stage_functions, rfl⟩
  | 3, rfl => exact ⟨h.stage_table, rfl⟩
  | 4, rfl => exact ⟨h.stage_memory, rfl⟩
  | 5, rfl => exact ⟨h.stage_globals, rfl⟩
  | 6, rfl => exact ⟨h.stage_exports, rfl⟩
  | 7, rfl => exact ⟨h.stage_start, rfl⟩
  | 8, rfl => exact ⟨h.stage_elements, rfl⟩
  | 9, rfl => exact ⟨h.stage_dataCount, rfl⟩
  | 10, rfl => exact ⟨h.stage_code, rfl⟩
  | 11, rfl => exact ⟨h.stage_data, rfl⟩

end IsValid

end WasmEngine.Source
