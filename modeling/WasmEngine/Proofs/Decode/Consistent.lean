import Mathlib
import WasmEngine.Proofs.Decode.Grounded

/-!
# Proofs/Decode/Consistent — decoded modules are internally consistent

The validator, instantiation and the machine take what a module says about itself for granted: that
indices are in range, that ranges lie within the bytes, that segments have something to go to.
`Module.Consistent` lists all of it, and `Module.decode_consistent` shows that decoding has checked
it, whatever the bytes were.
-/

namespace WasmEngine.Module

/-- Everything that a module refers to is there, and lies where it should. -/
structure Consistent (bytes : ByteArray) (m : Module) : Prop where
  /-- The imported functions come first. -/
  imported : ∀ (i : Nat) f, m.functions[i]? = some f → (f.imported.isSome ↔ i < m.importedCount)
  types : ∀ f ∈ m.functions, f.typeIndex < m.types.size ∧ m.types[f.typeIndex]? = some f.type
  locals : ∀ f ∈ m.functions, f.imported = none → f.type.params <+: f.locals
  bodies : ∀ f ∈ m.functions, f.imported = none → f.body.Fits bytes
  /-- Bodies are disjoint and stand in the order of their functions. -/
  bodiesApart : ∀ (i j : Nat) f g, m.functions[i]? = some f → m.functions[j]? = some g →
    f.imported = none → g.imported = none → i < j → f.body.stop ≤ g.body.start
  elementFunctions : ∀ s ∈ m.elements, ∀ k, some k ∈ s.funcs → k < m.functions.size
  exports : ∀ e ∈ m.exports, m.Has e.kind e.index
  start : ∀ k ∈ m.start, k < m.functions.size
  exportNames : (m.exports.map Export.name).Nodup
  /-- Looking up a name finds the one export of that name. -/
  export?_iff : ∀ name e, m.export? name = some e ↔ e ∈ m.exports ∧ e.name = name
  table : ∀ e ∈ m.table, ∀ max ∈ e.max, e.min ≤ max
  memory : ∀ e ∈ m.memory, e.min ≤ 65536 ∧ ∀ max ∈ e.max, e.min ≤ max ∧ max ≤ 65536
  activeElements : ∀ s ∈ m.elements, ∀ offset, s.mode = .active offset → m.table.isSome
  activeData : ∀ s ∈ m.dataSegments, ∀ offset, s.mode = .active offset → m.memory.isSome
  dataRanges : ∀ s ∈ m.dataSegments, s.range.Fits bytes
  customRanges : ∀ s ∈ m.customSections, s.range.Fits bytes
  dataCount : ∀ n ∈ m.dataCount, n = m.dataSegments.length
  /-- An initialiser is a constant expression that reads immutable globals before its own. -/
  initialisers : ∀ (i : Nat) g, m.globals[i]? = some g → g.imported = none →
    ∃ (t : ConstExpr.Term) (next : Nat), t.StandsAt (.ofBytes bytes) g.init next ∧
      ∀ k ∈ t.reads, k < i ∧ ∃ g', m.globals[k]? = some g' ∧ g'.isMutable = false

variable {bytes : ByteArray} {m : Module}

/-- Among exports of different names, each is found by its name. -/
theorem export?_eq_some_iff (h : (m.exports.map Export.name).Nodup) {name : String} {e : Export} :
    m.export? name = some e ↔ e ∈ m.exports ∧ e.name = name := by
  have hname {e : Export} (hfind : m.export? name = some e) : e.name = name := by
    simpa using List.find?_some hfind
  refine ⟨fun hfind => ⟨List.mem_of_find?_eq_some hfind, hname hfind⟩, ?_⟩
  rintro ⟨hmem, heq⟩
  obtain ⟨e', hfind⟩ := Option.isSome_iff_exists.1
    (List.find?_isSome.2 ⟨e, hmem, decide_eq_true heq⟩ : (m.export? name).isSome)
  exact hfind.trans (congrArg some (List.inj_on_of_nodup_map h
    (List.mem_of_find?_eq_some hfind) hmem ((hname hfind).trans heq.symm)))

/-- What a global's initialiser reads are immutable globals before it. -/
theorem Grounded.initialiser (h : m.Grounded bytes) {i : Nat} {g : Global}
    (hg : m.globals[i]? = some g) (hlocal : g.imported = none) :
    ∃ (t : ConstExpr.Term) (next : Nat), t.StandsAt (.ofBytes bytes) g.init next ∧
      ∀ k ∈ t.reads, k < i ∧ ∃ g', m.globals[k]? = some g' ∧ g'.isMutable = false := by
  obtain ⟨t, next, hstands, htype⟩ := h.globals i g hg hlocal
  refine ⟨t, next, hstands, fun k hk => ?_⟩
  obtain ⟨g', hg', hconst⟩ := htype.exists_of_mem_reads hk
  rw [Array.getElem?_extract] at hg'
  split at hg'
  · next hlt =>
    rw [Nat.zero_add] at hg'
    exact ⟨by omega, g', hg', hconst⟩
  · cases hg'

/-- **Every decoded module is internally consistent.** -/
theorem decode_consistent (h : decode bytes = .ok m) : m.Consistent bytes := by
  obtain ⟨hsound, rfl, -⟩ := decode_sound h
  obtain ⟨hgrounded, hcount⟩ := decode_grounded h
  have hfits (f : Function) (hf : f ∈ m.functions) (hlocal : f.imported = none) :
      f.Fits m.bytes := by
    obtain ⟨i, hi⟩ := Array.mem_iff_getElem?.1 hf
    exact hsound.fits i f hi hlocal
  exact {
    imported := hsound.imported
    types := fun f hf =>
      ⟨(Array.getElem?_eq_some_iff.1 (hgrounded.functions f hf)).1, hgrounded.functions f hf⟩
    locals := fun f hf hlocal => by
      obtain ⟨declared, heq⟩ := (hfits f hf hlocal).locals_eq
      exact ⟨declared, heq.symm⟩
    bodies := fun f hf hlocal => ⟨(hfits f hf hlocal).start_le, (hfits f hf hlocal).stop_le⟩
    bodiesApart := fun i j f g hf hg hlocal _ hij => hsound.apart i j f g hf hg hlocal hij
    elementFunctions := hsound.elements
    exports := hgrounded.exports
    start := hsound.start
    exportNames := hgrounded.exportNames
    export?_iff := fun _ _ => export?_eq_some_iff hgrounded.exportNames
    table := hgrounded.table
    memory := fun e he => by
      obtain ⟨hordered, hmin, hmax⟩ := hgrounded.memory e he
      exact ⟨hmin, fun max hmem => ⟨hordered max hmem, hmax max hmem⟩⟩
    activeElements := fun s hs offset hoffset => (hgrounded.elements s hs offset hoffset).1
    activeData := fun s hs offset hoffset => ((hgrounded.dataSegments s hs).2 offset hoffset).1
    dataRanges := fun s hs => (hgrounded.dataSegments s hs).1
    customRanges := hgrounded.customSections
    dataCount := hcount
    initialisers := fun _ _ => hgrounded.initialiser }

/-! ## A module with something in every section -/

/-- A module that imports a function and defines another, with a table, a memory, two globals of
which the second reads the first, and segments. -/
def populatedBytes : ByteArray :=
  ⟨#[0x00, 0x61, 0x73, 0x6d, 0x01, 0x00, 0x00, 0x00,
    -- types and imports: `m.f` of type `() -> ()`
    0x01, 0x04, 0x01, 0x60, 0x00, 0x00,
    0x02, 0x07, 0x01, 0x01, 0x6d, 0x01, 0x66, 0x00, 0x00,
    -- a function, a table of three slots, a memory of one page
    0x03, 0x02, 0x01, 0x00,
    0x04, 0x04, 0x01, 0x70, 0x00, 0x03,
    0x05, 0x03, 0x01, 0x00, 0x01,
    -- globals `2` and `global.get 0 + 1`, of which the second is exported as `g`
    0x06, 0x0e, 0x02, 0x7f, 0x00, 0x41, 0x02, 0x0b, 0x7f, 0x00, 0x23, 0x00, 0x41, 0x01, 0x6a, 0x0b,
    0x07, 0x05, 0x01, 0x01, 0x67, 0x03, 0x01,
    -- function 1 for the slot that global 0 tells
    0x09, 0x07, 0x01, 0x00, 0x23, 0x00, 0x0b, 0x01, 0x01,
    0x0c, 0x01, 0x02,
    0x0a, 0x04, 0x01, 0x02, 0x00, 0x0b,
    -- the bytes 1 and 2 from address 0 on, and 3 at address 1
    0x0b, 0x0e, 0x02, 0x00, 0x41, 0x00, 0x0b, 0x02, 0x01, 0x02, 0x00, 0x41, 0x01, 0x0b, 0x01, 0x03,
    0x00, 0x02, 0x01, 0x63]⟩

/-- What `populatedBytes` decode to. -/
def populated : Module :=
  let type : Signature := { params := [], results := [] }
  let ref : ImportName := { module := "m", name := "f" }
  { bytes := populatedBytes, types := #[type], imports := [⟨ref, .func⟩]
    functions := #[{ typeIndex := 0, type, imported := some ref },
      { typeIndex := 0, type, body := ⟨78, 79⟩ }]
    table := some { min := 3, max := none }, memory := some { min := 1, max := none }
    globals := #[{ type := .i32, isMutable := false, init := 43 },
      { type := .i32, isMutable := false, init := 48 }]
    exports := [⟨"g", .global, 1⟩]
    elements := [⟨.active 65, [some 1]⟩]
    dataCount := some 2
    dataSegments := [⟨.active 83, ⟨87, 89⟩⟩, ⟨.active 90, ⟨94, 95⟩⟩]
    customSections := [⟨"c", ⟨99, 99⟩⟩] }

theorem decode_populatedBytes : decode populatedBytes = .ok populated := by decide +kernel

/-- A module with something in each section. -/
theorem populated_consistent : populated.Consistent populatedBytes :=
  decode_consistent decode_populatedBytes

end WasmEngine.Module
