import WasmEngine.Proofs.Encoding.Reads

/-!
# Proofs/Encoding/Entries — the sections read what is written

For each part of a section, and then for each section, the reader takes the bytes that `Source` gives
to it and adds the record of it to the draft.  The readers whose entries see those before them go
through a family of drafts, one for each number of entries (`Draft.withImports`,
`Draft.withBodies`).
-/

namespace WasmEngine

open Encoding

variable {w : Window} {pos : Nat}

/-! ## Constant expressions -/

namespace ConstExpr

/-- The opcode of a constant operator names it. -/
theorem operator?_opcode {width : Width} {op : IntBinOp} (h : op = .add ∨ op = .sub ∨ op = .mul) :
    operator? (opcode width op) = some (width, op) := by
  rcases h with rfl | rfl | rfl <;> cases width <;> rfl

namespace Term

/-- A constant instruction is spelled as the bytes of its literal. -/
theorem encodes_literal (v : Value) : (Instr.const v).Encodes (literal v) := by
  cases v with
  | i32 v =>
    exact .constI32 (Leb128.encodesSigned_signedBytes rfl (Int32.le_toInt _) (Int32.toInt_lt _))
  | i64 v =>
    exact .constI64 (Leb128.encodesSigned_signedBytes rfl (Int64.le_toInt _) (Int64.toInt_lt _))
  | f32 v => exact .constF32
  | f64 v => exact .constF64

variable {globals : Array Global} {type : ValType} {t : Term}

/-- The bytes of a well-typed term spell its instructions in postfix order. -/
theorem encodes_code (hs : t.IsSupported) (ht : t.HasType globals type)
    (hsize : globals.size ≤ 2 ^ 32) : t.Encodes t.code := by
  induction ht with
  | value v => exact .value (encodes_literal v)
  | global h =>
    exact .global (.globalGet (encodesUnsigned_u32
      (Nat.lt_of_lt_of_le (Array.getElem?_eq_some_iff.1 h).1 hsize)))
  | arith _ _ iha ihb => exact .arith (operator?_opcode hs.1) (iha hs.2.1) (ihb hs.2.2)

end Term

/-- **A constant expression is accepted** where it is written. -/
theorem reads_check {globals : Array Global} {type : ValType} {t : Term}
    (h : Source.IsConstant globals type t) (hsize : globals.size ≤ 2 ^ 32) :
    Reads (check globals type) w pos t.bytes () := fun _ hw _ hs =>
  (check_eq_ok_iff hw).2 ⟨t, ⟨t.code, hs, t.encodes_code h.1 h.2 hsize⟩, h.2⟩

end ConstExpr

namespace Draft

variable {d : Draft}

/-! ## Parts of sections -/

/-- A function type is read from its bytes. -/
theorem reads_funcType (s : Signature) : Reads funcType w pos s.bytes s := by
  refine (reads_byte 0x60).bind (.ite_neg (by simp) (.vec_append (by simp) ?_))
  refine (reads_items fun t _ _ => reads_valType t).bind (.vec (by simp) ?_)
  exact (reads_items fun t _ _ => reads_valType t).before (reads_pure s)

/-- A number of one byte. -/
theorem encodesUnsigned_singleton {bits n : Nat} (hbits : 0 < bits) (h : n < 2 ^ bits) (hn : n < 128) :
    Leb128.EncodesUnsigned bits n [UInt8.ofNat n] := by
  have hnat : (UInt8.ofNat n).toNat = n := UInt8.toNat_ofNat_of_lt' (show n < 256 by omega)
  refine ⟨Leb128.isGroups_singleton.2 (by rwa [hnat]), ?_, ?_, h⟩
  · rw [List.length_singleton, Leb128.maxLength]
    omega
  · rw [Leb128.unsignedValue, Leb128.unsignedValue, hnat]
    omega

/-- A flag of one bit is read from one byte. -/
theorem reads_flag {n : Nat} (h : n < 2) : Reads (Reader.unsigned 1) w pos [UInt8.ofNat n] n :=
  reads_of_accepts (Reader.accepts_unsigned (by decide))
    (encodesUnsigned_singleton (by decide) h (by omega))

variable {l : Source.Limits} {imported : Option ImportName}

/-- Limits are read from their bytes, with a maximum or without. -/
theorem reads_extent (h : Source.IsBounded (2 ^ 32 - 1) (l.extent imported)) :
    Reads (extent imported) w pos l.bytes (l.extent imported) := by
  obtain ⟨min, max⟩ := l
  have hmin : min < 2 ^ 32 := Nat.lt_succ_of_le h.1
  cases max with
  | none =>
    refine (reads_flag (n := 0) (by decide)).bind ((reads_u32 hmin).before ?_)
    exact .ite_neg (by decide) (reads_pure _)
  | some max =>
    obtain ⟨hle, hmax⟩ : min ≤ max ∧ max ≤ 2 ^ 32 - 1 := h.2 max rfl
    refine (reads_flag (n := 1) (by decide)).bind ((reads_u32 hmin).bind ?_)
    refine .ite_pos rfl ((reads_u32 (Nat.lt_succ_of_le hmax)).before ?_)
    exact .ite_neg (Nat.not_lt.2 hle) (reads_pure _)

/-- The limits of a memory are read if they stay within the largest memory. -/
theorem reads_memoryExtent (h : Source.IsBounded Memory.maxPages (l.extent imported)) :
    Reads (memoryExtent imported) w pos l.bytes (l.extent imported) := by
  refine (reads_extent (h.mono (by decide))).before (.ite_neg ?_ (reads_pure _))
  rintro (hmin | hmax)
  · exact Nat.not_lt.2 h.1 hmin
  · cases hl : (l.extent imported).max with
    | none =>
      rw [hl] at hmax
      exact Nat.not_lt_zero _ hmax
    | some max =>
      rw [hl] at hmax
      exact Nat.not_lt.2 (h.2 max hl).2 hmax

theorem reads_referenceType : Reads referenceType w pos [0x70] () :=
  (reads_byte 0x70).before (.ite_neg (by simp) (reads_pure ()))

theorem reads_mutability (b : Bool) : Reads mutability w pos [Source.flag b] b := by
  refine (reads_byte _).before ?_
  cases b <;> exact reads_pure _

theorem reads_externKind (k : ExternKind) : Reads externKind w pos [k.toByte] k := by
  refine (reads_byte _).before ?_
  rw [ExternKind.ofByte?_toByte]
  exact reads_pure k

/-- The index of a type is read together with the type that it names. -/
theorem reads_typeUse {index : Nat} {type : Signature} (h : d.types[index]? = some type)
    (hindex : index < 2 ^ 32) : Reads (typeUse d) w pos (u32 index) (index, type) := by
  refine (reads_u32 hindex).before ?_
  rw [h]
  exact reads_pure _

/-- An element given as an expression is read: a function, or none. -/
theorem reads_elementExpr {func : Option Nat} (h : ∀ k ∈ func, k < 2 ^ 32) :
    Reads elementExpr w pos (Source.exprBytes func) func := by
  have hend (pos : Nat) : Reads (do
      if (← Reader.byte) ≠ 0x0b then Reader.malformed .endExpected
      pure func) w pos [0x0b] func :=
    (reads_byte 0x0b).before (.ite_neg (by simp) (reads_pure func))
  cases func with
  | some k => exact (reads_byte 0xd2).bind (((reads_u32 (h k rfl)).map some).bind (hend _))
  | none => exact (reads_byte 0xd0).bind (reads_referenceType.bind (.after (reads_pure none) (hend _)))

/-! ## Types and imports -/

/-- The section of types is read: all of them, in order. -/
theorem reads_typeSection (types : List Signature) :
    Reads (typeSection d) w pos (vec Signature.bytes types) { d with types := types.toArray } :=
  .vec (fun _ _ => List.cons_ne_nil _ _)
    ((reads_items fun s _ _ => reads_funcType s).before (reads_pure _))

/-- The draft when some imports have been read. -/
def withImports (d : Draft) (types : List Signature) (imports : List Source.Import) : Draft :=
  { d with
    imports := imports.map Source.Import.record
    functions := (imports.filterMap (Source.Import.func? types)).toArray
    table := (imports.filterMap Source.Import.table?).head?
    memory := (imports.filterMap Source.Import.memory?).head?
    globals := (imports.filterMap Source.Import.global?).toArray }

/-- What an import must satisfy behind some others. -/
structure Fits (types : List Signature) (before : List Source.Import) (i : Source.Import) : Prop where
  type : ∀ k, i.item = .func k → k < types.length ∧ k < 2 ^ 32
  oneTable : i.table?.isSome → before.filterMap Source.Import.table? = []
  table : ∀ e ∈ i.table?, Source.IsBounded (2 ^ 32 - 1) e
  oneMemory : i.memory?.isSome → before.filterMap Source.Import.memory? = []
  memory : ∀ e ∈ i.memory?, Source.IsBounded Memory.maxPages e

/-- One more import is read, and goes to the functions, the globals, the table or the memory, by its
kind. -/
theorem reads_importEntry {types : List Signature} {before : List Source.Import} {i : Source.Import}
    (htypes : d.types = types.toArray) (h : Fits types before i) :
    Reads (importEntry (d.withImports types before)) w pos i.bytes
      (d.withImports types (before ++ [i])) := by
  obtain ⟨ref, item⟩ := i
  refine (reads_text _).bind ((reads_text _).bind ((reads_externKind _).bind ?_))
  cases item with
  | func k =>
    obtain ⟨hk, hlt⟩ := h.type k rfl
    have hget : (d.withImports types before).types[k]? = some (types.getD k {}) := by
      simp [withImports, htypes, hk]
    have hstate : d.withImports types (before ++ [⟨ref, .func k⟩]) =
        { d.withImports types before with
          imports := (d.withImports types before).imports ++ [⟨ref, .func⟩]
          functions := (d.withImports types before).functions.push
            { typeIndex := k, type := types.getD k {}, imported := some ref } } := by
      simp [withImports, Source.Import.record, Source.Item.kind, Source.Import.func?,
        Source.Import.table?, Source.Import.memory?, Source.Import.global?]
    rw [hstate]
    exact (reads_typeUse hget hlt).before (reads_pure _)
  | table l =>
    have hnone : (d.withImports types before).table = none := by
      simp [withImports, h.oneTable rfl]
    have hstate : d.withImports types (before ++ [⟨ref, .table l⟩]) =
        { d.withImports types before with
          imports := (d.withImports types before).imports ++ [⟨ref, .table⟩]
          table := some (l.extent (some ref)) } := by
      simp [withImports, Source.Import.record, Source.Item.kind, Source.Import.func?,
        Source.Import.table?, Source.Import.memory?, Source.Import.global?, h.oneTable rfl]
    rw [hstate]
    refine .ite_neg (by simp [hnone]) (reads_referenceType.bind ?_)
    exact (reads_extent (h.table _ rfl)).before (reads_pure _)
  | memory l =>
    have hnone : (d.withImports types before).memory = none := by
      simp [withImports, h.oneMemory rfl]
    have hstate : d.withImports types (before ++ [⟨ref, .memory l⟩]) =
        { d.withImports types before with
          imports := (d.withImports types before).imports ++ [⟨ref, .memory⟩]
          memory := some (l.extent (some ref)) } := by
      simp [withImports, Source.Import.record, Source.Item.kind, Source.Import.func?,
        Source.Import.table?, Source.Import.memory?, Source.Import.global?, h.oneMemory rfl]
    rw [hstate]
    refine .ite_neg (by simp [hnone]) ?_
    exact (reads_memoryExtent (h.memory _ rfl)).before (reads_pure _)
  | global type isMutable =>
    have hstate : d.withImports types (before ++ [⟨ref, .global type isMutable⟩]) =
        { d.withImports types before with
          imports := (d.withImports types before).imports ++ [⟨ref, .global⟩]
          globals := (d.withImports types before).globals.push
            { type, isMutable, imported := some ref } } := by
      simp [withImports, Source.Import.record, Source.Item.kind, Source.Import.func?,
        Source.Import.table?, Source.Import.memory?, Source.Import.global?]
    rw [hstate]
    exact (reads_valType type).bind ((reads_mutability isMutable).before (reads_pure _))

/-- The section of imports is read, if each fits behind those before it. -/
theorem reads_importSection (types : List Signature) {imports : List Source.Import}
    (htypes : d.types = types.toArray) (hd : d.withImports types [] = d)
    (h : ∀ before i after, imports = before ++ i :: after → Fits types before i) :
    Reads (importSection d) w pos (vec Source.Import.bytes imports)
      (d.withImports types imports) :=
  reads_entries (d.withImports types) (fun i _ => by simp [Source.Import.bytes, text, sized]) hd
    fun before i after heq => reads_importEntry htypes (h before i after heq)

/-! ## Functions, tables and memories -/

/-- The section of functions is read: their types, with bodies yet to come. -/
theorem reads_functionSection (types : List Signature) {functions : List Source.Func}
    (htypes : d.types = types.toArray) (hlen : types.length ≤ 2 ^ 32)
    (h : ∀ f ∈ functions, f.typeIndex < types.length) :
    Reads (functionSection d) w pos (vec (fun f => u32 f.typeIndex) functions)
      { d with
        functions := d.functions ++ (functions.map (Source.Func.declared types)).toArray } := by
  refine .vec (fun f _ => u32_ne_nil) (Reads.before (reads_replicate (g := fun f =>
    (f.typeIndex, types.getD f.typeIndex {})) fun f hf _ => ?_) ?_)
  · have hlt := h f hf
    exact reads_typeUse (by simp [htypes, hlt]) (by omega)
  · have hmap : (functions.map fun f => (f.typeIndex, types.getD f.typeIndex {})).map
        (fun use => ({ typeIndex := use.1, type := use.2 } : Function)) =
          functions.map (Source.Func.declared types) := by
      rw [List.map_map]
      rfl
    rw [← hmap]
    exact reads_pure _

/-- The section of the one table is read, if none was imported. -/
theorem reads_tableSection {l : Source.Limits} (hd : d.table = none)
    (h : Source.IsBounded (2 ^ 32 - 1) (l.extent none)) :
    Reads (tableSection d) w pos (vec Source.Limits.tableBytes [l])
      { d with table := some (l.extent none) } := by
  refine .vec (fun _ _ => List.cons_ne_nil _ _) (.ite_neg (by simp [hd]) (.ite_pos rfl ?_))
  rw [List.flatMap_singleton]
  exact reads_referenceType.bind ((reads_extent h).before (reads_pure _))

/-- The section of the one memory is read, if none was imported. -/
theorem reads_memorySection {l : Source.Limits} (hd : d.memory = none)
    (h : Source.IsBounded Memory.maxPages (l.extent none)) :
    Reads (memorySection d) w pos (vec Source.Limits.bytes [l])
      { d with memory := some (l.extent none) } := by
  have hne (l : Source.Limits) : l.bytes ≠ [] := by
    unfold Source.Limits.bytes
    split <;> exact List.cons_ne_nil _ _
  refine .vec (fun l _ => hne l) (.ite_neg (by simp [hd]) (.ite_pos rfl ?_))
  rw [List.flatMap_singleton]
  exact (reads_memoryExtent h).before (reads_pure _)

/-! ## Globals and exports -/

theorem append_toArray_concat {α : Type} (xs : Array α) (l : List α) (a : α) :
    xs ++ (l ++ [a]).toArray = (xs ++ l.toArray).push a := by
  simp

/-- The section of globals is read, if each initialiser is a constant of the globals before it; each
global records where its initialiser starts. -/
theorem reads_globalSection {globals : List Source.GlobalDecl}
    (hsize : d.globals.size + globals.length ≤ 2 ^ 32)
    (h : ∀ before g after, globals = before ++ g :: after → Source.IsConstant
      (d.globals ++ (before.map Source.GlobalDecl.declared).toArray) g.type g.init) :
    Reads (globalSection d) w pos (vec Source.GlobalDecl.bytes globals)
      { d with globals := d.globals ++ (place Source.GlobalDecl.bytes Source.GlobalDecl.record
          (pos + (u32 globals.length).length) globals).toArray } := by
  refine reads_entries (fun before => { d with
    globals := d.globals ++ (place Source.GlobalDecl.bytes Source.GlobalDecl.record
      (pos + (u32 globals.length).length) before).toArray }) (fun _ _ => List.cons_ne_nil _ _)
      ?_ fun before g after heq => ?_
  · simp [place]
  refine (reads_valType g.type).bind ((reads_mutability g.isMutable).bind
    (.after reads_position ((ConstExpr.reads_check ?_ ?_).before ?_)))
  · refine (h before g after heq).congr ?_
    simp only [Array.toList_append, List.map_append, List.map_map]
    congr 1
    exact (map_place (by intros; rfl)).symm
  · have hlen : globals.length = before.length + (after.length + 1) := by
      rw [heq, List.length_append, List.length_cons]
    simp only [Array.size_append, List.size_toArray, length_place]
    omega
  · rw [place_concat, append_toArray_concat]
    exact reads_pure _

/-- The item of an export exists. -/
def Provides (d : Draft) (e : Export) : Prop :=
  match e.kind with
  | .func => e.index < d.functions.size
  | .table => e.index = 0 ∧ d.table.isSome
  | .memory => e.index = 0 ∧ d.memory.isSome
  | .global => e.index < d.globals.size

theorem not_absent {index : Nat} {item : Option Extent} (h : index = 0 ∧ item.isSome) :
    ¬(index ≠ 0 ∨ item.isNone) := by
  rintro (hne | hnone)
  · exact hne h.1
  · rw [Option.isNone_iff_eq_none.1 hnone] at h
    cases h.2

/-- An export is read, if its name is new and what it exports is there. -/
theorem reads_exportEntry {e : Export} (hname : d.export? e.name = none) (hindex : e.index < 2 ^ 32)
    (h : d.Provides e) :
    Reads (exportEntry d) w pos e.bytes { d with exports := d.exports ++ [e] } := by
  obtain ⟨name, kind, index⟩ := e
  refine (reads_text name).bind ((reads_externKind kind).bind ((reads_u32 hindex).before
    (.ite_neg (by simp [hname]) ?_)))
  cases kind with
  | func => exact .ite_neg (Nat.not_le.2 h) (reads_pure _)
  | table => exact .ite_neg (not_absent h) (reads_pure _)
  | memory => exact .ite_neg (not_absent h) (reads_pure _)
  | global => exact .ite_neg (Nat.not_le.2 h) (reads_pure _)

/-- The section of exports is read, if their names differ and what they export is there. -/
theorem reads_exportSection {exports : List Export} (hd : d.exports = [])
    (hnames : (exports.map Export.name).Nodup) (hindex : ∀ e ∈ exports, e.index < 2 ^ 32)
    (h : ∀ e ∈ exports, d.Provides e) :
    Reads (exportSection d) w pos (vec Export.bytes exports) { d with exports } := by
  refine reads_entries (fun before => { d with exports := before }) (fun e _ => ?_) (by rw [← hd])
    fun before e after heq => ?_
  · simp [Export.bytes]
  have he : e ∈ exports := heq ▸ List.mem_append_right _ (List.mem_cons_self ..)
  refine reads_exportEntry ?_ (hindex e he) (h e he)
  rw [heq, List.map_append, List.map_cons, List.nodup_append] at hnames
  refine List.find?_eq_none.2 fun e' he' hsame => ?_
  exact hnames.2.2 e'.name (List.mem_map_of_mem he') e.name (List.mem_cons_self ..)
    (of_decide_eq_true hsame)

/-- The section of the start function is read, if there is such a function. -/
theorem reads_startSection {k : Nat} (hk : k < d.functions.size) (hlt : k < 2 ^ 32) :
    Reads (startSection d) w pos (u32 k) { d with start := some k } :=
  (reads_u32 hlt).before (.ite_neg (Nat.not_le.2 hk) (reads_pure _))

/-! ## Segments -/

/-- How a segment of elements is used is read from its flags, and where its offset starts is
recorded. -/
theorem reads_elementMode {m : Source.ElementMode} {flags : Nat}
    (hbit₀ : flags.testBit 0 = m.bits.testBit 0) (hbit₁ : flags.testBit 1 = m.bits.testBit 1)
    (hsize : d.globals.size ≤ 2 ^ 32)
    (h : ∀ b offset, m = .active b offset →
      d.table.isSome ∧ Source.IsConstant d.globals .i32 offset) :
    Reads (elementMode d flags) w pos m.bytes (m.record pos) := by
  unfold elementMode
  rw [hbit₀, hbit₁]
  cases m with
  | passive => exact reads_pure _
  | declarative => exact reads_pure _
  | active b offset =>
    obtain ⟨htable, hconst⟩ := h b offset rfl
    have hsome : d.table.isNone = false := by rw [Option.isNone_eq_false_iff]; exact htable
    have hrest (pos : Nat) : Reads (do
        if d.table.isNone then Reader.invalid .unknownTable
        let offset ← Reader.position
        ConstExpr.check d.globals .i32
        pure (SegmentMode.active offset)) w pos offset.bytes (.active pos) :=
      .ite_neg (by simp [hsome]) (.after reads_position
        ((ConstExpr.reads_check hconst hsize).before (reads_pure _)))
    cases b with
    | false =>
      exact .ite_neg (show ¬Nat.testBit 0 0 by decide)
        (.ite_neg (show ¬Nat.testBit 0 1 by decide) (hrest pos))
    | true =>
      exact .ite_neg (show ¬Nat.testBit 2 0 by decide) (.ite_pos (show Nat.testBit 2 1 by decide)
        ((reads_u32 (n := 0) (by decide)).bind (.ite_neg (by simp) (hrest _))))

/-- What the flags of an element segment tell. -/
theorem flags_spec (e : Source.Element) : e.flags ≤ 7 ∧ e.flags % 4 = e.mode.bits ∧
    e.flags.testBit 0 = e.mode.bits.testBit 0 ∧ e.flags.testBit 1 = e.mode.bits.testBit 1 ∧
      e.flags.testBit 2 = decide (e.references.bit = 4) := by
  have hbits : e.mode.bits < 4 := by
    cases e.mode with
    | active b => cases b <;> simp [Source.ElementMode.bits]
    | _ => decide
  have hbit : e.references.bit = 0 ∨ e.references.bit = 4 := by
    cases e.references with
    | funcs => exact .inl rfl
    | exprs => exact .inr rfl
  rw [Source.Element.flags]
  generalize e.mode.bits = m at hbits
  rcases hbit with h | h <;> rw [h] <;> revert m <;> decide

/-- The references of a segment are read in both forms, as indices and as expressions. -/
theorem reads_references {refs : Source.References} {named : Bool}
    (hnamed : named = decide (refs.bit = 4)) (hsize : d.functions.size ≤ 2 ^ 32)
    (h : ∀ k, some k ∈ refs.funcs? → k < d.functions.size) :
    Reads (do
      Reader.replicate (← Reader.u32) do
        let func ← if named then elementExpr else some <$> Reader.u32
        if d.functions.size ≤ func.getD 0 ∧ func.isSome then Reader.invalid .unknownFunc
        pure func) w pos refs.bytes refs.funcs? := by
  have hcheck (func : Option Nat) (hmem : func ∈ refs.funcs?) (pos : Nat) :
      Reads (do
        if d.functions.size ≤ func.getD 0 ∧ func.isSome then Reader.invalid .unknownFunc
        pure func) w pos [] func := by
    refine .ite_neg ?_ (reads_pure _)
    rintro ⟨hle, hsome⟩
    obtain ⟨k, rfl⟩ := Option.isSome_iff_exists.1 hsome
    exact Nat.not_lt.2 hle (h k hmem)
  subst hnamed
  cases refs with
  | funcs indices =>
    refine .vec (fun _ _ => u32_ne_nil) (reads_replicate fun k hk pos => ?_)
    have hmem : some k ∈ (Source.References.funcs indices).funcs? := List.mem_map_of_mem hk
    exact Reads.before (((reads_u32 (Nat.lt_of_lt_of_le (h k hmem) hsize)).map some)) (hcheck _ hmem _)
  | exprs refs =>
    refine .vec (fun func _ => by cases func <;> exact List.cons_ne_nil _ _)
      (reads_items fun func hmem pos => ?_)
    refine (reads_elementExpr fun k hk => ?_).before (hcheck func hmem _)
    exact Nat.lt_of_lt_of_le (h k (hk ▸ hmem)) hsize

/-- What an element segment must satisfy. -/
structure Admits (d : Draft) (e : Source.Element) : Prop where
  active : ∀ b offset, e.mode = .active b offset →
    d.table.isSome ∧ Source.IsConstant d.globals .i32 offset
  funcs : ∀ k, some k ∈ e.references.funcs? → k < d.functions.size

/-- A segment of elements is read, whichever of the eight flags it has. -/
theorem reads_elementEntry {e : Source.Element} (hglobals : d.globals.size ≤ 2 ^ 32)
    (hfunctions : d.functions.size ≤ 2 ^ 32) (h : Admits d e) :
    Reads (elementEntry d) w pos e.bytes { d with elements := d.elements ++ [e.record pos] } := by
  obtain ⟨hle, hlow, hbit₀, hbit₁, hbit₂⟩ := flags_spec e
  refine (reads_u32 (by omega)).bind (.ite_neg (Nat.not_lt.2 hle)
    ((reads_elementMode hbit₀ hbit₁ hglobals h.active).bind ?_))
  by_cases hbits : e.mode.bits = 0
  · rw [Source.Element.kindBytes, if_pos hbits, List.nil_append]
    exact .ite_neg (by rw [hlow, hbits]; decide)
      (.assoc ((reads_references hbit₂ hfunctions h.funcs).before (reads_pure _)))
  rw [Source.Element.kindBytes, if_neg hbits]
  refine .ite_pos (by rwa [hlow]) ?_
  obtain ⟨mode, references⟩ := e
  cases references with
  | funcs indices =>
    refine (reads_byte 0x00).bind (.ite_neg (Bool.eq_false_iff.1 hbit₂) (.ite_neg (by simp) ?_))
    exact .assoc ((reads_references hbit₂ hfunctions h.funcs).before (reads_pure _))
  | exprs refs =>
    refine (reads_byte 0x70).bind (.ite_pos hbit₂ (.ite_neg (by simp) ?_))
    exact .assoc ((reads_references hbit₂ hfunctions h.funcs).before (reads_pure _))

/-- The section of elements is read: its segments, in order, with the places of their offsets. -/
theorem reads_elementSection {elements : List Source.Element} (hd : d.elements = [])
    (hglobals : d.globals.size ≤ 2 ^ 32) (hfunctions : d.functions.size ≤ 2 ^ 32)
    (h : ∀ e ∈ elements, Admits d e) :
    Reads (elementSection d) w pos (vec Source.Element.bytes elements)
      { d with
        elements := place Source.Element.bytes Source.Element.record
          (pos + (u32 elements.length).length) elements } := by
  let start := pos + (u32 elements.length).length
  refine reads_entries (fun before => { d with
    elements := place Source.Element.bytes Source.Element.record start before }) (fun e _ => ?_)
    (by rw [place, ← hd]) fun before e after heq => ?_
  · simp [Source.Element.bytes, u32_ne_nil]
  · have he : e ∈ elements := heq ▸ List.mem_append_right _ (List.mem_cons_self ..)
    rw [place_concat]
    exact reads_elementEntry hglobals hfunctions ⟨(h e he).active, (h e he).funcs⟩

/-- The announced number of data segments is read. -/
theorem reads_dataCountSection {n : Nat} (h : n < 2 ^ 32) :
    Reads (dataCountSection d) w pos (u32 n) { d with dataCount := some n } :=
  (reads_u32 h).before (reads_pure _)

/-- How a data segment is used is read from its flag, and where its offset starts is recorded. -/
theorem reads_dataMode {m : Source.DataMode} (hsize : d.globals.size ≤ 2 ^ 32)
    (h : ∀ b offset, m = .active b offset →
      d.memory.isSome ∧ Source.IsConstant d.globals .i32 offset) :
    Reads (dataMode d) w pos (u32 m.flag ++ m.bytes) (m.record (pos + (u32 m.flag).length)) := by
  cases m with
  | passive => exact (reads_u32 (n := 1) (by decide)).bind (.ite_pos rfl (reads_pure _))
  | active b offset =>
    obtain ⟨hmemory, hconst⟩ := h b offset rfl
    have hsome : d.memory.isNone = false := by rw [Option.isNone_eq_false_iff]; exact hmemory
    have hrest (pos : Nat) : Reads (do
        if d.memory.isNone then Reader.invalid .unknownMemory
        let offset ← Reader.position
        ConstExpr.check d.globals .i32
        pure (SegmentMode.active offset)) w pos offset.bytes (.active pos) :=
      .ite_neg (by simp [hsome]) (.after reads_position
        ((ConstExpr.reads_check hconst hsize).before (reads_pure _)))
    cases b with
    | false =>
      exact (reads_u32 (n := 0) (by decide)).bind (.ite_neg (by decide)
        (.ite_pos (by decide) (.ite_neg (by decide) (hrest _))))
    | true =>
      exact (reads_u32 (n := 2) (by decide)).bind (.ite_neg (by decide)
        (.ite_pos (by decide) (.ite_pos rfl
          ((reads_u32 (n := 0) (by decide)).bind (.ite_neg (by simp) (hrest _))))))

/-- A data segment is read, and the range of its payload recorded. -/
theorem reads_dataEntry {s : Source.Data} (hsize : d.globals.size ≤ 2 ^ 32)
    (h : ∀ b offset, s.mode = .active b offset →
      d.memory.isSome ∧ Source.IsConstant d.globals .i32 offset) :
    Reads (dataEntry d) w pos s.bytes
      { d with dataSegments := d.dataSegments ++ [s.record pos] } := by
  have hstart : s.start pos =
      pos + (u32 s.mode.flag ++ s.mode.bytes).length + (u32 s.payload.length).length := by
    rw [Source.Data.start, List.length_append]
    omega
  rw [Source.Data.bytes, ← List.append_assoc, Source.Data.record, hstart]
  exact (reads_dataMode hsize h).bind (.sized (.require rfl fun _ =>
    (reads_skip s.payload).before (reads_pure _)))

/-- The section of data is read: its segments, in order, with the places of their payloads. -/
theorem reads_dataSection {segments : List Source.Data} (hd : d.dataSegments = [])
    (hsize : d.globals.size ≤ 2 ^ 32)
    (h : ∀ s ∈ segments, ∀ b offset, s.mode = .active b offset →
      d.memory.isSome ∧ Source.IsConstant d.globals .i32 offset) :
    Reads (dataSection d) w pos (vec Source.Data.bytes segments)
      { d with
        dataSegments := place Source.Data.bytes Source.Data.record
          (pos + (u32 segments.length).length) segments } := by
  let start := pos + (u32 segments.length).length
  refine reads_entries (fun before => { d with
    dataSegments := place Source.Data.bytes Source.Data.record start before }) (fun e _ => ?_)
    (by rw [place, ← hd]) fun before s after heq => ?_
  · simp [Source.Data.bytes, u32_ne_nil]
  · have hs : s ∈ segments := heq ▸ List.mem_append_right _ (List.mem_cons_self ..)
    rw [place_concat]
    exact reads_dataEntry hsize (h s hs)

/-! ## Code -/

/-- A run of locals of one type is read, as long as the cap leaves room for it. -/
theorem reads_localsEntry {locals : Array ValType} {run : Nat × ValType}
    (h : locals.size + run.1 ≤ Module.maxLocals) :
    Reads (localsEntry locals) w pos (Source.runBytes run)
      (locals ++ Array.replicate run.1 run.2) := by
  have hlt : run.1 < 2 ^ 32 := Nat.lt_of_le_of_lt (Nat.le_trans (Nat.le_add_left ..) h) (by decide)
  exact (reads_u32 hlt).bind ((reads_valType run.2).before
    (.ite_neg (Nat.not_lt.2 h) (reads_pure _)))

/-- The declarations of locals are read: behind the parameters come all runs, expanded. -/
theorem reads_locals {params : List ValType} {runs : List (Nat × ValType)}
    (h : runs ≠ [] → params.length + (Source.expand runs).length ≤ Module.maxLocals) :
    Reads (do Reader.iterate (← Reader.u32) localsEntry params.toArray) w pos
      (vec Source.runBytes runs) (params ++ Source.expand runs).toArray := by
  refine reads_entries (fun before => (params ++ Source.expand before).toArray) (fun run _ => ?_)
    (by simp [Source.expand]) fun before run after heq => ?_
  · simp [Source.runBytes]
  have hexpand : (params ++ Source.expand (before ++ [run])).toArray =
      (params ++ Source.expand before).toArray ++ Array.replicate run.1 run.2 := by
    simp [Source.expand]
  have hle : params.length + (Source.expand before).length + run.1 ≤ Module.maxLocals := by
    have hall := h (by simp [heq])
    rw [heq, List.append_cons] at hall
    simp only [Source.expand, List.flatMap_append, List.length_append, List.flatMap_singleton,
      List.length_replicate] at hall ⊢
    omega
  rw [hexpand]
  exact reads_localsEntry (by simpa using hle)

/-- As many functions are imported as stand in front of those of the module. -/
theorem importedCount_of_functions {m : Module} {imported : List Function} (own : List Function)
    (hm : m.functions = (imported ++ own).toArray) (himported : ∀ f ∈ imported, f.imported.isSome)
    (hown : ∀ f ∈ own, f.imported = none) : m.importedCount = imported.length := by
  rw [Module.importedCount, hm, List.takeWhile_toArray, List.size_toArray,
    List.takeWhile_append_of_pos himported, List.length_append]
  cases own with
  | nil => rfl
  | cons f own => simp [hown f (List.mem_cons_self ..)]

/-- The entry behind a list is the one that its length points to. -/
theorem modify_append_cons {α : Type} (xs : List α) (a : α) (ys : List α) (g : α → α) :
    (xs ++ a :: ys).toArray.modify xs.length g = (xs ++ g a :: ys).toArray := by
  rw [List.modify_toArray]
  induction xs with
  | nil => rfl
  | cons x xs ih => simpa using ih

/-- The draft when the bodies of the first functions have been read. -/
def withBodies (d : Draft) (imported : List Function) (types : List Signature)
    (functions : List Source.Func) (start : Nat) (before : List Source.Func) : Draft :=
  { d with
    functions := (imported ++ (place Source.Func.bytes (Source.Func.record types) start before ++
      (functions.drop before.length).map (Source.Func.declared types))).toArray
    bodyCount := before.length }

/-- A body is read into the function it belongs to, those before it having theirs already. -/
theorem reads_bodyEntry {imported : List Function} {types : List Signature}
    {functions before after : List Source.Func} {f : Source.Func} {start : Nat}
    (heq : functions = before ++ f :: after) (hpos : pos = start + (before.flatMap Source.Func.bytes).length)
    (h : f.runs ≠ [] → (types.getD f.typeIndex {}).params.length +
      (Source.expand f.runs).length ≤ Module.maxLocals) :
    Reads (bodyEntry imported.length (d.withBodies imported types functions start before)) w pos
      f.bytes (d.withBodies imported types functions start (before ++ [f])) := by
  let done := imported ++ place Source.Func.bytes (Source.Func.record types) start before
  let todo := after.map (Source.Func.declared types)
  have hdone : done.length = imported.length + before.length := by simp [done]
  have hbefore : d.withBodies imported types functions start before =
      { d with functions := (done ++ f.declared types :: todo).toArray
               bodyCount := before.length } := by
    simp [withBodies, done, todo, heq]
  have hafter : d.withBodies imported types functions start (before ++ [f]) =
      { d with functions := (done ++ f.record types pos :: todo).toArray
               bodyCount := before.length + 1 } := by
    simp [withBodies, done, todo, heq, place_concat, hpos]
  have hfound : (done ++ f.declared types :: todo).toArray[imported.length + before.length]? =
      some (f.declared types) := by
    rw [← hdone, List.getElem?_toArray, List.getElem?_append_right (Nat.le_refl _), Nat.sub_self]
    rfl
  have hmodify : (done ++ f.record types pos :: todo).toArray =
      (done ++ f.declared types :: todo).toArray.modify (imported.length + before.length)
        fun g => { g with
          locals := (types.getD f.typeIndex {}).params ++ Source.expand f.runs
          body := ⟨f.start pos, f.start pos + f.code.length⟩ } := by
    rw [← hdone, modify_append_cons]
    rfl
  have hstop : f.start pos + f.code.length = pos +
      (u32 (vec Source.runBytes f.runs ++ f.code).length).length +
        (vec Source.runBytes f.runs ++ f.code).length := by
    rw [Source.Func.start, List.length_append]
    omega
  rw [hbefore, hafter, hmodify, hstop]
  refine .sized (.after reads_position (.require rfl fun hle => ?_))
  simp only [hfound]
  refine Reads.bind (.within (.assoc ((reads_locals h).before (.after reads_position
    (reads_pure _)))) ?_ hle) ((reads_seek ?_).before (reads_pure _))
  · rw [List.length_append]
    omega
  · rw [List.length_append]
    omega

/-- The section of code is read: each function gets its locals and the range of its body. -/
theorem reads_codeSection (imported : List Function) (types : List Signature)
    {functions : List Source.Func}
    (hd : d.withBodies imported types functions (pos + (u32 functions.length).length) [] = d)
    (himported : ∀ f ∈ imported, f.imported.isSome)
    (h : ∀ f ∈ functions, f.runs ≠ [] → (types.getD f.typeIndex {}).params.length +
      (Source.expand f.runs).length ≤ Module.maxLocals) :
    Reads (codeSection d) w pos (vec Source.Func.bytes functions)
      (d.withBodies imported types functions (pos + (u32 functions.length).length) functions) := by
  let start := pos + (u32 functions.length).length
  have hfunctions : d.functions =
      (imported ++ functions.map (Source.Func.declared types)).toArray :=
    (congrArg (fun d => d.functions) hd).symm
  have hcount : d.importedCount = imported.length :=
    importedCount_of_functions _ hfunctions himported fun f hf => by
      obtain ⟨_, _, rfl⟩ := List.mem_map.1 hf
      rfl
  refine .vec (fun f _ => ?_) (.ite_neg ?_ ?_)
  · simp [Source.Func.bytes, sized, u32_ne_nil]
  · simp [hcount, hfunctions]
  · have hstep (before : List Source.Func) (f : Source.Func) (after : List Source.Func)
        (heq : functions = before ++ f :: after) :
        Reads (bodyEntry imported.length (d.withBodies imported types functions start before)) w
          (start + (before.flatMap Source.Func.bytes).length) f.bytes
          (d.withBodies imported types functions start (before ++ [f])) :=
      reads_bodyEntry heq rfl (h f (heq ▸ List.mem_append_right _ (List.mem_cons_self ..)))
    have hall : Reads (Reader.iterate functions.length (bodyEntry imported.length)
        (d.withBodies imported types functions start [])) w start
        (functions.flatMap Source.Func.bytes)
        (d.withBodies imported types functions start functions) := reads_iterate _ hstep
    rw [hd] at hall
    rwa [hcount]

end Draft

end WasmEngine
