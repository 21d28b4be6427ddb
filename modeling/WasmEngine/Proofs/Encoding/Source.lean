import WasmEngine.Module.Decode
import WasmEngine.Proofs.ConstExpr.Term
import WasmEngine.Proofs.Encoding.Utf8
import WasmEngine.Proofs.Leb128.Shortest

/-!
# Proofs/Encoding/Source — modules in abstract syntax and their bytes

A `Source` is a module before it is written down: lists of its parts, without offsets.
`Source.encode` writes it in the binary format, empty sections left out and numbers in their shortest
form.  `Source.toModule` is the module that one should get back: the same parts, with the places at
which the encoding has put bodies, payloads and expressions.  `Source.IsValid` collects what a module
must satisfy to be read at all.
-/

namespace WasmEngine

namespace Encoding

/-! ## Bytes of numbers, vectors and names -/

/-- An unsigned 32-bit integer. -/
def u32 (n : Nat) : List UInt8 := Leb128.unsignedBytes 4 n

variable {α β : Type}

/-- Items, behind their number. -/
def vec (f : α → List UInt8) (as : List α) : List UInt8 := u32 as.length ++ as.flatMap f

/-- Bytes, behind their number. -/
def sized (bs : List UInt8) : List UInt8 := u32 bs.length ++ bs

/-- A name: its length in bytes and its text in UTF-8. -/
def text (s : String) : List UInt8 := sized (Utf8.bytes s)

/-- The records of items that are written one behind the other from a position on. -/
def place (f : α → List UInt8) (record : Nat → α → β) : Nat → List α → List β
  | _, [] => []
  | pos, a :: as => record pos a :: place f record (pos + (f a).length) as

section Place

variable {f : α → List UInt8} {record : Nat → α → β} {pos : Nat} {as bs : List α}

/-- What comes behind others is placed behind their bytes. -/
theorem place_append : place f record pos (as ++ bs) =
    place f record pos as ++ place f record (pos + (as.flatMap f).length) bs := by
  induction as generalizing pos with
  | nil => rfl
  | cons a as ih => simp [place, ih, Nat.add_assoc]

theorem place_concat {a : α} : place f record pos (as ++ [a]) =
    place f record pos as ++ [record (pos + (as.flatMap f).length) a] := place_append

/-- What does not depend on places is that of the items. -/
theorem map_place {γ : Type} {g : β → γ} {k : α → γ} (h : ∀ pos a, g (record pos a) = k a) :
    (place f record pos as).map g = as.map k := by
  induction as generalizing pos with
  | nil => rfl
  | cons a as ih => rw [place, List.map_cons, List.map_cons, h, ih]

@[simp] theorem length_place : (place f record pos as).length = as.length := by
  induction as generalizing pos with
  | nil => rfl
  | cons a as ih => rw [place, List.length_cons, List.length_cons, ih]

end Place

end Encoding

open Encoding

/-- The opcode of an operator of constant expressions. -/
def ConstExpr.opcode : Width → IntBinOp → UInt8
  | .w32, .add => 0x6a
  | .w32, .sub => 0x6b
  | .w32, .mul => 0x6c
  | .w64, .add => 0x7c
  | .w64, .sub => 0x7d
  | .w64, .mul => 0x7e
  | _, _ => 0x00

namespace ConstExpr.Term

/-- The bytes of a literal. -/
def literal : Value → List UInt8
  | .i32 v => 0x41 :: Leb128.signedBytes 4 v.toInt32.toInt
  | .i64 v => 0x42 :: Leb128.signedBytes 9 v.toInt64.toInt
  | .f32 v => 0x43 :: bytesOfNat v.toNat 4
  | .f64 v => 0x44 :: bytesOfNat v.toNat 8

/-- The bytes of a constant expression, without the `end` behind it. -/
def code : Term → List UInt8
  | value v => literal v
  | global index => 0x23 :: u32 index
  | arith w op a b => a.code ++ (b.code ++ [opcode w op])

/-- The bytes of a constant expression and its `end`. -/
def bytes (t : Term) : List UInt8 := t.code ++ [0x0b]

/-- All operators are additions, subtractions and multiplications. -/
def IsSupported : Term → Prop
  | value _ | global _ => True
  | arith _ op a b => (op = .add ∨ op = .sub ∨ op = .mul) ∧ a.IsSupported ∧ b.IsSupported

end ConstExpr.Term

open ConstExpr (Term)

/-- The bytes of a function type. -/
def Signature.bytes (s : Signature) : List UInt8 :=
  0x60 :: (vec (fun t => [t.toByte]) s.params ++ vec (fun t => [t.toByte]) s.results)

/-- The bytes of an export. -/
def Export.bytes (e : Export) : List UInt8 := text e.name ++ (e.kind.toByte :: u32 e.index)

namespace Source

/-! ## Parts of a module -/

/-- The bounds of a table or of a memory. -/
structure Limits where
  min : Nat
  max : Option Nat

/-- What is imported. -/
inductive Item where
  | func (typeIndex : Nat)
  | table (limits : Limits)
  | memory (limits : Limits)
  | global (type : ValType) (isMutable : Bool)

/-- An import. -/
structure Import where
  ref : ImportName
  item : Item

/-- A function with a body. -/
structure Func where
  typeIndex : Nat
  /-- The declared locals, in runs of one type. -/
  runs : List (Nat × ValType)
  /-- The instructions. -/
  code : List UInt8

/-- A global with its initialiser. -/
structure GlobalDecl where
  type : ValType
  isMutable : Bool
  init : Term

/-- When an element segment is copied.  An active segment may name the table that it is for. -/
inductive ElementMode where
  | active (isExplicit : Bool) (offset : Term)
  | passive
  | declarative

/-- The elements of a segment: functions, or expressions that give functions or null. -/
inductive References where
  | funcs (indices : List Nat)
  | exprs (refs : List (Option Nat))

/-- An element segment. -/
structure Element where
  mode : ElementMode
  references : References

/-- When a data segment is copied.  An active segment may name the memory that it is for. -/
inductive DataMode where
  | active (isExplicit : Bool) (offset : Term)
  | passive

/-- A data segment. -/
structure Data where
  mode : DataMode
  payload : List UInt8

/-- A custom section. -/
structure Custom where
  name : String
  payload : List UInt8

/-! ## Their bytes -/

/-- A flag that tells whether there is a maximum, and the bounds. -/
def Limits.bytes (l : Limits) : List UInt8 :=
  match l.max with
  | none => 0x00 :: u32 l.min
  | some max => 0x01 :: (u32 l.min ++ u32 max)

/-- The reference type and the bounds of a table. -/
def Limits.tableBytes (l : Limits) : List UInt8 := 0x70 :: l.bytes

/-- The byte that tells whether a global may be set. -/
def flag (isMutable : Bool) : UInt8 := if isMutable then 1 else 0

/-- What follows the kind of an import. -/
def Item.bytes : Item → List UInt8
  | func typeIndex => u32 typeIndex
  | table limits => limits.tableBytes
  | memory limits => limits.bytes
  | global type isMutable => [type.toByte, flag isMutable]

/-- The kind of an import. -/
def Item.kind : Item → ExternKind
  | func _ => .func
  | table _ => .table
  | memory _ => .memory
  | global _ _ => .global

/-- The bytes of an import: its two names, its kind and what it is. -/
def Import.bytes (i : Import) : List UInt8 :=
  text i.ref.module ++ (text i.ref.name ++ (i.item.kind.toByte :: i.item.bytes))

/-- A run of locals. -/
def runBytes (run : Nat × ValType) : List UInt8 := u32 run.1 ++ [run.2.toByte]

/-- The body of a function: the declarations of locals and the instructions. -/
def Func.bytes (f : Func) : List UInt8 := sized (vec runBytes f.runs ++ f.code)

/-- The bytes of a global: its type, whether it can be written, and its initialiser. -/
def GlobalDecl.bytes (g : GlobalDecl) : List UInt8 :=
  g.type.toByte :: flag g.isMutable :: g.init.bytes

/-- The two low bits of the flags of an element segment. -/
def ElementMode.bits : ElementMode → Nat
  | active false _ => 0
  | active true _ => 2
  | passive => 1
  | declarative => 3

/-- The third bit of the flags of an element segment. -/
def References.bit : References → Nat
  | funcs _ => 0
  | exprs _ => 4

/-- The flags of an element segment. -/
def Element.flags (e : Element) : Nat := e.mode.bits + e.references.bit

/-- The index of the only table or memory, if it is to be named. -/
def explicitIndex (isExplicit : Bool) : List UInt8 := if isExplicit then u32 0 else []

/-- The table and the offset of an active segment. -/
def ElementMode.bytes : ElementMode → List UInt8
  | active isExplicit offset => explicitIndex isExplicit ++ offset.bytes
  | passive | declarative => []

/-- The kind of the elements, which the segments with neither of the low bits leave out. -/
def Element.kindBytes (e : Element) : List UInt8 :=
  if e.mode.bits = 0 then []
  else match e.references with
    | .funcs _ => [0x00]
    | .exprs _ => [0x70]

/-- An expression that gives a function or null. -/
def exprBytes : Option Nat → List UInt8
  | some index => 0xd2 :: (u32 index ++ [0x0b])
  | none => [0xd0, 0x70, 0x0b]

/-- The bytes of references: indices, or an expression for each. -/
def References.bytes : References → List UInt8
  | funcs indices => vec u32 indices
  | exprs refs => vec exprBytes refs

/-- The bytes of a segment of elements: its flags, its mode, the kind of its references where the
flags ask for one, and the references. -/
def Element.bytes (e : Element) : List UInt8 :=
  u32 e.flags ++ (e.mode.bytes ++ (e.kindBytes ++ e.references.bytes))

/-- The flag of a data segment. -/
def DataMode.flag : DataMode → Nat
  | active false _ => 0
  | active true _ => 2
  | passive => 1

/-- The memory and the offset of an active segment. -/
def DataMode.bytes : DataMode → List UInt8
  | active isExplicit offset => explicitIndex isExplicit ++ offset.bytes
  | passive => []

/-- The bytes of a data segment: its flag, its mode and its payload. -/
def Data.bytes (s : Data) : List UInt8 := u32 s.mode.flag ++ (s.mode.bytes ++ sized s.payload)

/-- The name of a custom section and what stands behind it. -/
def Custom.content (c : Custom) : List UInt8 := text c.name ++ c.payload

/-- The bytes of a custom section, framed. -/
def Custom.bytes (c : Custom) : List UInt8 := 0x00 :: sized c.content

/-! ## Their records -/

/-- The bounds of a table or memory that may be imported. -/
def Limits.extent (imported : Option ImportName) (l : Limits) : Extent :=
  { min := l.min, max := l.max, imported }

/-- The functions, null references included. -/
def References.funcs? : References → List (Option Nat)
  | funcs indices => indices.map some
  | exprs refs => refs

/-- The mode of a segment, of which the flags end at a position. -/
def ElementMode.record (pos : Nat) : ElementMode → SegmentMode
  | active isExplicit _ => .active (pos + (explicitIndex isExplicit).length)
  | passive => .passive
  | declarative => .declarative

/-- What is recorded of a segment of elements whose bytes start at `pos`. -/
def Element.record (pos : Nat) (e : Element) : ElementSegment :=
  ⟨e.mode.record (pos + (u32 e.flags).length), e.references.funcs?⟩

/-- The mode of a segment, of which the flag ends at a position. -/
def DataMode.record (pos : Nat) : DataMode → SegmentMode
  | active isExplicit _ => .active (pos + (explicitIndex isExplicit).length)
  | passive => .passive

/-- Where the payload of a segment that starts at a position stands. -/
def Data.start (pos : Nat) (s : Data) : Nat :=
  pos + (u32 s.mode.flag).length + s.mode.bytes.length + (u32 s.payload.length).length

/-- What is recorded of a data segment whose bytes start at `pos`. -/
def Data.record (pos : Nat) (s : Data) : DataSegment :=
  ⟨s.mode.record (pos + (u32 s.mode.flag).length), ⟨s.start pos, s.start pos + s.payload.length⟩⟩

/-- Where the instructions of a function whose entry starts at a position stand. -/
def Func.start (pos : Nat) (f : Func) : Nat :=
  pos + (u32 (vec runBytes f.runs ++ f.code).length).length + (vec runBytes f.runs).length

/-- The locals of some runs, one by one. -/
def expand (runs : List (Nat × ValType)) : List ValType :=
  runs.flatMap fun run => List.replicate run.1 run.2

/-- A function whose body has not been read. -/
def Func.declared (types : List Signature) (f : Func) : Function :=
  { typeIndex := f.typeIndex, type := types.getD f.typeIndex {} }

/-- What is recorded of a function whose body starts at `pos`. -/
def Func.record (types : List Signature) (pos : Nat) (f : Func) : Function :=
  { f.declared types with
    locals := (types.getD f.typeIndex {}).params ++ expand f.runs
    body := ⟨f.start pos, f.start pos + f.code.length⟩ }

/-- A global without its initialiser. -/
def GlobalDecl.declared (g : GlobalDecl) : Global := { type := g.type, isMutable := g.isMutable }

/-- What is recorded of a global whose bytes start at `pos`: two of them come before the
initialiser. -/
def GlobalDecl.record (pos : Nat) (g : GlobalDecl) : Global := { g.declared with init := pos + 2 }

/-- Where the payload of a custom section that starts at a position stands. -/
def Custom.start (pos : Nat) (c : Custom) : Nat :=
  pos + 1 + (u32 c.content.length).length + (text c.name).length

/-- What is recorded of a custom section whose bytes start at `pos`. -/
def Custom.record (pos : Nat) (c : Custom) : CustomSection :=
  ⟨c.name, ⟨c.start pos, c.start pos + c.payload.length⟩⟩

/-- An entry of the import section. -/
def Import.record (i : Import) : WasmEngine.Import := ⟨i.ref, i.item.kind⟩

/-- The imported function, if it is one. -/
def Import.func? (types : List Signature) (i : Import) : Option Function :=
  match i.item with
  | .func typeIndex =>
    some { typeIndex, type := types.getD typeIndex {}, imported := some i.ref }
  | _ => none

/-- The imported table, if it is one. -/
def Import.table? (i : Import) : Option Extent :=
  match i.item with
  | .table limits => some (limits.extent (some i.ref))
  | _ => none

/-- The imported memory, if it is one. -/
def Import.memory? (i : Import) : Option Extent :=
  match i.item with
  | .memory limits => some (limits.extent (some i.ref))
  | _ => none

/-- The imported global, if it is one. -/
def Import.global? (i : Import) : Option Global :=
  match i.item with
  | .global type isMutable => some { type, isMutable, imported := some i.ref }
  | _ => none

end Source

/-! ## Modules -/

/-- A module in abstract syntax. -/
structure Source where
  types : List Signature := []
  imports : List Source.Import := []
  functions : List Source.Func := []
  table : Option Source.Limits := none
  memory : Option Source.Limits := none
  globals : List Source.GlobalDecl := []
  exports : List Export := []
  start : Option Nat := none
  elements : List Source.Element := []
  /-- Whether the number of data segments is announced. -/
  announcesData : Bool := false
  dataSegments : List Source.Data := []
  /-- The custom sections in front of each of the twelve other sections, by its place in their
  order, and behind the last one. -/
  customs : Nat → List Source.Custom := fun _ => []

namespace Source

variable (M : Source)

/-- The content of a section that is left out if it is empty. -/
def content? {α : Type} (f : α → List UInt8) (as : List α) : Option (List UInt8) :=
  if as.isEmpty then none else some (vec f as)

/-- The content of each section, by its place in their order. -/
def payload : Nat → Option (List UInt8)
  | 0 => content? Signature.bytes M.types
  | 1 => content? Import.bytes M.imports
  | 2 => content? (fun f => u32 f.typeIndex) M.functions
  | 3 => content? Limits.tableBytes M.table.toList
  | 4 => content? Limits.bytes M.memory.toList
  | 5 => content? GlobalDecl.bytes M.globals
  | 6 => content? Export.bytes M.exports
  | 7 => M.start.map u32
  | 8 => content? Element.bytes M.elements
  | 9 => if M.announcesData then some (u32 M.dataSegments.length) else none
  | 10 => content? Func.bytes M.functions
  | 11 => content? Data.bytes M.dataSegments
  | _ => none

/-- The ids of the sections in their order. -/
def ids : List UInt8 := [1, 2, 3, 4, 5, 6, 7, 8, 9, 12, 10, 11]

/-- A section with its id and its length, unless it is left out. -/
def sectionBytes (k : Nat) : List UInt8 :=
  match M.payload k with
  | some content => ids.getD k 0 :: sized content
  | none => []

/-- The custom sections in front of a section. -/
def gapBytes (k : Nat) : List UInt8 := (M.customs k).flatMap Custom.bytes

/-- All bytes in front of a section. -/
def upTo : Nat → List UInt8
  | 0 => Module.magic ++ Module.version ++ M.gapBytes 0
  | k + 1 => upTo k ++ (M.sectionBytes k ++ M.gapBytes (k + 1))

/-- The bytes of a module. -/
def encode : ByteArray := ⟨(M.upTo 12).toArray⟩

/-- Where a section starts. -/
def offset (k : Nat) : Nat := (M.upTo k).length

/-- Where the custom sections in front of a section start. -/
def gapStart : Nat → Nat
  | 0 => 8
  | k + 1 => M.offset k + (M.sectionBytes k).length

/-- Where the content of a section starts. -/
def contentStart (k : Nat) : Nat :=
  M.offset k + 1 + (u32 ((M.payload k).getD []).length).length

/-- Where the items of a section with `n` items start. -/
def itemsStart (k n : Nat) : Nat := M.contentStart k + (u32 n).length

/-- The custom sections of the first `k` gaps. -/
def customSections : Nat → List CustomSection
  | 0 => []
  | k + 1 => customSections k ++
      place Custom.bytes Custom.record (M.gapStart k) (M.customs k)

/-- The functions that are imported, in the order of the imports. -/
def importedFunctions : List Function := M.imports.filterMap (Import.func? M.types)

/-- The functions that the module defines, with their bodies. -/
def definedFunctions : List Function :=
  place Func.bytes (Func.record M.types) (M.itemsStart 10 M.functions.length) M.functions

/-- The tables, of which there may be only one. -/
def tables : List Extent :=
  M.imports.filterMap Import.table? ++ M.table.toList.map (Limits.extent none)

/-- The memories, of which there may be only one. -/
def memories : List Extent :=
  M.imports.filterMap Import.memory? ++ M.memory.toList.map (Limits.extent none)

/-- The globals that are imported, in the order of the imports. -/
def importedGlobals : List Global := M.imports.filterMap Import.global?

/-- The globals that the module defines, with their initialisers. -/
def definedGlobals : List Global :=
  place GlobalDecl.bytes GlobalDecl.record (M.itemsStart 5 M.globals.length) M.globals

/-- The module that the bytes of `M` stand for. -/
def toModule : Module where
  bytes := M.encode
  types := M.types.toArray
  imports := M.imports.map Import.record
  functions := (M.importedFunctions ++ M.definedFunctions).toArray
  table := M.tables.head?
  memory := M.memories.head?
  globals := (M.importedGlobals ++ M.definedGlobals).toArray
  exports := M.exports
  start := M.start
  elements := place Element.bytes Element.record (M.itemsStart 8 M.elements.length) M.elements
  dataCount := if M.announcesData then some M.dataSegments.length else none
  dataSegments :=
    place Data.bytes Data.record (M.itemsStart 11 M.dataSegments.length) M.dataSegments
  customSections := M.customSections 13

/-! ## Validity -/

/-- How many functions there are, imported ones included. -/
def functionCount : Nat := M.importedFunctions.length + M.functions.length

/-- How many globals there are, imported ones included. -/
def globalCount : Nat := M.importedGlobals.length + M.globals.length

/-- The imported globals and the first `n` others, without their initialisers. -/
def scope (n : Nat) : Array Global :=
  (M.importedGlobals ++ (M.globals.take n).map GlobalDecl.declared).toArray

/-- The bounds are in order, and none of them exceeds a limit. -/
def IsBounded (limit : Nat) (e : Extent) : Prop :=
  e.min ≤ limit ∧ ∀ max ∈ e.max, e.min ≤ max ∧ max ≤ limit

/-- What stays within a limit stays within a larger one. -/
theorem IsBounded.mono {limit limit' : Nat} {e : Extent} (h : IsBounded limit e)
    (hle : limit ≤ limit') : IsBounded limit' e :=
  ⟨Nat.le_trans h.1 hle, fun max hmax =>
    ⟨(h.2 max hmax).1, Nat.le_trans (h.2 max hmax).2 hle⟩⟩

/-- The expression gives a value of a type and reads immutable globals among the first ones. -/
def IsConstant (globals : Array Global) (type : ValType) (t : Term) : Prop :=
  t.IsSupported ∧ t.HasType globals type

/-- Types and mutability are all that a constant expression looks at. -/
theorem IsConstant.congr {globals globals' : Array Global} {type : ValType} {t : Term}
    (h : IsConstant globals type t)
    (hsame : globals.toList.map (fun g => (g.type, g.isMutable)) =
      globals'.toList.map fun g => (g.type, g.isMutable)) : IsConstant globals' type t := by
  refine ⟨h.1, ?_⟩
  replace h := h.2
  induction h with
  | value v => exact .value v
  | @global index g hg hconst =>
    have hget := congrArg (·[index]?) hsame
    simp only [List.getElem?_map, Array.getElem?_toList, hg, Option.map_some] at hget
    obtain ⟨g', hg', heq⟩ := Option.map_eq_some_iff.1 hget.symm
    obtain ⟨htype, hmut⟩ := Prod.mk.inj heq
    rw [← htype]
    exact .global hg' (hmut.trans hconst)
  | arith _ _ iha ihb => exact .arith iha ihb

/-- The exported item exists. -/
def Provides (e : Export) : Prop :=
  match e.kind with
  | .func => e.index < M.functionCount
  | .table => e.index = 0 ∧ M.tables ≠ []
  | .memory => e.index = 0 ∧ M.memories ≠ []
  | .global => e.index < M.globalCount

/-- What a module must satisfy to be written down and to be read again: its lengths and indices are
32-bit integers, and its parts fit together. -/
structure IsValid : Prop where
  length_lt : ∀ k content, M.payload k = some content → content.length < 2 ^ 32
  customLength_lt : ∀ k ≤ 12, ∀ c ∈ M.customs k, c.content.length < 2 ^ 32
  importTypes : ∀ i ∈ M.imports, ∀ k, i.item = .func k → k < M.types.length
  functionTypes : ∀ f ∈ M.functions, f.typeIndex < M.types.length
  /-- Locals may be declared up to the cap, parameters included. -/
  locals : ∀ f ∈ M.functions, f.runs ≠ [] →
    (M.types.getD f.typeIndex {}).params.length + (expand f.runs).length ≤ Module.maxLocals
  oneTable : M.tables.length ≤ 1
  tableBounds : ∀ e ∈ M.tables, IsBounded (2 ^ 32 - 1) e
  oneMemory : M.memories.length ≤ 1
  memoryBounds : ∀ e ∈ M.memories, IsBounded Memory.maxPages e
  /-- An initialiser may read the globals before its own. -/
  initialisers : ∀ i g, M.globals[i]? = some g → IsConstant (M.scope i) g.type g.init
  exportNames : (M.exports.map Export.name).Nodup
  exports : ∀ e ∈ M.exports, M.Provides e
  start : ∀ k ∈ M.start, k < M.functionCount
  activeElements : ∀ s ∈ M.elements, ∀ isExplicit offset, s.mode = .active isExplicit offset →
    M.tables ≠ [] ∧ IsConstant (M.scope M.globals.length) .i32 offset
  elementFunctions : ∀ s ∈ M.elements, ∀ k, some k ∈ s.references.funcs? → k < M.functionCount
  activeData : ∀ s ∈ M.dataSegments, ∀ isExplicit offset, s.mode = .active isExplicit offset →
    M.memories ≠ [] ∧ IsConstant (M.scope M.globals.length) .i32 offset

end Source

end WasmEngine
