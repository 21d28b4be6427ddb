import WasmEngine.Error
import WasmEngine.Types

/-!
# Module/Basic — what a module consists of

A `Module` holds the decoded sections.  Function bodies, initialisers and segment contents stay in
the module's bytes and are referred to by offset.  Validation adds the side table, which tells where
each block goes on; a module without one has not been validated.
-/

namespace WasmEngine

/-- A range of byte offsets, the end excluded. -/
structure ByteRange where
  start : Nat := 0
  stop : Nat := 0
deriving DecidableEq, Repr, Inhabited

/-- The number of bytes of a range. -/
def ByteRange.length (r : ByteRange) : Nat := r.stop - r.start

/-- A function: imported, or with a body. -/
structure Function where
  typeIndex : Nat
  type : Signature
  /-- The types of the parameters, then of the declared locals. -/
  locals : List ValType := []
  /-- The instructions, without the declarations of locals. -/
  body : ByteRange := {}
  imported : Option ImportName := none
deriving DecidableEq, Repr, Inhabited

/-- The declared bounds of a table or of a memory. -/
structure Extent where
  min : Nat
  max : Option Nat
  imported : Option ImportName := none
deriving DecidableEq, Repr

/-- A global variable. -/
structure Global where
  type : ValType
  isMutable : Bool
  /-- Where the initialiser starts. -/
  init : Nat := 0
  imported : Option ImportName := none
deriving DecidableEq, Repr

/-- An entry of the import section. -/
structure Import where
  ref : ImportName
  kind : ExternKind
deriving DecidableEq, Repr

/-- An entry of the export section. -/
structure Export where
  name : String
  kind : ExternKind
  index : Nat
deriving DecidableEq, Repr

/-- When a segment is copied. -/
inductive SegmentMode where
  /-- At instantiation, to the place that the constant expression at `offset` gives. -/
  | active (offset : Nat)
  | passive
  | declarative
deriving DecidableEq, Repr

/-- A segment of function references for the table; `none` is a null reference. -/
structure ElementSegment where
  mode : SegmentMode
  funcs : List (Option Nat)
deriving DecidableEq, Repr

/-- A segment of bytes for memory. -/
structure DataSegment where
  mode : SegmentMode
  range : ByteRange
deriving DecidableEq, Repr

/-- A section that carries data for other tools. -/
structure CustomSection where
  name : String
  range : ByteRange
deriving DecidableEq, Repr

/-- Where the parts of a `block`, `loop` or `if` are.  Offsets point behind the instruction that
they belong to. -/
structure BlockJump where
  body : Nat
  /-- Behind the `else`, if there is one. -/
  elseBody : Option Nat
  /-- Behind the `end`. -/
  stop : Nat
  paramCount : Nat
  resultCount : Nat
deriving DecidableEq, Repr

/-- Block entries by the offset of the opcode, in ascending order. -/
abbrev SideTable := List (Nat × BlockJump)

namespace SideTable

/-- Adds an entry at its place, instead of an entry at the same offset. -/
def insert (offset : Nat) (jump : BlockJump) : SideTable → SideTable
  | [] => [(offset, jump)]
  | entry :: t =>
    if entry.1 < offset then entry :: insert offset jump t
    else if entry.1 = offset then (offset, jump) :: t
    else (offset, jump) :: entry :: t

/-- The entry of the block whose opcode is at `offset`. -/
def find? (offset : Nat) : SideTable → Option BlockJump
  | [] => none
  | entry :: t => if entry.1 = offset then some entry.2 else find? offset t

@[simp] theorem find?_insert_self (offset : Nat) (jump : BlockJump) (t : SideTable) :
    (t.insert offset jump).find? offset = some jump := by
  induction t with
  | nil => simp [insert, find?]
  | cons entry t ih =>
    rw [insert]
    split
    · next h => simp [find?, Nat.ne_of_lt h, ih]
    · split <;> simp [find?]

theorem find?_insert_of_ne {offset other : Nat} (h : other ≠ offset) (jump : BlockJump)
    (t : SideTable) : (t.insert offset jump).find? other = t.find? other := by
  induction t with
  | nil => simp [insert, find?, h.symm]
  | cons entry t ih =>
    rw [insert]
    split
    · simp [find?, ih]
    · split
      · next he => simp [find?, he, h.symm]
      · simp [find?, h.symm]

end SideTable

-- The instance of the core library, whatever else is imported.
local instance bytesDecidableEq : DecidableEq ByteArray := ByteArray.decEq

/-- A decoded module. -/
structure Module where
  bytes : ByteArray
  types : Array Signature := #[]
  imports : List Import := []
  functions : Array Function := #[]
  table : Option Extent := none
  memory : Option Extent := none
  globals : Array Global := #[]
  exports : List Export := []
  start : Option Nat := none
  elements : List ElementSegment := []
  dataCount : Option Nat := none
  dataSegments : List DataSegment := []
  customSections : List CustomSection := []
  /-- What validation found out about blocks; `none` before validation. -/
  sideTable : Option SideTable := none
deriving DecidableEq

namespace Module

/-- The greatest number of locals that declarations may lead to. -/
abbrev maxLocals : Nat := 50000

/-- The export of a name. -/
def export? (m : Module) (name : String) : Option Export := m.exports.find? (·.name = name)

/-- The number of imported functions; they precede the others. -/
def importedCount (m : Module) : Nat :=
  (m.functions.takeWhile (·.imported.isSome)).size

end Module

end WasmEngine
