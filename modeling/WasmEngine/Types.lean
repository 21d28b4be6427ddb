/-!
# Types — value types, signatures and the kinds of imports and exports

The static vocabulary of WebAssembly: four value types with their byte codes, function signatures,
and the four kinds of external items.
-/

namespace WasmEngine

/-- The types of values. -/
inductive ValType where
  | i32
  | i64
  | f32
  | f64
deriving DecidableEq, Repr

namespace ValType

/-- The value type that a byte encodes. -/
def ofByte? (b : UInt8) : Option ValType :=
  match b with
  | 0x7f => some i32
  | 0x7e => some i64
  | 0x7d => some f32
  | 0x7c => some f64
  | _ => none

/-- The byte that encodes a value type. -/
def toByte : ValType → UInt8
  | i32 => 0x7f
  | i64 => 0x7e
  | f32 => 0x7d
  | f64 => 0x7c

@[simp] theorem ofByte?_toByte (t : ValType) : ofByte? t.toByte = some t := by
  cases t <;> rfl

/-- The name of a value type. -/
def name : ValType → String
  | i32 => "i32"
  | i64 => "i64"
  | f32 => "f32"
  | f64 => "f64"

end ValType

/-- The type of a function or of a block. -/
structure Signature where
  params : List ValType := []
  results : List ValType := []
deriving DecidableEq, Repr, Inhabited

/-- The text of a signature: both lists in parentheses, separated by an arrow. -/
def Signature.render (s : Signature) : String :=
  s!"({list s.params}) -> ({list s.results})"
where
  /-- The names of the types, separated by commas. -/
  list (ts : List ValType) : String := ", ".intercalate (ts.map ValType.name)

/-- The kinds of items that a module imports or exports. -/
inductive ExternKind where
  | func
  | table
  | memory
  | global
deriving DecidableEq, Repr

namespace ExternKind

/-- The kind that a byte encodes. -/
def ofByte? (b : UInt8) : Option ExternKind :=
  match b with
  | 0 => some func
  | 1 => some table
  | 2 => some memory
  | 3 => some global
  | _ => none

/-- The byte that encodes a kind. -/
def toByte : ExternKind → UInt8
  | func => 0
  | table => 1
  | memory => 2
  | global => 3

@[simp] theorem ofByte?_toByte (k : ExternKind) : ofByte? k.toByte = some k := by
  cases k <;> rfl

/-- The name of a kind. -/
def name : ExternKind → String
  | func => "func"
  | table => "table"
  | memory => "memory"
  | global => "global"

end ExternKind

end WasmEngine
