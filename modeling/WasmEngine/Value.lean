import WasmEngine.Float.Shortest
import WasmEngine.Types

/-!
# Value — untyped slots and typed values

The engine computes on `Slot`s, 64-bit words without a tag: validation guarantees that each consumer
reads a slot at the type it was written with.  A 32-bit value occupies the low half, under zeros.
A `Value` carries its type and crosses the boundary to the embedder and to host functions.  Floats
are kept as bit patterns, so nothing is lost on the way: `Value.ofSlot_toSlot`.
-/

namespace WasmEngine

/-- An untagged operand, local or global. -/
abbrev Slot := UInt64

/-- A typed value; the numbers are bit patterns. -/
inductive Value where
  | i32 (bits : UInt32)
  | i64 (bits : UInt64)
  | f32 (bits : UInt32)
  | f64 (bits : UInt64)
deriving DecidableEq, Repr

namespace Value

/-- The type of a value. -/
def type : Value → ValType
  | i32 _ => .i32
  | i64 _ => .i64
  | f32 _ => .f32
  | f64 _ => .f64

/-- The slot that holds a value. -/
def toSlot : Value → Slot
  | i32 v | f32 v => v.toUInt64
  | i64 v | f64 v => v

/-- The value that a slot holds at a type. -/
def ofSlot (s : Slot) : ValType → Value
  | .i32 => i32 s.toUInt32
  | .i64 => i64 s
  | .f32 => f32 s.toUInt32
  | .f64 => f64 s

@[simp] theorem type_ofSlot (s : Slot) (t : ValType) : (ofSlot s t).type = t := by
  cases t <;> rfl

@[simp] theorem ofSlot_toSlot (v : Value) : ofSlot v.toSlot v.type = v := by
  cases v <;> simp [ofSlot, toSlot, type]

/-- The zero of a type. -/
def zero (t : ValType) : Value := ofSlot 0 t

/-- Whether each value has the type at its place, and the lists are of one length. -/
def HaveTypes (vs : List Value) (ts : List ValType) : Prop := vs.map type = ts

instance (vs : List Value) (ts : List ValType) : Decidable (HaveTypes vs ts) :=
  inferInstanceAs (Decidable (_ = _))

/-- The values that a list of slots holds at a list of types; the longer list is cut. -/
def ofSlots (slots : List Slot) (ts : List ValType) : List Value := slots.zipWith ofSlot ts

/-- Numeric equality: values of one type that are equal as numbers.  A NaN differs from itself and
the two zeros are equal. -/
def numEq : Value → Value → Bool
  | i32 a, i32 b => a == b
  | i64 a, i64 b => a == b
  | f32 a, f32 b => Float32.ofBits a == Float32.ofBits b
  | f64 a, f64 b => Float.ofBits a == Float.ofBits b
  | _, _ => false

/-- The text of a value: the number, signed if it is an integer, and its type. -/
def render : Value → String
  | i32 v => s!"{v.toInt32.toInt}:i32"
  | i64 v => s!"{v.toInt64.toInt}:i64"
  | f32 v => Float.render .binary32 v.toNat ++ ":f32"
  | f64 v => Float.render .binary64 v.toNat ++ ":f64"

end Value

end WasmEngine
