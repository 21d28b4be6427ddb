import WasmEngine.Guest.Layout

/-!
# Guest/Codec — guest values and their bytes

The values of a guest type are bit vectors, vectors and nested pairs (`GuestType.Value`).
`GuestType.encode` gives the `size` bytes of a value, with zeros as padding, and
`GuestType.encodeInto` writes them over a buffer; `GuestType.decode` reads a value from the front of
a list of bytes.
-/

namespace WasmEngine

mutual

/-- The values of a guest type; numbers are bit patterns. -/
@[reducible] def GuestType.Value : GuestType → Type
  | .scalar s => BitVec (8 * s.bytes)
  | .array elem length => Vector elem.Value length
  | .struct fields => fields.Value

/-- A value for each field. -/
@[reducible] def Fields.Value : Fields → Type
  | .nil => Unit
  | .cons _ type rest => type.Value × rest.Value

end

/-- The number that bytes encode, the least significant first. -/
def natOfBytes : List UInt8 → Nat
  | [] => 0
  | b :: bs => b.toNat + 256 * natOfBytes bs

/-- The low `n` bytes of a number, the least significant first. -/
def bytesOfNat (v : Nat) : Nat → List UInt8
  | 0 => []
  | n + 1 => v.toUInt8 :: bytesOfNat (v / 256) n

@[simp] theorem length_bytesOfNat (v n : Nat) : (bytesOfNat v n).length = n := by
  induction n generalizing v with
  | zero => rfl
  | succ n ih => simp [bytesOfNat, ih]

mutual

/-- The bytes of a value. -/
def GuestType.encode : (t : GuestType) → t.Value → List UInt8
  | .scalar s, v => bytesOfNat v.toNat s.bytes
  | .array elem _, vs => vs.toList.flatMap elem.encode
  | .struct fields, v =>
    let bytes := fields.encode 0 v
    bytes ++ List.replicate (alignUp (fields.stop 0) fields.align - bytes.length) 0

/-- The bytes of fields that are placed from `offset` on, with the padding before each. -/
def Fields.encode (offset : Nat) : (fields : Fields) → fields.Value → List UInt8
  | .nil, () => []
  | .cons _ type rest, (v, vs) =>
    let start := alignUp offset type.align
    List.replicate (start - offset) 0 ++ type.encode v ++ rest.encode (start + type.size) vs

end

mutual

/-- The value that the first bytes of a list encode. -/
def GuestType.decode : (t : GuestType) → List UInt8 → t.Value
  | .scalar s, bytes => BitVec.ofNat _ (natOfBytes (bytes.take s.bytes))
  | .array elem length, bytes =>
    Vector.ofFn fun i : Fin length => elem.decode (bytes.drop (i * elem.size))
  | .struct fields, bytes => fields.decode 0 bytes

/-- The values of fields that are placed from `offset` on in a list of bytes. -/
def Fields.decode (offset : Nat) : (fields : Fields) → List UInt8 → fields.Value
  | .nil, _ => ()
  | .cons _ type rest, bytes =>
    let start := alignUp offset type.align
    (type.decode (bytes.drop start), rest.decode (start + type.size) bytes)

end

/-! ## Encoding in place -/

/-- Updates the `n` bytes of a buffer from `start` on. -/
def updateSlice (start n : Nat) (f : List UInt8 → List UInt8) (buffer : List UInt8) : List UInt8 :=
  buffer.take start ++ f ((buffer.drop start).take n) ++ buffer.drop (start + n)

/-- Writes values one behind the other from `start` on, each into `n` bytes. -/
def writeEach {α : Type} (write : α → List UInt8 → List UInt8) (n : Nat) (start : Nat) :
    List α → List UInt8 → List UInt8
  | [], buffer => buffer
  | v :: vs, buffer => writeEach write n (start + n) vs (updateSlice start n (write v) buffer)

mutual

/-- Writes a value over a buffer of its size.  A struct first fills its buffer with zeros. -/
def GuestType.encodeInto : (t : GuestType) → t.Value → List UInt8 → List UInt8
  | .scalar s, v, buffer => updateSlice 0 s.bytes (fun _ => bytesOfNat v.toNat s.bytes) buffer
  | .array elem _, vs, buffer => writeEach elem.encodeInto elem.size 0 vs.toList buffer
  | .struct fields, v, buffer => fields.encodeInto 0 v (List.replicate buffer.length 0)

/-- Writes fields that are placed from `offset` on over a buffer. -/
def Fields.encodeInto (offset : Nat) : (fields : Fields) → fields.Value → List UInt8 → List UInt8
  | .nil, (), buffer => buffer
  | .cons _ type rest, (v, vs), buffer =>
    let start := alignUp offset type.align
    rest.encodeInto (start + type.size) vs (updateSlice start type.size (type.encodeInto v) buffer)

end

/-- Puts zeros in the place of all padding. -/
def GuestType.clearPadding (t : GuestType) (bytes : List UInt8) : List UInt8 :=
  t.encodeInto (t.decode bytes) bytes

end WasmEngine
