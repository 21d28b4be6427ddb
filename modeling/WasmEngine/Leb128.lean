import WasmEngine.Error

/-!
# Leb128 — variable-length integers

A LEB128 integer is a run of bytes of seven bits each, the least significant first; every byte but
the last has its top bit set.

* The *checked* readers (`readUnsigned`, `readSigned`) serve untrusted bytes.  They take a width,
  accept at most as many bytes as that width needs, and refuse values outside it.  The recursion
  follows the number: the first byte gives the low seven bits, the rest of the run the others.
* The *trusted* readers (`trustedUnsigned`, `trustedSigned`) serve code that has been validated.
  They run in machine words and check nothing but the end of the bytes.
-/

namespace WasmEngine

/-- A byte sequence of which the part before `stop` may be read. -/
structure Window where
  bytes : ByteArray
  stop : Nat

/-- The byte at a position, unless it lies at or past the end of the window. -/
def Window.get? (w : Window) (pos : Nat) : Option UInt8 :=
  if pos < w.stop then w.bytes[pos]? else none

/-- The window on all bytes. -/
def Window.ofBytes (bytes : ByteArray) : Window := ⟨bytes, bytes.size⟩

namespace Leb128

/-- The bit that marks a byte as not the last one. -/
abbrev continuation : Nat := 0x80

/-- Reads an unsigned integer of at most `more + 1` bytes, of which byte `more + 1` may hold only
`top` bits.  Yields the value and the position behind it. -/
def unsignedGroups (w : Window) (top : Nat) : Nat → Nat → Except Error (Nat × Nat)
  | more, pos =>
    match w.get? pos with
    | none => .error (.malformed .endOfInput)
    | some byte =>
      let b := byte.toNat
      match more with
      | 0 =>
        if continuation ≤ b then .error (.malformed .integerTooLong)
        else if 1 <<< top ≤ b then .error (.malformed .integerTooLarge)
        else .ok (b, pos + 1)
      | more + 1 =>
        if continuation ≤ b then
          match unsignedGroups w top more (pos + 1) with
          | .ok (rest, next) => .ok (b - continuation + 128 * rest, next)
          | .error e => .error e
        else .ok (b, pos + 1)

/-- Reads an unsigned integer of `bits` bits. -/
def readUnsigned (bits : Nat) (w : Window) (pos : Nat) : Except Error (Nat × Nat) :=
  unsignedGroups w (bits - 7 * ((bits - 1) / 7)) ((bits - 1) / 7) pos

theorem lt_of_unsignedGroups {w : Window} {top more pos v next : Nat}
    (h : unsignedGroups w top more pos = .ok (v, next)) : pos < next := by
  fun_induction unsignedGroups w top more pos generalizing v next <;> grind

/-- The signed value of seven bits. -/
def signExtend7 (b : Nat) : Int := if b < 64 then b else b - 128

/-- Reads a signed integer of at most `more + 1` bytes, of which byte `more + 1` may hold only `top`
bits: its other bits repeat the sign. -/
def signedGroups (w : Window) (top : Nat) : Nat → Nat → Except Error (Int × Nat)
  | more, pos =>
    match w.get? pos with
    | none => .error (.malformed .endOfInput)
    | some byte =>
      let b := byte.toNat
      match more with
      | 0 =>
        if continuation ≤ b then .error (.malformed .integerTooLong)
        else if b >>> (top - 1) ≠ 0 ∧ b >>> (top - 1) ≠ 0x7f >>> (top - 1) then
          .error (.malformed .integerTooLarge)
        else .ok (signExtend7 b, pos + 1)
      | more + 1 =>
        if continuation ≤ b then
          match signedGroups w top more (pos + 1) with
          | .ok (rest, next) => .ok ((b - continuation : Nat) + 128 * rest, next)
          | .error e => .error e
        else .ok (signExtend7 b, pos + 1)

/-- Reads a signed integer of `bits` bits. -/
def readSigned (bits : Nat) (w : Window) (pos : Nat) : Except Error (Int × Nat) :=
  signedGroups w (bits - 7 * ((bits - 1) / 7)) ((bits - 1) / 7) pos

example : (readUnsigned 32 (.ofBytes ⟨#[0xe5, 0x8e, 0x26]⟩) 0).toOption = some (624485, 3) := by
  decide

example : (readSigned 64 (.ofBytes ⟨#[0xc0, 0xbb, 0x78]⟩) 0).toOption = some (-123456, 3) := by
  decide +kernel

/-- Reads an unsigned 32-bit integer without limits on its length.  The first argument bounds the
number of bytes left. -/
def trustedUnsignedFrom (bytes : ByteArray) :
    Nat → (pos : Nat) → (shift acc : UInt32) → Option (UInt32 × Nat)
  | 0, _, _, _ => none
  | left + 1, pos, shift, acc =>
    match bytes[pos]? with
    | none => none
    | some byte =>
      let acc := acc ||| ((byte &&& 0x7f).toUInt32 <<< shift)
      if byte < 0x80 then some (acc, pos + 1)
      else trustedUnsignedFrom bytes left (pos + 1) (shift + 7) acc

/-- Reads an unsigned 32-bit integer from validated code. -/
def trustedUnsigned (bytes : ByteArray) (pos : Nat) : Option (UInt32 × Nat) :=
  trustedUnsignedFrom bytes (bytes.size - pos) pos 0 0

/-- Reads a signed 64-bit integer without limits on its length.  The first argument bounds the
number of bytes left. -/
def trustedSignedFrom (bytes : ByteArray) :
    Nat → (pos shift : Nat) → (acc : UInt64) → Option (UInt64 × Nat)
  | 0, _, _, _ => none
  | left + 1, pos, shift, acc =>
    match bytes[pos]? with
    | none => none
    | some byte =>
      let acc :=
        if shift < 64 then acc ||| ((byte &&& 0x7f).toUInt64 <<< shift.toUInt64) else acc
      let shift := shift + 7
      if byte < 0x80 then
        let negative := shift < 64 ∧ byte &&& 0x40 ≠ 0
        some (if negative then acc ||| (0xffffffffffffffff <<< shift.toUInt64) else acc, pos + 1)
      else trustedSignedFrom bytes left (pos + 1) shift acc

/-- Reads a signed 64-bit integer from validated code, in two's complement. -/
def trustedSigned (bytes : ByteArray) (pos : Nat) : Option (UInt64 × Nat) :=
  trustedSignedFrom bytes (bytes.size - pos) pos 0 0

example : trustedSigned ⟨#[0xc0, 0xbb, 0x78]⟩ 0 = some ((-123456 : Int64).toUInt64, 3) := by decide

end Leb128

end WasmEngine
