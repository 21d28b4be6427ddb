/-!
# Float/Format — reading the bits of a binary floating-point number

A `Float.Format` is a pair of field widths; `binary32` and `binary64` are the two formats of
WebAssembly.  `Format.decode` reads a bit pattern as a signed infinity, a NaN, or an exact number
`± m · 2 ^ q`.  Sign manipulation works on the bits alone, so it keeps the payload of a NaN.
-/

namespace WasmEngine.Float

/-- The field widths of a binary interchange format. -/
structure Format where
  /-- The width of the stored fraction. -/
  fractionBits : Nat
  /-- The width of the biased exponent. -/
  exponentBits : Nat

namespace Format

/-- The format of `f32`. -/
def binary32 : Format := ⟨23, 8⟩

/-- The format of `f64`. -/
def binary64 : Format := ⟨52, 11⟩

variable (fmt : Format)

/-- The weight of the sign bit. -/
def signWeight : Nat := 1 <<< (fmt.fractionBits + fmt.exponentBits)

/-- The weight of the implicit leading bit of a normal number. -/
def hiddenWeight : Nat := 1 <<< fmt.fractionBits

/-- The exponent that belongs to a subnormal number, scaled to an integral significand. -/
def minExponent : Int := 2 - (1 <<< (fmt.exponentBits - 1) : Nat) - fmt.fractionBits

/-- The biased exponent of infinities and NaNs. -/
def maxBiased : Nat := 1 <<< fmt.exponentBits - 1

end Format

/-- The exact meaning of a bit pattern. -/
inductive Number where
  | nan
  | infinity (negative : Bool)
  /-- The number `significand * 2 ^ exponent`, negated if `negative`; zeros keep their sign. -/
  | finite (negative : Bool) (significand : Nat) (exponent : Int)
deriving DecidableEq, Repr

/-- Reads a bit pattern. -/
def Format.decode (fmt : Format) (bits : Nat) : Number :=
  let negative := decide (fmt.signWeight ≤ bits)
  let biased := (bits >>> fmt.fractionBits) % (1 <<< fmt.exponentBits)
  let fraction := bits % fmt.hiddenWeight
  if biased = fmt.maxBiased then
    if fraction = 0 then .infinity negative else .nan
  else if biased = 0 then
    .finite negative fraction fmt.minExponent
  else
    .finite negative (fmt.hiddenWeight + fraction) (fmt.minExponent + (biased - 1 : Nat))

example : Format.binary64.decode 0x3ff8000000000000 = .finite false (3 * 2 ^ 51) (-52) := by decide

/-- The integer that a number has when its fraction is dropped. -/
def Number.truncate? : Number → Option Int
  | .finite negative m q =>
    let magnitude : Nat := if 0 ≤ q then m <<< q.toNat else m >>> (-q).toNat
    some (if negative then -magnitude else magnitude)
  | _ => none

end WasmEngine.Float
