import WasmEngine.Numeric.Integer

/-!
# Numeric/Floating — floating-point operators on bit patterns

Arithmetic and comparison are those of the binary formats.  `abs`, `neg` and `copysign` touch the
sign bit alone, so they keep the payload of a NaN; `min` and `max` order the two zeros.
-/

namespace WasmEngine

namespace Width

/-- The binary format of a width. -/
def format : Width → Float.Format
  | w32 => .binary32
  | w64 => .binary64

/-- The bits of a number of this width. -/
def mask : Width → Slot
  | w32 => 0xffffffff
  | w64 => 0xffffffffffffffff

/-- The sign bit. -/
def signBit : Width → Slot
  | w32 => 0x80000000
  | w64 => 0x8000000000000000

/-- The NaN that `min` and `max` produce. -/
def nan : Width → Slot
  | w32 => 0x7fc00000
  | w64 => 0x7ff8000000000000

end Width

namespace Slot

/-- The `f32` in the low half of a slot. -/
def toFloat32 (s : Slot) : Float32 := Float32.ofBits s.toUInt32

/-- The `f64` of a slot. -/
def toFloat (s : Slot) : Float := Float.ofBits s

/-- The slot of an `f32`. -/
def ofFloat32 (x : Float32) : Slot := x.toBits.toUInt64

/-- The slot of an `f64`. -/
def ofFloat (x : Float) : Slot := x.toBits

end Slot

namespace Width

/-- Applies an operator given in both formats to one slot. -/
def map (w : Width) (f : Float32 → Float32) (g : Float → Float) (a : Slot) : Slot :=
  match w with
  | w32 => .ofFloat32 (f (Slot.toFloat32 a))
  | w64 => .ofFloat (g (Slot.toFloat a))

/-- Applies an operator given in both formats to two slots. -/
def map₂ (w : Width) (f : Float32 → Float32 → Float32) (g : Float → Float → Float)
    (a b : Slot) : Slot :=
  match w with
  | w32 => .ofFloat32 (f (Slot.toFloat32 a) (Slot.toFloat32 b))
  | w64 => .ofFloat (g (Slot.toFloat a) (Slot.toFloat b))

/-- Tests two slots with a predicate given in both formats. -/
def test (w : Width) (f : Float32 → Float32 → Bool) (g : Float → Float → Bool)
    (a b : Slot) : Bool :=
  match w with
  | w32 => f (Slot.toFloat32 a) (Slot.toFloat32 b)
  | w64 => g (Slot.toFloat a) (Slot.toFloat b)

/-- Clears the sign. -/
def abs (w : Width) (a : Slot) : Slot := a &&& (w.mask ^^^ w.signBit)

/-- Flips the sign. -/
def neg (w : Width) (a : Slot) : Slot := (a &&& w.mask) ^^^ w.signBit

/-- The magnitude of `a` with the sign of `b`. -/
def copysign (w : Width) (a b : Slot) : Slot := w.abs a ||| (b &&& w.signBit)

/-- Whether the sign bit is set. -/
def isNegative (w : Width) (a : Slot) : Bool := a &&& w.signBit != 0

end Width

namespace FloatRelOp

/-- Whether a comparison holds.  Every comparison with a NaN fails, except `ne`. -/
def eval (w : Width) (a b : Slot) : FloatRelOp → Bool
  | eq => w.test (· == ·) (· == ·) a b
  | ne => !w.test (· == ·) (· == ·) a b
  | lt => w.test (· < ·) (· < ·) a b
  | gt => w.test (· < ·) (· < ·) b a
  | le => w.test (· ≤ ·) (· ≤ ·) a b
  | ge => w.test (· ≤ ·) (· ≤ ·) b a

end FloatRelOp

namespace Width

/-- Whether a slot holds a NaN. -/
def isNaN (w : Width) (a : Slot) : Bool := FloatRelOp.ne.eval w a a

/-- The lesser of two numbers if `least`, else the greater.  A NaN wins, and `-0` lies below `0`. -/
def extremum (w : Width) (least : Bool) (a b : Slot) : Slot :=
  if w.isNaN a || w.isNaN b then w.nan
  else if FloatRelOp.eq.eval w a b && FloatRelOp.eq.eval w a 0 then
    (if w.isNegative a == least then a else b) &&& w.mask
  else (if FloatRelOp.lt.eval w a b == least then a else b) &&& w.mask

/-- Rounds toward zero. -/
def truncate (w : Width) (a : Slot) : Slot :=
  if w.isNegative a then w.map Float32.ceil Float.ceil a else w.map Float32.floor Float.floor a

/-- Rounds to the nearest integer, a half to the even neighbour.

Numbers of magnitude `2 ^ fractionBits` or more are integers.  Adding that power to a smaller one
leaves no room for a fraction, so the sum is rounded as required, and the subtraction is exact. -/
def nearest (w : Width) (a : Slot) : Slot :=
  let m := w.abs a
  let big : Slot := match w with
    | w32 => 0x4b000000
    | w64 => 0x4330000000000000
  if FloatRelOp.lt.eval w m big then
    w.copysign (w.map₂ (· - ·) (· - ·) (w.map₂ (· + ·) (· + ·) m big) big) a
  else a &&& w.mask

end Width

namespace FloatUnOp

/-- The value of an operator on one operand. -/
def eval (w : Width) (a : Slot) : FloatUnOp → Slot
  | abs => w.abs a
  | neg => w.neg a
  | ceil => w.map Float32.ceil Float.ceil a
  | floor => w.map Float32.floor Float.floor a
  | trunc => w.truncate a
  | nearest => w.nearest a
  | sqrt => w.map Float32.sqrt Float.sqrt a

end FloatUnOp

namespace FloatBinOp

/-- The value of an operator on two operands. -/
def eval (w : Width) (a b : Slot) : FloatBinOp → Slot
  | add => w.map₂ (· + ·) (· + ·) a b
  | sub => w.map₂ (· - ·) (· - ·) a b
  | mul => w.map₂ (· * ·) (· * ·) a b
  | div => w.map₂ (· / ·) (· / ·) a b
  | min => w.extremum true a b
  | max => w.extremum false a b
  | copysign => w.copysign a b

end FloatBinOp

end WasmEngine
