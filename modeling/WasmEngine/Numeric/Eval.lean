import WasmEngine.Numeric.Floating

/-!
# Numeric/Eval — the numeric operators on slots

`UnaryOp.eval` and `BinaryOp.eval` give every numeric instruction its meaning on untagged slots.
An operator reads only the bits of its operand type and leaves zeros above a 32-bit result.
-/

namespace WasmEngine

namespace Conversion

/-- The least integer of a width. -/
def least (w : Width) (signed : Bool) : Int :=
  if signed then (BitVec.intMin w.bits).toInt else 0

/-- The greatest integer of a width. -/
def greatest (w : Width) (signed : Bool) : Int :=
  if signed then (BitVec.intMax w.bits).toInt else (BitVec.allOnes w.bits).toNat

/-- The slot of an integer in two's complement. -/
def ofInt (w : Width) (n : Int) : Slot := w.write (BitVec.ofInt w.bits n)

/-- The integer part of a float, if it is a number of the target range. -/
def truncateSlot (target source : Width) (signed : Bool) (a : Slot) : Except Trap Slot :=
  match source.format.decode (source.read a).toNat with
  | .nan => .error .invalidConversion
  | number =>
    match number.truncate? with
    | some n =>
      if least target signed ≤ n ∧ n ≤ greatest target signed then .ok (ofInt target n)
      else .error .integerOverflow
    | none => .error .integerOverflow

/-- The integer part of a float, moved into the target range; zero for a NaN. -/
def saturateSlot (target source : Width) (signed : Bool) (a : Slot) : Slot :=
  match source.format.decode (source.read a).toNat with
  | .nan => 0
  | .infinity true => ofInt target (least target signed)
  | .infinity false => ofInt target (greatest target signed)
  | number =>
    match number.truncate? with
    | some n => ofInt target (max (least target signed) (min n (greatest target signed)))
    | none => 0

/-- The float nearest to an integer. -/
def roundSlot (target source : Width) (signed : Bool) (a : Slot) : Slot :=
  if signed then
    let n := Int64.ofInt (source.read a).toInt
    match target with
    | .w32 => .ofFloat32 n.toFloat32
    | .w64 => .ofFloat n.toFloat
  else
    let n := UInt64.ofBitVec ((source.read a).setWidth 64)
    match target with
    | .w32 => .ofFloat32 n.toFloat32
    | .w64 => .ofFloat n.toFloat

/-- The value of a conversion, unless it traps. -/
def eval (a : Slot) : Conversion → Except Trap Slot
  | wrap => .ok (Width.w32.write (Width.w32.read a))
  | extend true => .ok (UInt64.ofBitVec ((Width.w32.read a).signExtend 64))
  | extend false => .ok (UInt64.ofBitVec ((Width.w32.read a).setWidth 64))
  | truncate target source signed => truncateSlot target source signed a
  | truncateSat target source signed => .ok (saturateSlot target source signed a)
  | convert target source signed => .ok (roundSlot target source signed a)
  | demote => .ok (.ofFloat32 (Slot.toFloat a).toFloat32)
  | promote => .ok (.ofFloat (Slot.toFloat32 a).toFloat)
  | floatBits _ | floatOfBits _ => .ok a
  | signExtend w n => .ok (w.write (((w.read a).setWidth n).signExtend w.bits))

end Conversion

/-- The value of an operator on one operand, unless it traps. -/
def UnaryOp.eval (a : Slot) : UnaryOp → Except Trap Slot
  | isZero w => .ok (.ofBool (w.read a == 0))
  | int w op => .ok (w.write (op.eval (w.read a)))
  | float w op => .ok (op.eval w a)
  | convert op => op.eval a

/-- The value of an operator on two operands, unless it traps. -/
def BinaryOp.eval (a b : Slot) : BinaryOp → Except Trap Slot
  | int w op => (op.eval (w.read a) (w.read b)).map w.write
  | intRel w op => .ok (.ofBool (op.eval (w.read a) (w.read b)))
  | float w op => .ok (op.eval w a b)
  | floatRel w op => .ok (.ofBool (op.eval w a b))

end WasmEngine
