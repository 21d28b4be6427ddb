import WasmEngine.Error
import WasmEngine.Numeric.Op
import WasmEngine.Value

/-!
# Numeric/Integer — two's-complement arithmetic

The integer operators, for every width at once.  Division is the only source of traps: by zero, and
of the least number by `-1`.  Shift and rotation counts are taken modulo the width.
-/

namespace WasmEngine

/-- The low `w` bits of a slot. -/
def Width.read (w : Width) (s : Slot) : BitVec w.bits := s.toBitVec.setWidth w.bits

/-- The slot that holds an integer under zeros. -/
def Width.write (w : Width) (v : BitVec w.bits) : Slot := UInt64.ofBitVec (v.setWidth 64)

/-- The slot of a truth value. -/
def Slot.ofBool (b : Bool) : Slot := if b then 1 else 0

namespace IntUnOp

/-- The value of an operator on one operand. -/
def eval {w : Nat} (a : BitVec w) : IntUnOp → BitVec w
  | clz => a.clz
  | ctz => a.ctz
  | popcnt => a.cpop

end IntUnOp

namespace IntBinOp

/-- The value of an operator on two operands, unless it traps. -/
def eval {w : Nat} (a b : BitVec w) : IntBinOp → Except Trap (BitVec w)
  | add => .ok (a + b)
  | sub => .ok (a - b)
  | mul => .ok (a * b)
  | divS =>
    if b = 0 then .error .integerDivideByZero
    else if a = BitVec.intMin w ∧ b = -1 then .error .integerOverflow
    else .ok (a.sdiv b)
  | divU => if b = 0 then .error .integerDivideByZero else .ok (a.udiv b)
  | remS => if b = 0 then .error .integerDivideByZero else .ok (a.srem b)
  | remU => if b = 0 then .error .integerDivideByZero else .ok (a.umod b)
  | and => .ok (a &&& b)
  | or => .ok (a ||| b)
  | xor => .ok (a ^^^ b)
  | shl => .ok (a <<< (b.toNat % w))
  | shrS => .ok (a.sshiftRight (b.toNat % w))
  | shrU => .ok (a >>> (b.toNat % w))
  | rotl => .ok (a.rotateLeft (b.toNat % w))
  | rotr => .ok (a.rotateRight (b.toNat % w))

end IntBinOp

namespace IntRelOp

/-- Whether a comparison holds. -/
def eval {w : Nat} (a b : BitVec w) : IntRelOp → Bool
  | eq => a == b
  | ne => a != b
  | ltS => a.slt b
  | ltU => a.ult b
  | gtS => b.slt a
  | gtU => b.ult a
  | leS => a.sle b
  | leU => a.ule b
  | geS => b.sle a
  | geU => b.ule a

end IntRelOp

end WasmEngine
