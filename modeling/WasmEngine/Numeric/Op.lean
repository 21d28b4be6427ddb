import WasmEngine.Types

/-!
# Numeric/Op — the numeric operators and their opcodes

A numeric operator takes one operand (`UnaryOp`) or two of one type (`BinaryOp`).  The plain ones
occupy the opcodes from `0x45` on without a gap; `NumOp.plain` lists them in that order, so that
reading an opcode is indexing.  The saturating truncations follow the `0xfc` byte.
-/

namespace WasmEngine

/-- The two widths of numbers. -/
inductive Width where
  | w32
  | w64
deriving DecidableEq, Repr

namespace Width

/-- The number of bits. -/
abbrev bits : Width → Nat
  | w32 => 32
  | w64 => 64

/-- The integer type of a width. -/
def intType : Width → ValType
  | w32 => .i32
  | w64 => .i64

/-- The floating-point type of a width. -/
def floatType : Width → ValType
  | w32 => .f32
  | w64 => .f64

end Width

/-- Integer operators on one operand. -/
inductive IntUnOp where
  | clz | ctz | popcnt
deriving DecidableEq, Repr

/-- Integer operators on two operands. -/
inductive IntBinOp where
  | add | sub | mul | divS | divU | remS | remU
  | and | or | xor | shl | shrS | shrU | rotl | rotr
deriving DecidableEq, Repr

/-- Comparisons of integers. -/
inductive IntRelOp where
  | eq | ne | ltS | ltU | gtS | gtU | leS | leU | geS | geU
deriving DecidableEq, Repr

/-- Floating-point operators on one operand. -/
inductive FloatUnOp where
  | abs | neg | ceil | floor | trunc | nearest | sqrt
deriving DecidableEq, Repr

/-- Floating-point operators on two operands. -/
inductive FloatBinOp where
  | add | sub | mul | div | min | max | copysign
deriving DecidableEq, Repr

/-- Comparisons of floating-point numbers. -/
inductive FloatRelOp where
  | eq | ne | lt | gt | le | ge
deriving DecidableEq, Repr

/-- Conversions between value types. -/
inductive Conversion where
  /-- Drops the upper half of an `i64`. -/
  | wrap
  /-- Widens an `i32` to an `i64`. -/
  | extend (signed : Bool)
  /-- Drops the fraction of a float; a result out of range traps. -/
  | truncate (target source : Width) (signed : Bool)
  /-- Drops the fraction of a float; a result out of range becomes the nearest bound. -/
  | truncateSat (target source : Width) (signed : Bool)
  /-- Rounds an integer to a float. -/
  | convert (target source : Width) (signed : Bool)
  /-- Rounds an `f64` to an `f32`. -/
  | demote
  /-- Widens an `f32` to an `f64`. -/
  | promote
  /-- Reads the bits of a float as an integer. -/
  | floatBits (w : Width)
  /-- Reads the bits of an integer as a float. -/
  | floatOfBits (w : Width)
  /-- Repeats the sign of the low `n` bits of an integer. -/
  | signExtend (w : Width) (n : Nat)
deriving DecidableEq, Repr

/-- Operators on one operand. -/
inductive UnaryOp where
  | isZero (w : Width)
  | int (w : Width) (op : IntUnOp)
  | float (w : Width) (op : FloatUnOp)
  | convert (op : Conversion)
deriving DecidableEq, Repr

/-- Operators on two operands of one type. -/
inductive BinaryOp where
  | int (w : Width) (op : IntBinOp)
  | intRel (w : Width) (op : IntRelOp)
  | float (w : Width) (op : FloatBinOp)
  | floatRel (w : Width) (op : FloatRelOp)
deriving DecidableEq, Repr

/-- The numeric operators. -/
inductive NumOp where
  | unary (op : UnaryOp)
  | binary (op : BinaryOp)
deriving DecidableEq, Repr

/-- The type of the operand. -/
def Conversion.operand : Conversion → ValType
  | wrap => .i64
  | extend _ => .i32
  | truncate _ s _ | truncateSat _ s _ => s.floatType
  | convert _ s _ => s.intType
  | demote => .f64
  | promote => .f32
  | floatBits w => w.floatType
  | floatOfBits w => w.intType
  | signExtend w _ => w.intType

/-- The type of the result. -/
def Conversion.result : Conversion → ValType
  | wrap => .i32
  | extend _ => .i64
  | truncate t _ _ | truncateSat t _ _ => t.intType
  | convert t _ _ => t.floatType
  | demote => .f32
  | promote => .f64
  | floatBits w => w.intType
  | floatOfBits w => w.floatType
  | signExtend w _ => w.intType

/-- The type of the operand. -/
def UnaryOp.operand : UnaryOp → ValType
  | isZero w | int w _ => w.intType
  | float w _ => w.floatType
  | convert op => op.operand

/-- The type of the result. -/
def UnaryOp.result : UnaryOp → ValType
  | isZero _ => .i32
  | int w _ => w.intType
  | float w _ => w.floatType
  | convert op => op.result

/-- The type of both operands. -/
def BinaryOp.operand : BinaryOp → ValType
  | int w _ | intRel w _ => w.intType
  | float w _ | floatRel w _ => w.floatType

/-- The type of the result. -/
def BinaryOp.result : BinaryOp → ValType
  | int w _ => w.intType
  | float w _ => w.floatType
  | intRel _ _ | floatRel _ _ => .i32

namespace NumOp

/-- The types of the operands, the deepest first. -/
def operands : NumOp → List ValType
  | unary op => [op.operand]
  | binary op => [op.operand, op.operand]

/-- The type of the result. -/
def result : NumOp → ValType
  | unary op => op.result
  | binary op => op.result

/-- The opcode of the first plain operator. -/
def firstOpcode : UInt8 := 0x45

/-- The comparisons of integers, in opcode order. -/
def intRelOps : List IntRelOp := [.eq, .ne, .ltS, .ltU, .gtS, .gtU, .leS, .leU, .geS, .geU]

/-- The comparisons of floats, in opcode order. -/
def floatRelOps : List FloatRelOp := [.eq, .ne, .lt, .gt, .le, .ge]

/-- The integer operators on one operand, in opcode order. -/
def intUnOps : List IntUnOp := [.clz, .ctz, .popcnt]

/-- The integer operators on two operands, in opcode order. -/
def intBinOps : List IntBinOp :=
  [.add, .sub, .mul, .divS, .divU, .remS, .remU, .and, .or, .xor, .shl, .shrS, .shrU, .rotl, .rotr]

/-- The floating-point operators on one operand, in opcode order. -/
def floatUnOps : List FloatUnOp := [.abs, .neg, .ceil, .floor, .trunc, .nearest, .sqrt]

/-- The floating-point operators on two operands, in opcode order. -/
def floatBinOps : List FloatBinOp := [.add, .sub, .mul, .div, .min, .max, .copysign]

/-- The conversions without the saturating ones, in opcode order. -/
def conversions : List Conversion :=
  [.wrap,
    .truncate .w32 .w32 true, .truncate .w32 .w32 false,
    .truncate .w32 .w64 true, .truncate .w32 .w64 false,
    .extend true, .extend false,
    .truncate .w64 .w32 true, .truncate .w64 .w32 false,
    .truncate .w64 .w64 true, .truncate .w64 .w64 false,
    .convert .w32 .w32 true, .convert .w32 .w32 false,
    .convert .w32 .w64 true, .convert .w32 .w64 false,
    .demote,
    .convert .w64 .w32 true, .convert .w64 .w32 false,
    .convert .w64 .w64 true, .convert .w64 .w64 false,
    .promote,
    .floatBits .w32, .floatBits .w64, .floatOfBits .w32, .floatOfBits .w64,
    .signExtend .w32 8, .signExtend .w32 16,
    .signExtend .w64 8, .signExtend .w64 16, .signExtend .w64 32]

/-- The plain operators, in opcode order from `firstOpcode` on. -/
def plain : Array NumOp := (
  unary (.isZero .w32) :: intRelOps.map (binary <| .intRel .w32 ·) ++
  unary (.isZero .w64) :: intRelOps.map (binary <| .intRel .w64 ·) ++
  floatRelOps.map (binary <| .floatRel .w32 ·) ++
  floatRelOps.map (binary <| .floatRel .w64 ·) ++
  intUnOps.map (unary <| .int .w32 ·) ++ intBinOps.map (binary <| .int .w32 ·) ++
  intUnOps.map (unary <| .int .w64 ·) ++ intBinOps.map (binary <| .int .w64 ·) ++
  floatUnOps.map (unary <| .float .w32 ·) ++ floatBinOps.map (binary <| .float .w32 ·) ++
  floatUnOps.map (unary <| .float .w64 ·) ++ floatBinOps.map (binary <| .float .w64 ·) ++
  conversions.map (unary <| .convert ·)).toArray

/-- The saturating truncations, in the order of the codes that follow `0xfc`. -/
def saturating : Array NumOp :=
  (([.truncateSat .w32 .w32 true, .truncateSat .w32 .w32 false,
    .truncateSat .w32 .w64 true, .truncateSat .w32 .w64 false,
    .truncateSat .w64 .w32 true, .truncateSat .w64 .w32 false,
    .truncateSat .w64 .w64 true, .truncateSat .w64 .w64 false] : List Conversion).map
      (unary <| .convert ·)).toArray

theorem size_plain : plain.size = 0x80 := by decide +kernel

/-- The plain operator that an opcode stands for. -/
def ofOpcode? (b : UInt8) : Option NumOp :=
  if firstOpcode ≤ b then plain[(b - firstOpcode).toNat]? else none

example : ofOpcode? 0x6a = some (.binary (.int .w32 .add)) := by decide +kernel
example : ofOpcode? 0xc4 = some (.unary (.convert (.signExtend .w64 32))) := by decide +kernel

end NumOp

end WasmEngine
