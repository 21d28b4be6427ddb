import WasmEngine.Numeric.Op
import WasmEngine.Value

/-!
# Instr/Basic — instructions

One constructor per instruction form, in the flat order of the binary format: a block is opened by
its own instruction and closed by `endMark`.  The type parameter is what the instructions that open a
block carry: a `BlockType` for validation, which reads it from the code, and a jump entry for
execution, which looks it up.
-/

namespace WasmEngine

/-- The type of a block as it is written. -/
inductive BlockType where
  | empty
  | value (type : ValType)
  /-- The function type at an index. -/
  | index (n : Nat)
deriving DecidableEq, Repr

/-- The immediates of an access to memory. -/
structure MemArg where
  /-- The binary logarithm of the promised alignment. -/
  align : Nat
  offset : UInt32
deriving DecidableEq, Repr

/-- A load: the type of the result, and the part of memory that it comes from. -/
structure LoadOp where
  type : ValType
  /-- The binary logarithm of the number of bytes. -/
  logWidth : Nat
  /-- Whether the sign of a narrower number is repeated. -/
  signed : Bool
deriving DecidableEq, Repr

/-- A store: the type of the operand, and the part of it that goes to memory. -/
structure StoreOp where
  type : ValType
  /-- The binary logarithm of the number of bytes. -/
  logWidth : Nat
deriving DecidableEq, Repr

/-- The loads, in opcode order from `0x28` on. -/
def LoadOp.all : Array LoadOp :=
  #[⟨.i32, 2, false⟩, ⟨.i64, 3, false⟩, ⟨.f32, 2, false⟩, ⟨.f64, 3, false⟩,
    ⟨.i32, 0, true⟩, ⟨.i32, 0, false⟩, ⟨.i32, 1, true⟩, ⟨.i32, 1, false⟩,
    ⟨.i64, 0, true⟩, ⟨.i64, 0, false⟩, ⟨.i64, 1, true⟩, ⟨.i64, 1, false⟩,
    ⟨.i64, 2, true⟩, ⟨.i64, 2, false⟩]

/-- The stores, in opcode order from `0x36` on. -/
def StoreOp.all : Array StoreOp :=
  #[⟨.i32, 2⟩, ⟨.i64, 3⟩, ⟨.f32, 2⟩, ⟨.f64, 3⟩,
    ⟨.i32, 0⟩, ⟨.i32, 1⟩, ⟨.i64, 0⟩, ⟨.i64, 1⟩, ⟨.i64, 2⟩]

/-- The load that an opcode stands for. -/
def LoadOp.ofOpcode? (b : UInt8) : Option LoadOp :=
  if 0x28 ≤ b then LoadOp.all[(b - 0x28).toNat]? else none

/-- The store that an opcode stands for. -/
def StoreOp.ofOpcode? (b : UInt8) : Option StoreOp :=
  if 0x36 ≤ b then StoreOp.all[(b - 0x36).toNat]? else none

/-- Instructions whose blocks carry a `β`. -/
inductive Instr (β : Type) where
  | unreachable
  | nop
  | block (b : β)
  | loop (b : β)
  | ifThen (b : β)
  | elseMark
  | endMark
  | br (depth : Nat)
  | brIf (depth : Nat)
  | brTable (targets : List Nat) (default : Nat)
  | ret
  | call (func : Nat)
  | callIndirect (type table : Nat)
  | drop
  | select (type : Option ValType)
  | localGet (index : Nat)
  | localSet (index : Nat)
  | localTee (index : Nat)
  | globalGet (index : Nat)
  | globalSet (index : Nat)
  | load (op : LoadOp) (arg : MemArg)
  | store (op : StoreOp) (arg : MemArg)
  | memorySize
  | memoryGrow
  | memoryCopy
  | memoryFill
  | const (value : Value)
  | numeric (op : NumOp)
deriving DecidableEq, Repr

end WasmEngine
