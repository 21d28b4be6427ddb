import WasmEngine.Instr.Basic
import WasmEngine.Leb128
import WasmEngine.Module.ConstExpr

/-!
# Instr/Fetch — reading instructions of validated code

`Instr.fetch` reads the instruction that is executed next.  It relies on validation: immediates are
read without checks, and a block is not typed again but looked up in the side table, which also tells
where its body starts.
-/

namespace WasmEngine

/-- A computation on validated code, from a position on; `none` where the code is not what validation
accepts. -/
abbrev Fetch := StateT Nat Option

namespace Fetch

/-- An unsigned 32-bit immediate. -/
def u32 (code : ByteArray) : Fetch Nat := fun pos =>
  match Leb128.trustedUnsigned code pos with
  | some (v, next) => some (v.toNat, next)
  | none => none

/-- A signed immediate in two's complement. -/
def signed (code : ByteArray) : Fetch UInt64 := fun pos => Leb128.trustedSigned code pos

/-- A byte. -/
def byte (code : ByteArray) : Fetch UInt8 := fun pos => code[pos]?.map (·, pos + 1)

/-- Moves past `n` bytes. -/
def skip (n : Nat) : Fetch Unit := modify (· + n)

/-- The immediates of a branch table. -/
def targets (code : ByteArray) : Nat → Fetch (List Nat)
  | 0 => pure []
  | n + 1 => do
    let t ← u32 code
    let ts ← targets code n
    pure (t :: ts)

/-- The immediates of an access to memory. -/
def memArg (code : ByteArray) : Fetch MemArg := do
  let align ← u32 code
  let offset ← u32 code
  pure { align, offset := offset.toUInt32 }

/-- The jump entry of the block whose opcode is at `opcode`; goes on where its body starts. -/
def block (table : SideTable) (opcode : Nat) : Fetch BlockJump := do
  let jump ← StateT.lift (table.find? opcode)
  set jump.body
  pure jump

/-- What follows the byte `0xfc`. -/
def extended (code : ByteArray) : Fetch (Instr BlockJump) := do
  match ← u32 code with
  | 10 => skip 2; pure .memoryCopy
  | 11 => skip 1; pure .memoryFill
  | n => .numeric <$> StateT.lift NumOp.saturating[n]?

end Fetch

/-- Reads an instruction. -/
def Instr.fetch (code : ByteArray) (table : SideTable) : Fetch (Instr BlockJump) := do
  let opcode ← get
  let op ← Fetch.byte code
  match op with
  | 0x00 => pure .unreachable
  | 0x01 => pure .nop
  | 0x02 => .block <$> Fetch.block table opcode
  | 0x03 => .loop <$> Fetch.block table opcode
  | 0x04 => .ifThen <$> Fetch.block table opcode
  | 0x05 => pure .elseMark
  | 0x0b => pure .endMark
  | 0x0c => .br <$> Fetch.u32 code
  | 0x0d => .brIf <$> Fetch.u32 code
  | 0x0e =>
    let targets ← Fetch.targets code (← Fetch.u32 code)
    .brTable targets <$> Fetch.u32 code
  | 0x0f => pure .ret
  | 0x10 => .call <$> Fetch.u32 code
  | 0x11 =>
    let type ← Fetch.u32 code
    .callIndirect type <$> Fetch.u32 code
  | 0x1a => pure .drop
  | 0x1b => pure (.select none)
  | 0x1c =>
    discard (Fetch.u32 code)
    .select <$> ValType.ofByte? <$> Fetch.byte code
  | 0x20 => .localGet <$> Fetch.u32 code
  | 0x21 => .localSet <$> Fetch.u32 code
  | 0x22 => .localTee <$> Fetch.u32 code
  | 0x23 => .globalGet <$> Fetch.u32 code
  | 0x24 => .globalSet <$> Fetch.u32 code
  | 0x3f => Fetch.skip 1; pure .memorySize
  | 0x40 => Fetch.skip 1; pure .memoryGrow
  | 0x41 => return .const (.i32 (← Fetch.signed code).toUInt32)
  | 0x42 => return .const (.i64 (← Fetch.signed code))
  | 0x43 => return .const (.f32 (← ConstExpr.word code 4).toUInt32)
  | 0x44 => return .const (.f64 (← ConstExpr.word code 8))
  | 0xfc => Fetch.extended code
  | _ =>
    if let some numOp := NumOp.ofOpcode? op then pure (.numeric numOp)
    else if let some loadOp := LoadOp.ofOpcode? op then .load loadOp <$> Fetch.memArg code
    else if let some storeOp := StoreOp.ofOpcode? op then .store storeOp <$> Fetch.memArg code
    else StateT.lift none

end WasmEngine
