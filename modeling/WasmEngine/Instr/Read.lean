import WasmEngine.Instr.Basic
import WasmEngine.Reader

/-!
# Instr/Read — reading instructions from untrusted code

`Instr.read` reads one instruction with its immediates.  In a module without memory it refuses the
instructions that need one as soon as the opcode is known, before their immediates.
-/

namespace WasmEngine

/-- Reads a block type: a byte of its own, a value type, or a type index as a signed number. -/
def BlockType.read : Reader BlockType := do
  let b ← Reader.peek
  if b = 0x40 then
    discard Reader.byte
    pure .empty
  else
    match ValType.ofByte? b with
    | some t =>
      discard Reader.byte
      pure (.value t)
    | none =>
      match ← Reader.signed 33 with
      | .ofNat n => pure (.index n)
      | .negSucc _ => Reader.invalid .unknownType

namespace Instr

/-- Reads the immediates of an access to memory. -/
def memArg : Reader MemArg := do
  let align ← Reader.u32
  let offset ← Reader.u32
  pure { align, offset := offset.toUInt32 }

/-- Reads a byte that must be zero. -/
def zeroByte : Reader Unit := do
  if (← Reader.byte) ≠ 0 then Reader.malformed .zeroByteExpected

/-- Refuses to go on in a module without memory. -/
def needMemory (hasMemory : Bool) : Reader Unit :=
  if hasMemory then pure () else Reader.invalid .unknownMemory

/-- Reads a little-endian word of `n` bytes. -/
def word (n : Nat) : Reader Nat := do
  let start ← Reader.skip n
  let bytes := ((← read).bytes.extract start (start + n)).toList
  pure (bytes.foldr (fun b acc => b.toNat + 256 * acc) 0)

/-- Reads what follows the byte `0xfc`. -/
def readExtended (hasMemory : Bool) : Reader (Instr BlockType) := do
  match ← Reader.u32 with
  | 10 =>
    needMemory hasMemory
    zeroByte
    zeroByte
    pure .memoryCopy
  | 11 =>
    needMemory hasMemory
    zeroByte
    pure .memoryFill
  | code =>
    match NumOp.saturating[code]? with
    | some op => pure (.numeric op)
    | none => Reader.malformed .unknownInstruction

/-- Reads an instruction. -/
def read (hasMemory : Bool) : Reader (Instr BlockType) := do
  let op ← Reader.byte
  match op with
  | 0x00 => pure .unreachable
  | 0x01 => pure .nop
  | 0x02 => .block <$> BlockType.read
  | 0x03 => .loop <$> BlockType.read
  | 0x04 => .ifThen <$> BlockType.read
  | 0x05 => pure .elseMark
  | 0x0b => pure .endMark
  | 0x0c => .br <$> Reader.u32
  | 0x0d => .brIf <$> Reader.u32
  | 0x0e =>
    let targets ← Reader.replicate (← Reader.u32) Reader.u32
    .brTable targets <$> Reader.u32
  | 0x0f => pure .ret
  | 0x10 => .call <$> Reader.u32
  | 0x11 =>
    let type ← Reader.u32
    .callIndirect type <$> Reader.u32
  | 0x1a => pure .drop
  | 0x1b => pure (.select none)
  | 0x1c =>
    if (← Reader.u32) ≠ 1 then Reader.invalid .resultArity
    .select <$> some <$> Reader.valType
  | 0x20 => .localGet <$> Reader.u32
  | 0x21 => .localSet <$> Reader.u32
  | 0x22 => .localTee <$> Reader.u32
  | 0x23 => .globalGet <$> Reader.u32
  | 0x24 => .globalSet <$> Reader.u32
  | 0x3f =>
    needMemory hasMemory
    zeroByte
    pure .memorySize
  | 0x40 =>
    needMemory hasMemory
    zeroByte
    pure .memoryGrow
  | 0x41 => return .const (.i32 (Int32.ofInt (← Reader.signed 32)).toUInt32)
  | 0x42 => return .const (.i64 (Int64.ofInt (← Reader.signed 64)).toUInt64)
  | 0x43 => return .const (.f32 (← word 4).toUInt32)
  | 0x44 => return .const (.f64 (← word 8).toUInt64)
  | 0xfc => readExtended hasMemory
  | _ =>
    if let some loadOp := LoadOp.ofOpcode? op then
      needMemory hasMemory
      .load loadOp <$> memArg
    else if let some storeOp := StoreOp.ofOpcode? op then
      needMemory hasMemory
      .store storeOp <$> memArg
    else if let some numOp := NumOp.ofOpcode? op then
      pure (.numeric numOp)
    else Reader.malformed .unknownInstruction

end Instr

end WasmEngine
