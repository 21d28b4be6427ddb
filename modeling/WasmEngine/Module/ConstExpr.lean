import WasmEngine.Module.Basic
import WasmEngine.Numeric.Eval
import WasmEngine.Reader

/-!
# Module/ConstExpr — constant expressions

Initialisers and segment offsets are given by constant expressions: literals, immutable globals and
integer addition, subtraction and multiplication.  `ConstExpr.check` reads one from untrusted bytes
and types it; `ConstExpr.eval` computes one that has been checked.
-/

namespace WasmEngine.ConstExpr

/-- The operator that an opcode stands for in a constant expression. -/
def operator? (op : UInt8) : Option (Width × IntBinOp) :=
  match op with
  | 0x6a => some (.w32, .add)
  | 0x6b => some (.w32, .sub)
  | 0x6c => some (.w32, .mul)
  | 0x7c => some (.w64, .add)
  | 0x7d => some (.w64, .sub)
  | 0x7e => some (.w64, .mul)
  | _ => none

/-- Types the instruction `op` of a constant expression on a stack of operand types, top first. -/
def checkInstr (globals : Array Global) (op : UInt8) (stack : List ValType) :
    Reader (List ValType) := do
  match op with
  | 0x41 => discard (Reader.signed 32); pure (.i32 :: stack)
  | 0x42 => discard (Reader.signed 64); pure (.i64 :: stack)
  | 0x43 => discard (Reader.skip 4); pure (.f32 :: stack)
  | 0x44 => discard (Reader.skip 8); pure (.f64 :: stack)
  | 0x23 =>
    match globals[← Reader.u32]? with
    | none => Reader.invalid .unknownGlobal
    | some g => if g.isMutable then Reader.invalid .constantRequired else pure (g.type :: stack)
  | _ =>
    match operator? op with
    | none => Reader.invalid .constantRequired
    | some (w, _) =>
      match stack with
      | a :: b :: rest =>
        if a = w.intType ∧ b = w.intType then pure (w.intType :: rest)
        else Reader.invalid .typeMismatch
      | _ => Reader.invalid .typeMismatch

/-- Types the rest of a constant expression, of at most `left` instructions. -/
def checkRest (globals : Array Global) : Nat → List ValType → Reader (List ValType)
  | 0, _ => Reader.malformed .endOfInput
  | left + 1, stack => do
    match ← Reader.byte with
    | 0x0b => pure stack
    | op => do checkRest globals left (← checkInstr globals op stack)

/-- Reads a constant expression that yields one value of type `expected`. -/
def check (globals : Array Global) (expected : ValType) : Reader Unit := do
  -- Every instruction has a byte of its own, so the bytes left bound their number.
  let left := (← read).stop - (← Reader.position)
  let stack ← checkRest globals (left + 1) []
  if stack = [expected] then pure () else Reader.invalid .typeMismatch

/-- The little-endian word of `n` bytes at a position, and the position behind it. -/
def word (bytes : ByteArray) (n pos : Nat) : Option (Slot × Nat) :=
  go n pos 0 0
where
  /-- Adds the bytes that are left to `acc`. -/
  go : Nat → Nat → UInt64 → UInt64 → Option (Slot × Nat)
    | 0, pos, _, acc => some (acc, pos)
    | n + 1, pos, shift, acc =>
      match bytes[pos]? with
      | none => none
      | some b => go n (pos + 1) (shift + 8) (acc ||| (b.toUInt64 <<< shift))

/-- Computes the instruction `op` of a constant expression on a stack of slots, top first. -/
def evalInstr (bytes : ByteArray) (globals : Array Slot) (op : UInt8) (pos : Nat)
    (stack : List Slot) : Except Fault (List Slot × Nat) :=
  match op with
  | 0x41 =>
    match Leb128.trustedSigned bytes pos with
    | some (v, next) => .ok (v.toUInt32.toUInt64 :: stack, next)
    | none => .error .missingInstruction
  | 0x42 =>
    match Leb128.trustedSigned bytes pos with
    | some (v, next) => .ok (v :: stack, next)
    | none => .error .missingInstruction
  | 0x43 =>
    match word bytes 4 pos with
    | some (v, next) => .ok (v :: stack, next)
    | none => .error .missingInstruction
  | 0x44 =>
    match word bytes 8 pos with
    | some (v, next) => .ok (v :: stack, next)
    | none => .error .missingInstruction
  | 0x23 =>
    match Leb128.trustedUnsigned bytes pos with
    | some (index, next) =>
      match globals[index.toNat]? with
      | some v => .ok (v :: stack, next)
      | none => .error .missingGlobal
    | none => .error .missingInstruction
  | _ =>
    match operator? op, stack with
    | some (w, operator), b :: a :: rest =>
      match (BinaryOp.int w operator).eval a b with
      | .ok v => .ok (v :: rest, pos)
      | .error _ => .error .missingInstruction
    | some _, _ => .error .missingOperand
    | none, _ => .error .missingInstruction

/-- Computes the rest of a constant expression, of at most `left` instructions. -/
def evalRest (bytes : ByteArray) (globals : Array Slot) :
    Nat → Nat → List Slot → Except Fault (List Slot × Nat)
  | 0, _, _ => .error .missingInstruction
  | left + 1, pos, stack =>
    match bytes[pos]? with
    | none => .error .missingInstruction
    | some 0x0b => .ok (stack, pos + 1)
    | some op =>
      match evalInstr bytes globals op (pos + 1) stack with
      | .ok (stack, pos) => evalRest bytes globals left pos stack
      | .error f => .error f

/-- The value of the constant expression at a position, and the position behind its `end`. -/
def eval (bytes : ByteArray) (globals : Array Slot) (pos : Nat) : Except Fault (Slot × Nat) :=
  match evalRest bytes globals (bytes.size - pos) pos [] with
  | .ok (v :: _, next) => .ok (v, next)
  | .ok ([], _) => .error .missingOperand
  | .error f => .error f

end WasmEngine.ConstExpr
