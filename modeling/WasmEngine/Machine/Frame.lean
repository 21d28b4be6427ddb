import WasmEngine.Error
import WasmEngine.Instr.Basic
import WasmEngine.Module.Basic
import WasmEngine.Numeric.Eval

/-!
# Machine/Frame — the activation of a function, and the instructions that stay inside it

Each activation has its own locals, operands and labels.  A label records the height of the operands
below its block and the place where a branch to it goes on.  `Frame.exec` executes the instructions
that touch nothing else and hands back the others; an operand or local that is missing is a fault.

A dispatch loop that keeps one stack for all its activations takes the slot below instead, and only on
an empty stack is there nothing to take.  Such a loop is `Shared.Loop`: it is at the same instruction,
with the activations laid out one on the other, up to the first fault (`Shared.Loop.Mirrors`).  A hook
that leaves fewer results than it declares gets there (`Shared.call_takes_below`).
-/

namespace WasmEngine

/-- An open block. -/
structure Label where
  /-- The number of operands below the parameters of the block. -/
  height : Nat
  /-- Where a branch goes on: behind the block, or at the opcode of a loop. -/
  target : Nat
  /-- The number of operands that a branch carries. -/
  arity : Nat
deriving DecidableEq, Repr

/-- The activation of a function. -/
structure Frame where
  /-- The offset of the next instruction. -/
  pc : Nat
  /-- The parameters, then the declared locals. -/
  locals : Array Slot
  /-- The operands, top first. -/
  operands : List Slot := []
  /-- The open blocks, innermost first. -/
  labels : List Label := []
  /-- The number of results of the function. -/
  resultCount : Nat
  /-- The number of operands and locals of the activations below. -/
  below : Nat
  /-- The number of live activations of the instance, this one included. -/
  depth : Nat
deriving DecidableEq, Repr

/-- Where execution goes after an instruction inside a frame. -/
inductive Flow where
  /-- On with the frame. -/
  | next (f : Frame)
  /-- Out of the function, with the operands of the frame. -/
  | leave (f : Frame)
  /-- Nowhere yet: the instruction needs more than the frame, which is as it was. -/
  | outside (f : Frame)

namespace Frame

/-- The number of operands and locals of a frame and of those below. -/
def slotCount (f : Frame) : Nat := f.below + f.locals.size + f.operands.length

/-- Replaces the operands. -/
def withOperands (f : Frame) (operands : List Slot) : Frame := { f with operands }

/-- Pushes an operand. -/
def push (f : Frame) (v : Slot) : Frame := { f with operands := v :: f.operands }

/-- A missing operand. -/
def missingOperand {α : Type} : Except Error α := .error (.fault .missingOperand)

/-- Opens a block: its parameters are on the stack, and a branch goes on at `target`. -/
def enter (f : Frame) (paramCount target arity : Nat) : Except Error Flow :=
  if f.operands.length < paramCount then missingOperand
  else
    let height := f.operands.length - paramCount
    .ok (.next { f with labels := ⟨height, target, arity⟩ :: f.labels })

/-- Branches out of `depth` blocks and to the end or the start of the next one.  A branch past all
blocks leaves the function. -/
def branch (f : Frame) (depth : Nat) : Except Error Flow :=
  match f.labels.drop depth with
  | [] => .ok (.leave f)
  | label :: labels =>
    let size := f.operands.length
    if size < label.height + label.arity then missingOperand
    else
      let operands := f.operands.take label.arity ++ f.operands.drop (size - label.height)
      .ok (.next { f with pc := label.target, operands, labels })

/-- Computes a numeric operator. -/
def numeric (f : Frame) (op : NumOp) : Except Error Flow :=
  match op, f.operands with
  | .unary op, a :: rest =>
    match op.eval a with
    | .ok v => .ok (.next (f.withOperands (v :: rest)))
    | .error t => .error (.trap t)
  | .binary op, b :: a :: rest =>
    match op.eval a b with
    | .ok v => .ok (.next (f.withOperands (v :: rest)))
    | .error t => .error (.trap t)
  | _, _ => missingOperand

/-- Executes an instruction on the frame alone, if it needs no more.  The instruction is at `opcode`,
and the frame goes on behind it. -/
def exec (f : Frame) (opcode : Nat) : Instr BlockJump → Except Error Flow
  | .unreachable => .error (.trap .unreachable)
  | .nop => .ok (.next f)
  | .block jump => f.enter jump.paramCount jump.stop jump.resultCount
  | .loop jump => f.enter jump.paramCount opcode jump.paramCount
  | .ifThen jump =>
    match f.operands with
    | [] => missingOperand
    | c :: rest =>
      let f := f.withOperands rest
      match c.toUInt32 != 0, jump.elseBody with
      | true, _ => f.enter jump.paramCount jump.stop jump.resultCount
      | false, some pc => { f with pc }.enter jump.paramCount jump.stop jump.resultCount
      | false, none => .ok (.next { f with pc := jump.stop })
  | .elseMark => f.branch 0
  | .endMark =>
    match f.labels with
    | [] => .ok (.leave f)
    | _ :: labels => .ok (.next { f with labels })
  | .br depth => f.branch depth
  | .brIf depth =>
    match f.operands with
    | [] => missingOperand
    | c :: rest =>
      let f := f.withOperands rest
      if c.toUInt32 != 0 then f.branch depth else .ok (.next f)
  | .brTable targets default =>
    match f.operands with
    | [] => missingOperand
    | i :: rest => (f.withOperands rest).branch (targets[i.toUInt32.toNat]?.getD default)
  | .ret => .ok (.leave f)
  | .drop =>
    match f.operands with
    | [] => missingOperand
    | _ :: rest => .ok (.next (f.withOperands rest))
  | .select _ =>
    match f.operands with
    | c :: b :: a :: rest =>
      .ok (.next (f.withOperands ((if c.toUInt32 != 0 then a else b) :: rest)))
    | _ => missingOperand
  | .localGet index =>
    match f.locals[index]? with
    | some v => .ok (.next (f.push v))
    | none => .error (.fault .missingLocal)
  | .localSet index =>
    match f.operands with
    | [] => missingOperand
    | v :: rest => setLocal (f.withOperands rest) index v
  | .localTee index =>
    match f.operands with
    | [] => missingOperand
    | v :: _ => setLocal f index v
  | .const value => .ok (.next (f.push value.toSlot))
  | .numeric op => f.numeric op
  | .call _ | .callIndirect _ _ | .globalGet _ | .globalSet _ | .load _ _ | .store _ _
  | .memorySize | .memoryGrow | .memoryCopy | .memoryFill => .ok (.outside f)
where
  /-- Sets a local, which must exist. -/
  setLocal (f : Frame) (index : Nat) (v : Slot) : Except Error Flow :=
    if index < f.locals.size then
      let ⟨pc, locals, operands, labels, resultCount, below, depth⟩ := f
      let locals := locals.setIfInBounds index v
      .ok (.next ⟨pc, locals, operands, labels, resultCount, below, depth⟩)
    else .error (.fault .missingLocal)

end Frame

end WasmEngine
