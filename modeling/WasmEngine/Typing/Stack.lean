import WasmEngine.Module.Basic

/-!
# Typing/Stack — the abstract operand stack of validation

While code is validated, each open block has a frame with the types of the operands that it has
pushed itself.  After an instruction that never falls through, the frame is unreachable: operands
that it lacks may be taken as of any type, written `none`.

The frames form a nonempty stack, `Typing.frame` over `Typing.outer`; the outermost belongs to the
function.
-/

namespace WasmEngine

/-- The type of an operand; `none` if the code cannot be reached and any type will do. -/
abbrev OperandType := Option ValType

/-- The construct that a frame belongs to. -/
inductive BlockKind where
  | function
  | block
  | loop
  | ifThen
  | ifElse
deriving DecidableEq, Repr

/-- An open block. -/
structure ControlFrame where
  kind : BlockKind
  type : Signature
  /-- The types of the operands pushed since the block was entered, top first. -/
  operands : List OperandType := []
  isUnreachable : Bool := false
  /-- The offset of the opcode. -/
  opcode : Nat
  /-- The offset behind the block type. -/
  body : Nat
  /-- The offset behind the `else`, once it has been read. -/
  elseBody : Option Nat := none
deriving Repr

/-- The types that a branch to a frame carries. -/
def ControlFrame.labelTypes (f : ControlFrame) : List ValType :=
  if f.kind = .loop then f.type.params else f.type.results

/-- The state of validation between two instructions. -/
structure Typing where
  /-- The innermost open block. -/
  frame : ControlFrame
  /-- The blocks around it, innermost first. -/
  outer : List ControlFrame := []
deriving Repr

/-- A step of validation: changes the state or finds a violation. -/
abbrev Check := StateT Typing (Except Violation)

namespace Check

/-- Changes the innermost frame. -/
def modifyFrame (f : ControlFrame → ControlFrame) : Check Unit :=
  modify fun t => { t with frame := f t.frame }

/-- Pushes an operand. -/
def push (x : OperandType) : Check Unit :=
  modifyFrame fun f => { f with operands := x :: f.operands }

/-- Pushes operands, the last one on top. -/
def pushAll (xs : List OperandType) : Check Unit :=
  modifyFrame fun f => { f with operands := xs.reverse ++ f.operands }

/-- Pushes operands of known types, the last one on top. -/
def pushTypes (ts : List ValType) : Check Unit := pushAll (ts.map some)

/-- Takes the top operand.  An unreachable frame yields as many operands as are asked for. -/
def pop : Check OperandType := do
  let f := (← get).frame
  match f.operands with
  | x :: rest =>
    modifyFrame ({ · with operands := rest })
    pure x
  | [] => if f.isUnreachable then pure none else throw .typeMismatch

/-- Takes the top operand, which must be of type `t`. -/
def expect (t : ValType) : Check OperandType := do
  match ← pop with
  | none => pure none
  | some actual => if actual = t then pure (some actual) else throw .typeMismatch

/-- Takes operands of the given types, the last one from the top, and yields them in that order. -/
def expectAll : List ValType → Check (List OperandType)
  | [] => pure []
  | t :: ts => do
    let xs ← expectAll ts
    let x ← expect t
    pure (x :: xs)

/-- Opens a block whose parameters have been taken from the enclosing one. -/
def enter (frame : ControlFrame) : Check Unit := do
  modify fun t => { frame, outer := t.frame :: t.outer }
  pushTypes frame.type.params

/-- Takes the results of the innermost block, which must leave no operand behind, and yields its
frame. -/
def finishFrame : Check ControlFrame := do
  discard (expectAll (← get).frame.type.results)
  let f := (← get).frame
  if f.operands.isEmpty then pure f else throw .typeMismatch

/-- Marks the rest of the innermost block as unreachable. -/
def setUnreachable : Check Unit :=
  modifyFrame ({ · with operands := [], isUnreachable := true })

/-- The types that a branch out of `depth` blocks carries. -/
def labelTypes (depth : Nat) : Check (List ValType) := do
  let t ← get
  match (t.frame :: t.outer)[depth]? with
  | some f => pure f.labelTypes
  | none => throw .unknownLabel

end Check

end WasmEngine
