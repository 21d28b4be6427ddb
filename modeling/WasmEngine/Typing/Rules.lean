import WasmEngine.Instr.Basic
import WasmEngine.Typing.Stack

/-!
# Typing/Rules — the typing rule of each instruction

`Check.instr` applies the rule of one instruction to the abstract stack.  When the instruction closes
a block, it reports the jump entry of that block.
-/

namespace WasmEngine

/-- What the code of a function may refer to. -/
structure CodeContext where
  module : Module
  function : Function

/-- What an instruction means for the progress of validation. -/
inductive Closing where
  /-- No block is closed. -/
  | nothing
  /-- The block whose opcode is at `offset` is closed. -/
  | block (offset : Nat) (jump : BlockJump)
  /-- The function is closed. -/
  | function

/-- The place of an instruction: its offset and the offset behind it. -/
structure InstrSpan where
  start : Nat
  stop : Nat

namespace Check

/-- An item that must be there. -/
def required {α : Type} (v : Violation) : Option α → Check α
  | some a => pure a
  | none => throw v

/-- The signature of a block type. -/
def blockSignature (c : CodeContext) : BlockType → Check Signature
  | .empty => pure {}
  | .value t => pure { results := [t] }
  | .index n => required .unknownType c.module.types[n]?

/-- Opens a block of kind `kind`. -/
def openBlock (c : CodeContext) (s : InstrSpan) (kind : BlockKind) (type : BlockType) :
    Check Unit := do
  let type ← blockSignature c type
  if kind = .ifThen then discard (expect .i32)
  discard (expectAll type.params)
  enter { kind, type, opcode := s.start, body := s.stop }

/-- Closes the first half of an `if` and opens the second. -/
def elseMark (s : InstrSpan) : Check Unit := do
  unless (← get).frame.kind = .ifThen do throw .elseWithoutIf
  let f ← finishFrame
  modify fun t =>
    { t with frame :=
      { kind := .ifElse, type := f.type, opcode := f.opcode, body := f.body
        elseBody := some s.stop } }
  pushTypes f.type.params

/-- Closes the innermost block.  An `if` without `else` must leave its parameters as its results. -/
def endMark (s : InstrSpan) : Check Closing := do
  let f ← finishFrame
  match (← get).outer with
  | [] => pure .function
  | frame :: outer =>
    if f.kind = .ifThen ∧ f.type.params ≠ f.type.results then throw .typeMismatch
    set ({ frame, outer } : Typing)
    pushTypes f.type.results
    pure <| .block f.opcode
      { body := f.body, elseBody := f.elseBody, stop := s.stop
        paramCount := f.type.params.length, resultCount := f.type.results.length }

/-- Types a branch table: all targets carry equally many operands, and the same operands fit each. -/
def brTable (targets : List Nat) (default : Nat) : Check Unit := do
  discard (expect .i32)
  let arity := (← labelTypes default).length
  for depth in targets do
    let types ← labelTypes depth
    unless types.length = arity do throw .typeMismatch
    pushAll (← expectAll types)
  discard (expectAll (← labelTypes default))
  setUnreachable

/-- Types the choice between two operands of one type. -/
def select : Check Unit := do
  discard (expect .i32)
  let x ← pop
  let y ← pop
  if x.isSome ∧ y.isSome ∧ x ≠ y then throw .typeMismatch
  push (x.or y)

/-- Applies the rule of an instruction. -/
def instr (c : CodeContext) (s : InstrSpan) : Instr BlockType → Check Closing
  | .endMark => endMark s
  | i => do rule i; pure .nothing
where
  /-- The rule of an instruction that closes no block. -/
  rule : Instr BlockType → Check Unit
    | .unreachable => setUnreachable
    | .nop | .endMark => pure ()
    | .block type => openBlock c s .block type
    | .loop type => openBlock c s .loop type
    | .ifThen type => openBlock c s .ifThen type
    | .elseMark => elseMark s
    | .br depth => do
      discard (expectAll (← labelTypes depth))
      setUnreachable
    | .brIf depth => do
      let types ← labelTypes depth
      discard (expect .i32)
      discard (expectAll types)
      pushTypes types
    | .brTable targets default => brTable targets default
    | .ret => do
      discard (expectAll c.function.type.results)
      setUnreachable
    | .call func => do
      let callee ← required .unknownFunc c.module.functions[func]?
      discard (expectAll callee.type.params)
      pushTypes callee.type.results
    | .callIndirect type table => do
      if c.module.table.isNone ∨ table ≠ 0 then throw .unknownTable
      let type ← required .unknownType c.module.types[type]?
      discard (expect .i32)
      discard (expectAll type.params)
      pushTypes type.results
    | .drop => discard pop
    | .select none => select
    | .select (some t) => do
      discard (expectAll [t, t, .i32])
      push t
    | .localGet index => do
      push (← required .unknownLocal c.function.locals[index]?)
    | .localSet index => do
      discard (expect (← required .unknownLocal c.function.locals[index]?))
    | .localTee index => do
      let t ← required .unknownLocal c.function.locals[index]?
      discard (expect t)
      push t
    | .globalGet index => do
      push (← required .unknownGlobal c.module.globals[index]?).type
    | .globalSet index => do
      let g ← required .unknownGlobal c.module.globals[index]?
      unless g.isMutable do throw .globalIsImmutable
      discard (expect g.type)
    | .load op arg => do
      if op.logWidth < arg.align then throw .alignmentTooLarge
      discard (expect .i32)
      push op.type
    | .store op arg => do
      if op.logWidth < arg.align then throw .alignmentTooLarge
      discard (expectAll [.i32, op.type])
    | .memorySize => push (some .i32)
    | .memoryGrow => do
      discard (expect .i32)
      push (some .i32)
    | .memoryCopy | .memoryFill => discard (expectAll [.i32, .i32, .i32])
    | .const value => push value.type
    | .numeric op => do
      discard (expectAll op.operands)
      push op.result

end Check

end WasmEngine
