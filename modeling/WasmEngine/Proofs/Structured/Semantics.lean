import WasmEngine.Machine.Access
import WasmEngine.Proofs.Syntax.Code

/-!
# Proofs/Structured/Semantics — what structured code means

A reference semantics that knows nothing of offsets, labels or frames.  Blocks are nested syntax and
every block has operands of its own: it is entered with its parameters, and what comes out of it goes
back on the operands that it was entered above.  `Program.Exec` relates code to the ways in which it
can be left: at its end, by a branch out of some of the enclosing blocks, by a return, or by a trap.
-/

namespace WasmEngine.Structured

/-! ## Programs -/

/-- A function of structured code. -/
structure Func where
  type : Signature
  /-- The number of locals besides the parameters. -/
  declared : Nat
  code : Code
deriving DecidableEq

/-- A program: its types, its functions, and the function in each slot of its table. -/
structure Program where
  types : Array Signature
  functions : Array Func
  table : Array (Option Nat)

/-- The signature that a block type stands for. -/
def Program.signature? (p : Program) : BlockType → Option Signature
  | .empty => some {}
  | .value t => some { results := [t] }
  | .index n => p.types[n]?

/-- What code works on. -/
structure Conf where
  locals : Array Slot
  /-- The operands of the innermost block, top first. -/
  operands : List Slot
  globals : Array Slot
  memory : Option Memory

namespace Conf

/-- Replaces the operands. -/
def withOperands (x : Conf) (operands : List Slot) : Conf := { x with operands }

/-- A function starts with its arguments, given top first, and zeros in its locals, and with no
operands. -/
def enter (x : Conf) (f : Func) (args : List Slot) : Conf :=
  { x with locals := args.reverse.toArray ++ Array.replicate f.declared 0, operands := [] }

/-- The caller goes on with the results, given top first, above its operands. -/
def resume (x y : Conf) (values operands : List Slot) : Conf :=
  { x with operands := values ++ operands, globals := y.globals, memory := y.memory }

end Conf

/-! ## Instructions without blocks -/

/-- What an instruction without blocks does. -/
inductive Action where
  /-- Execution goes on behind the instruction. -/
  | next (x : Conf)
  | trap (cause : Trap)
  /-- Execution leaves `depth` blocks and goes on at the end or the start of the next one. -/
  | branch (depth : Nat) (x : Conf)
  | ret (x : Conf)
  /-- A function is called; its arguments are the topmost operands. -/
  | call (f : Func) (x : Conf)

/-- The action of an operator: it leaves a value above the given operands, or traps. -/
def Action.ofValue (x : Conf) (operands : List Slot) : Except Trap Slot → Action
  | .ok v => next (x.withOperands (v :: operands))
  | .error t => trap t

/-- The action of a load.  An access out of bounds traps. -/
def Action.ofLoad (x : Conf) (operands : List Slot) (op : LoadOp) : Except Error Nat → Action
  | .ok n => next (x.withOperands (op.extend n :: operands))
  | .error _ => trap .memoryOutOfBounds

/-- The action of a change of memory.  An access out of bounds traps. -/
def Action.ofUpdate (x : Conf) (operands : List Slot) :
    EStateM.Result Error Memory Unit → Action
  | .ok () m => next { x with operands, memory := some m }
  | .error _ _ => trap .memoryOutOfBounds

/-- What an instruction without blocks does on a configuration; `none` if it makes no sense. -/
def Program.act (p : Program) (i : Instr Empty) (x : Conf) : Option Action :=
  match i, x.operands with
  | .unreachable, _ => some (.trap .unreachable)
  | .nop, _ => some (.next x)
  | .br depth, _ => some (.branch depth x)
  | .brIf depth, c :: vs =>
    let x := x.withOperands vs
    some (if c.toUInt32 != 0 then .branch depth x else .next x)
  | .brTable targets default, k :: vs =>
    some (.branch (targets[k.toUInt32.toNat]?.getD default) (x.withOperands vs))
  | .ret, _ => some (.ret x)
  | .call func, _ => p.functions[func]?.map fun f => .call f x
  | .callIndirect type _, k :: vs =>
    match p.table[k.toUInt32.toNat]? with
    | none => some (.trap .undefinedElement)
    | some none => some (.trap .uninitializedElement)
    | some (some func) =>
      match p.functions[func]?, p.types[type]? with
      | some f, some t =>
        some (if f.type = t then .call f (x.withOperands vs) else .trap .indirectCallTypeMismatch)
      | _, _ => none
  | .drop, _ :: vs => some (.next (x.withOperands vs))
  | .select _, c :: b :: a :: vs =>
    some (.next (x.withOperands ((if c.toUInt32 != 0 then a else b) :: vs)))
  | .localGet k, vs => x.locals[k]?.map fun v => .next (x.withOperands (v :: vs))
  | .localSet k, v :: vs =>
    if k < x.locals.size then
      some (.next { x with locals := x.locals.setIfInBounds k v, operands := vs })
    else none
  | .localTee k, v :: vs =>
    if k < x.locals.size then
      some (.next { x with locals := x.locals.setIfInBounds k v, operands := v :: vs })
    else none
  | .globalGet k, vs => x.globals[k]?.map fun v => .next (x.withOperands (v :: vs))
  | .globalSet k, v :: vs =>
    if k < x.globals.size then
      some (.next { x with globals := x.globals.setIfInBounds k v, operands := vs })
    else none
  | .const v, vs => some (.next (x.withOperands (v.toSlot :: vs)))
  | .numeric (.unary op), a :: vs => some (.ofValue x vs (op.eval a))
  | .numeric (.binary op), b :: a :: vs => some (.ofValue x vs (op.eval a b))
  | .load op arg, ptr :: vs =>
    x.memory.map fun m => .ofLoad x vs op (m.load (1 <<< op.logWidth) ptr.toUInt32 arg.offset)
  | .store op arg, v :: ptr :: vs =>
    x.memory.map fun m =>
      .ofUpdate x vs (m.store (1 <<< op.logWidth) ptr.toUInt32 arg.offset v.toNat)
  | .memorySize, vs => x.memory.map fun m => .next (x.withOperands (m.pages.toUInt64 :: vs))
  | .memoryGrow, n :: vs =>
    x.memory.map fun m =>
      let (old, m) := m.grow n.toUInt32.toNat
      let size := (old.map Nat.toUInt64).getD 0xffffffff
      .next { x with operands := size :: vs, memory := some m }
  | .memoryCopy, len :: src :: dst :: vs =>
    x.memory.map fun m => .ofUpdate x vs (m.copy dst.toUInt32 src.toUInt32 len.toUInt32)
  | .memoryFill, len :: value :: dst :: vs =>
    x.memory.map fun m => .ofUpdate x vs (m.fill dst.toUInt32 value.toUInt8 len.toUInt32)
  | _, _ => none

/-! ## Blocks -/

/-- The block that code begins with, the code behind it, and what the block is entered with: a
`block`, or the half of an `if` that the condition on the stack selects.  A missing half is empty. -/
def opened? (code : Code) (x : Conf) : Option (BlockType × Code × Code × Conf) :=
  match code, x.operands with
  | .block type body rest, _ => some (type, body, rest, x)
  | .ifThen type body rest, c :: vs =>
    some (type, if c.toUInt32 != 0 then body else .nil, rest, x.withOperands vs)
  | .ifElse type thenBody elseBody rest, c :: vs =>
    some (type, if c.toUInt32 != 0 then thenBody else elseBody, rest, x.withOperands vs)
  | _, _ => none

/-- How code can be left. -/
inductive Exit where
  /-- At its end. -/
  | normal (x : Conf)
  /-- By a branch out of `depth` blocks, to the end or the start of the next one. -/
  | branch (depth : Nat) (x : Conf)
  | ret (x : Conf)
  | trap (cause : Trap) (x : Conf)

namespace Exit

/-- The configuration behind a block of `n` results that was entered above the operands `below`. -/
def closed? (n : Nat) (below : List Slot) : Exit → Option Conf
  | normal x =>
    if x.operands.length = n then some (x.withOperands (x.operands ++ below)) else none
  | branch 0 x =>
    if n ≤ x.operands.length then some (x.withOperands (x.operands.take n ++ below)) else none
  | _ => none

/-- The configuration in which a loop of `n` parameters starts again. -/
def again? (n : Nat) (below : List Slot) : Exit → Option Conf
  | branch 0 x =>
    if n ≤ x.operands.length then some (x.withOperands (x.operands.take n ++ below)) else none
  | _ => none

/-- The configuration behind a loop of `n` results. -/
def passed? (n : Nat) (below : List Slot) : Exit → Option Conf
  | normal x =>
    if x.operands.length = n then some (x.withOperands (x.operands ++ below)) else none
  | _ => none

/-- How the code around a block is left, if leaving the block leaves that code, too. -/
def outer? : Exit → Option Exit
  | branch (depth + 1) x => some (branch depth x)
  | ret x => some (ret x)
  | trap cause x => some (trap cause x)
  | _ => none

/-- The results of a function, top first.  The outermost label is the end of the function. -/
def returned? (n : Nat) : Exit → Option (List Slot × Conf)
  | normal x | branch 0 x | ret x =>
    if n ≤ x.operands.length then some (x.operands.take n, x) else none
  | _ => none

end Exit

/-! ## Execution -/

/-- `p.Exec code x e`: from `x`, the code is left by `e`. -/
inductive Program.Exec (p : Program) : Code → Conf → Exit → Prop where
  | nil {x} : Exec p .nil x (.normal x)
  | next {i rest x y e} (h : p.act i x = some (.next y)) (hrest : Exec p rest y e) :
      Exec p (.plain i rest) x e
  | trap {i rest x t} (h : p.act i x = some (.trap t)) : Exec p (.plain i rest) x (.trap t x)
  | branch {i rest x depth y} (h : p.act i x = some (.branch depth y)) :
      Exec p (.plain i rest) x (.branch depth y)
  | ret {i rest x y} (h : p.act i x = some (.ret y)) : Exec p (.plain i rest) x (.ret y)
  | call {i rest x f y args below e values z e'} (h : p.act i x = some (.call f y))
      (hops : y.operands = args ++ below) (hargs : args.length = f.type.params.length)
      (hbody : Exec p f.code (y.enter f args) e)
      (hret : e.returned? f.type.results.length = some (values, z))
      (hrest : Exec p rest (y.resume z values below) e') : Exec p (.plain i rest) x e'
  | callTrap {i rest x f y args below t z} (h : p.act i x = some (.call f y))
      (hops : y.operands = args ++ below) (hargs : args.length = f.type.params.length)
      (hbody : Exec p f.code (y.enter f args) (.trap t z)) : Exec p (.plain i rest) x (.trap t z)
  | block {code x type body rest y sig args below e z e'}
      (h : opened? code x = some (type, body, rest, y)) (hs : p.signature? type = some sig)
      (hops : y.operands = args ++ below) (hargs : args.length = sig.params.length)
      (hbody : Exec p body (y.withOperands args) e)
      (hclose : e.closed? sig.results.length below = some z) (hrest : Exec p rest z e') :
      Exec p code x e'
  | blockExit {code x type body rest y sig args below e e'}
      (h : opened? code x = some (type, body, rest, y)) (hs : p.signature? type = some sig)
      (hops : y.operands = args ++ below) (hargs : args.length = sig.params.length)
      (hbody : Exec p body (y.withOperands args) e) (hexit : e.outer? = some e') :
      Exec p code x e'
  | loop {type body rest x sig args below e z e'} (hs : p.signature? type = some sig)
      (hops : x.operands = args ++ below) (hargs : args.length = sig.params.length)
      (hbody : Exec p body (x.withOperands args) e)
      (hpass : e.passed? sig.results.length below = some z) (hrest : Exec p rest z e') :
      Exec p (.loop type body rest) x e'
  | loopAgain {type body rest x sig args below e z e'} (hs : p.signature? type = some sig)
      (hops : x.operands = args ++ below) (hargs : args.length = sig.params.length)
      (hbody : Exec p body (x.withOperands args) e)
      (hagain : e.again? sig.params.length below = some z)
      (hloop : Exec p (.loop type body rest) z e') : Exec p (.loop type body rest) x e'
  | loopExit {type body rest x sig args below e e'} (hs : p.signature? type = some sig)
      (hops : x.operands = args ++ below) (hargs : args.length = sig.params.length)
      (hbody : Exec p body (x.withOperands args) e) (hexit : e.outer? = some e') :
      Exec p (.loop type body rest) x e'

/-- What comes of a call: the results, in order, or a trap; with the globals and the memory then. -/
inductive Program.Calls (p : Program) (func : Nat) (args : List Slot) (globals : Array Slot)
    (memory : Option Memory) : Except Trap (List Slot) → Array Slot → Option Memory → Prop where
  | returned {f e values z} (hf : p.functions[func]? = some f)
      (hargs : args.length = f.type.params.length)
      (hbody : p.Exec f.code (Conf.enter ⟨#[], [], globals, memory⟩ f args.reverse) e)
      (hret : e.returned? f.type.results.length = some (values, z)) :
      Calls p func args globals memory (.ok values.reverse) z.globals z.memory
  | trapped {f t z} (hf : p.functions[func]? = some f)
      (hargs : args.length = f.type.params.length)
      (hbody : p.Exec f.code (Conf.enter ⟨#[], [], globals, memory⟩ f args.reverse) (.trap t z)) :
      Calls p func args globals memory (.error t) z.globals z.memory

end WasmEngine.Structured
