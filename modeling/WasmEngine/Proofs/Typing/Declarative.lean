import Mathlib.Data.List.Forall2
import WasmEngine.Proofs.Syntax.Code
import WasmEngine.Typing.Rules

/-!
# Proofs/Typing/Declarative — the type system of structured code

The typing rules, free of any checking: `HasArrow` types an instruction by the operands that it takes
and leaves, `Code.HasType` a sequence by the operands before and behind it.  Operands are listed from
the deepest to the topmost.

An operand of unknown type, `none`, occurs in code that cannot be reached and stands in for any type
(`Matches`).  What never falls through may leave anything: `unreachable`, `br`, `br_table` and
`return` are polymorphic in the operands below those they take and in the ones they leave.
-/

namespace WasmEngine

/-! ## Operands of unknown type -/

/-- Whether an operand of type `x` may stand where one of type `y` is taken. -/
def OperandType.Matches (x y : OperandType) : Prop := x = none ∨ x = y

/-- Whether operands may stand, each at its place, where others are taken. -/
abbrev MatchAll (xs ys : List OperandType) : Prop := List.Forall₂ OperandType.Matches xs ys

theorem OperandType.Matches.refl (x : OperandType) : OperandType.Matches x x := .inr rfl

theorem OperandType.Matches.trans {x y z : OperandType} (hxy : OperandType.Matches x y)
    (hyz : OperandType.Matches y z) : OperandType.Matches x z := by
  obtain rfl | rfl := hxy
  · exact .inl rfl
  · exact hyz

theorem MatchAll.refl (xs : List OperandType) : MatchAll xs xs :=
  List.forall₂_same.2 fun x _ => OperandType.Matches.refl x

theorem MatchAll.trans {xs ys zs : List OperandType} (hxy : MatchAll xs ys)
    (hyz : MatchAll ys zs) : MatchAll xs zs := by
  induction hxy generalizing zs with
  | nil => exact hyz
  | cons h _ ih =>
    cases hyz with
    | cons h' hrest => exact .cons (h.trans h') (ih hrest)

theorem MatchAll.split {xs ps qs : List OperandType} (h : MatchAll xs (ps ++ qs)) :
    ∃ ys zs, xs = ys ++ zs ∧ MatchAll ys ps ∧ MatchAll zs qs :=
  ⟨xs.take ps.length, xs.drop ps.length, (List.take_append_drop ..).symm,
    List.forall₂_take_append _ _ _ h, List.forall₂_drop_append _ _ _ h⟩

theorem matchAll_singleton {xs : List OperandType} {y : OperandType} (h : MatchAll xs [y]) :
    ∃ x, OperandType.Matches x y ∧ xs = [x] := by
  cases h with
  | cons hx hnil =>
    cases hnil
    exact ⟨_, hx, rfl⟩

/-! ## The rules -/

/-- The operands of known types. -/
abbrev known (ts : List ValType) : List OperandType := ts.map some

/-- The signature that a block type stands for. -/
def CodeContext.signature? (c : CodeContext) : BlockType → Option Signature
  | .empty => some {}
  | .value t => some { results := [t] }
  | .index n => c.module.types[n]?

/-- The types that a branch to each enclosing block carries, innermost first. -/
abbrev LabelTypes := List (List ValType)

/-- `HasArrow c labels i ps qs`: the instruction `i` takes operands of types `ps` and leaves operands
of types `qs`. -/
inductive HasArrow (c : CodeContext) (labels : LabelTypes) :
    Instr Empty → List OperandType → List OperandType → Prop where
  | unreachable (ps qs) : HasArrow c labels .unreachable ps qs
  | nop : HasArrow c labels .nop [] []
  | br {depth ts} (h : labels[depth]? = some ts) (ps qs) :
      HasArrow c labels (.br depth) (ps ++ known ts) qs
  | brIf {depth ts} (h : labels[depth]? = some ts) :
      HasArrow c labels (.brIf depth) (known ts ++ [some .i32]) (known ts)
  /-- One list of operands fits all targets. -/
  | brTable {targets default ts}
      (h : ∀ depth ∈ default :: targets,
        ∃ us, labels[depth]? = some us ∧ MatchAll ts (known us)) (ps qs) :
      HasArrow c labels (.brTable targets default) (ps ++ ts ++ [some .i32]) qs
  | ret (ps qs) : HasArrow c labels .ret (ps ++ known c.function.type.results) qs
  | call {func f} (h : c.module.functions[func]? = some f) :
      HasArrow c labels (.call func) (known f.type.params) (known f.type.results)
  | callIndirect {type sig} (ht : c.module.table.isSome = true)
      (h : c.module.types[type]? = some sig) :
      HasArrow c labels (.callIndirect type 0) (known sig.params ++ [some .i32])
        (known sig.results)
  | drop (t : OperandType) : HasArrow c labels .drop [t] []
  | select (t : OperandType) : HasArrow c labels (.select none) [t, t, some .i32] [t]
  | selectType (t : ValType) :
      HasArrow c labels (.select (some t)) [some t, some t, some .i32] [some t]
  | localGet {index t} (h : c.function.locals[index]? = some t) :
      HasArrow c labels (.localGet index) [] [some t]
  | localSet {index t} (h : c.function.locals[index]? = some t) :
      HasArrow c labels (.localSet index) [some t] []
  | localTee {index t} (h : c.function.locals[index]? = some t) :
      HasArrow c labels (.localTee index) [some t] [some t]
  | globalGet {index g} (h : c.module.globals[index]? = some g) :
      HasArrow c labels (.globalGet index) [] [some g.type]
  | globalSet {index g} (h : c.module.globals[index]? = some g) (hm : g.isMutable = true) :
      HasArrow c labels (.globalSet index) [some g.type] []
  | load {op : LoadOp} {arg : MemArg} (hm : c.module.memory.isSome = true)
      (ha : arg.align ≤ op.logWidth) :
      HasArrow c labels (.load op arg) [some .i32] [some op.type]
  | store {op : StoreOp} {arg : MemArg} (hm : c.module.memory.isSome = true)
      (ha : arg.align ≤ op.logWidth) :
      HasArrow c labels (.store op arg) [some .i32, some op.type] []
  | memorySize (hm : c.module.memory.isSome = true) :
      HasArrow c labels .memorySize [] [some .i32]
  | memoryGrow (hm : c.module.memory.isSome = true) :
      HasArrow c labels .memoryGrow [some .i32] [some .i32]
  | memoryCopy (hm : c.module.memory.isSome = true) :
      HasArrow c labels .memoryCopy [some .i32, some .i32, some .i32] []
  | memoryFill (hm : c.module.memory.isSome = true) :
      HasArrow c labels .memoryFill [some .i32, some .i32, some .i32] []
  | const (v : Value) : HasArrow c labels (.const v) [] [some v.type]
  | numeric (op : NumOp) : HasArrow c labels (.numeric op) (known op.operands) [some op.result]

/-- The target that a table of branches chooses is one of those that its rule speaks of. -/
theorem chosen_mem {targets : List Nat} {default : Nat} (k : Nat) :
    targets[k]?.getD default ∈ default :: targets := by
  cases hk : targets[k]? with
  | none => exact List.mem_cons_self
  | some depth => exact List.mem_cons_of_mem _ (List.mem_of_getElem? hk)

/-- `c.HasType labels code ts us`: from operands of types `ts`, the code leaves operands of types
`us`.  Each rule leaves the operands `xs` below those that it takes alone. -/
inductive CodeContext.HasType (c : CodeContext) :
    LabelTypes → Code → List OperandType → List OperandType → Prop where
  | nil {labels ts us} (h : MatchAll ts us) : HasType c labels .nil ts us
  | plain {labels i rest xs ts ps qs us} (h₁ : HasArrow c labels i ps qs) (hp : MatchAll ts ps)
      (h₂ : HasType c labels rest (xs ++ qs) us) :
      HasType c labels (.plain i rest) (xs ++ ts) us
  | block {labels type sig body rest xs ts us} (hs : c.signature? type = some sig)
      (h₁ : HasType c (sig.results :: labels) body (known sig.params) (known sig.results))
      (hp : MatchAll ts (known sig.params))
      (h₂ : HasType c labels rest (xs ++ known sig.results) us) :
      HasType c labels (.block type body rest) (xs ++ ts) us
  | loop {labels type sig body rest xs ts us} (hs : c.signature? type = some sig)
      (h₁ : HasType c (sig.params :: labels) body (known sig.params) (known sig.results))
      (hp : MatchAll ts (known sig.params))
      (h₂ : HasType c labels rest (xs ++ known sig.results) us) :
      HasType c labels (.loop type body rest) (xs ++ ts) us
  /-- Without an `else`, the parameters are the results. -/
  | ifThen {labels type sig body rest xs ts us} (hs : c.signature? type = some sig)
      (heq : sig.params = sig.results)
      (h₁ : HasType c (sig.results :: labels) body (known sig.params) (known sig.results))
      (hp : MatchAll ts (known sig.params ++ [some .i32]))
      (h₂ : HasType c labels rest (xs ++ known sig.results) us) :
      HasType c labels (.ifThen type body rest) (xs ++ ts) us
  | ifElse {labels type sig thenBody elseBody rest xs ts us} (hs : c.signature? type = some sig)
      (h₁ : HasType c (sig.results :: labels) thenBody (known sig.params) (known sig.results))
      (h₂ : HasType c (sig.results :: labels) elseBody (known sig.params) (known sig.results))
      (hp : MatchAll ts (known sig.params ++ [some .i32]))
      (h₃ : HasType c labels rest (xs ++ known sig.results) us) :
      HasType c labels (.ifElse type thenBody elseBody rest) (xs ++ ts) us

/-- Whether code is the body of the function that `c` is about: from no operands, it leaves the
results, which a branch out of all blocks carries as well. -/
def CodeContext.HasBody (c : CodeContext) (code : Code) : Prop :=
  c.HasType [c.function.type.results] code [] (known c.function.type.results)

end WasmEngine
