import WasmEngine.Proofs.Guarded.Reader
import WasmEngine.Proofs.Typing.Blocks

/-!
# Proofs/Guarded/Stack — the stack of validation as one list

The validator's operands may be held in one list, with a height for each open block that tells how
many there were when it was entered.  `FlatStack` is that form, and `FlatCheck` its steps: they test
that the control stack is not consulted when it is empty, that no step takes operands from below the
innermost height, and that labels are looked up in range.  `Mirrors` says that the steps on the
frames of `Typing` do the same, without an overrun.
-/

namespace WasmEngine

/-- An open block of a flat stack. -/
structure FlatFrame where
  kind : BlockKind
  type : Signature
  /-- The number of operands when the block was entered. -/
  height : Nat
  isUnreachable : Bool := false
  opcode : Nat
  body : Nat
  elseBody : Option Nat := none

/-- The types that a branch to a frame carries. -/
def FlatFrame.labelTypes (f : FlatFrame) : List ValType :=
  if f.kind = .loop then f.type.params else f.type.results

/-- All operands, top first, and the open blocks, innermost first. -/
structure FlatStack where
  operands : List OperandType := []
  frames : List FlatFrame := []

/-- There are at least as many operands as when the innermost block was entered. -/
def FlatStack.IsHigh (s : FlatStack) : Prop := ∀ f ∈ s.frames.head?, f.height ≤ s.operands.length

instance (s : FlatStack) : Decidable s.IsHigh :=
  inferInstanceAs (Decidable (∀ f ∈ s.frames.head?, f.height ≤ s.operands.length))

/-- A step on a flat stack: changes it, finds a violation, or overruns. -/
abbrev FlatCheck := StateT FlatStack (ExceptT Violation (Except Overrun))

namespace FlatCheck

open Guarded

/-- Runs a step. -/
def runOn {α : Type} (g : FlatCheck α) (s : FlatStack) :
    Except Overrun (Except Violation (α × FlatStack)) := g s

/-- The innermost block. -/
def innermost : FlatCheck FlatFrame := do
  match (← get).frames with
  | f :: _ => pure f
  | [] => throwThe Overrun .emptyControl

/-- Goes on with another stack. -/
def store (s : FlatStack) : FlatCheck Unit := do
  guarded s.IsHigh .belowHeight
  set s

/-- Pushes operands, the last one on top. -/
def pushAll (xs : List OperandType) : FlatCheck Unit := do
  let s ← get
  store { s with operands := xs.reverse ++ s.operands }

/-- Pushes an operand. -/
def push (x : OperandType) : FlatCheck Unit := pushAll [x]

/-- Pushes operands of known types, the last one on top. -/
def pushTypes (ts : List ValType) : FlatCheck Unit := pushAll (ts.map some)

/-- Takes the top operand, of those above the innermost height.  An unreachable block yields as many
operands as are asked for. -/
def pop : FlatCheck OperandType := do
  let f ← innermost
  let s ← get
  if s.operands.length = f.height then
    if f.isUnreachable then pure none else throw Violation.typeMismatch
  else
    match s.operands with
    | x :: rest =>
      store { s with operands := rest }
      pure x
    | [] => throw Violation.typeMismatch

/-- Takes the top operand, which must be of type `t`. -/
def expect (t : ValType) : FlatCheck OperandType := do
  match ← pop with
  | none => pure none
  | some actual => if actual = t then pure (some actual) else throw Violation.typeMismatch

/-- Takes operands of the given types, the last one from the top, and yields them in that order. -/
def expectAll : List ValType → FlatCheck (List OperandType)
  | [] => pure []
  | t :: ts => do
    let xs ← expectAll ts
    let x ← expect t
    pure (x :: xs)

/-- Opens a block whose parameters have been taken from the enclosing one. -/
def enter (kind : BlockKind) (type : Signature) (opcode body : Nat) (elseBody : Option Nat) :
    FlatCheck Unit := do
  let height := (← get).operands.length
  pushTypes type.params
  let s ← get
  store { s with frames := { kind, type, height, opcode, body, elseBody } :: s.frames }

/-- Closes the innermost block, which must hold no operand. -/
def closeInnermost : FlatCheck FlatFrame := do
  let f ← innermost
  let s ← get
  store { s with frames := s.frames.tail }
  if s.operands.length = f.height then pure f else throw Violation.typeMismatch

/-- Takes the results of the innermost block and closes it. -/
def leave : FlatCheck FlatFrame := do
  discard (expectAll (← innermost).type.results)
  closeInnermost

/-- Marks the rest of the innermost block as unreachable. -/
def setUnreachable : FlatCheck Unit := do
  let f ← innermost
  let s ← get
  let excess ← difference s.operands.length f.height
  store { s with
    operands := s.operands.drop excess
    frames := { f with isUnreachable := true } :: s.frames.tail }

/-- The block that a branch out of `depth` blocks leads to.  Blocks are numbered from the outermost
one on. -/
def label (depth : Nat) : FlatCheck FlatFrame := do
  let s ← get
  if s.frames.length ≤ depth then throw Violation.unknownLabel
  else element s.frames.reverse (← difference (← difference s.frames.length 1) depth)

/-- The outermost block, which is the function. -/
def outermost : FlatCheck FlatFrame := do element (← get).frames.reverse 0

end FlatCheck

/-! ## Flat stacks and frames -/

/-- The frame of a flat stack for an open block above `height` operands. -/
def ControlFrame.flat (f : ControlFrame) (height : Nat) : FlatFrame :=
  { kind := f.kind, type := f.type, height, isUnreachable := f.isUnreachable, opcode := f.opcode
    body := f.body, elseBody := f.elseBody }

/-- The flat stack of open blocks, innermost first. -/
def flatten : List ControlFrame → FlatStack
  | [] => {}
  | f :: outer =>
    { operands := f.operands ++ (flatten outer).operands
      frames := f.flat (flatten outer).operands.length :: (flatten outer).frames }

namespace Typing

/-- The open blocks, innermost first. -/
def frames (t : Typing) : List ControlFrame := t.frame :: t.outer

/-- The state of validation as a flat stack. -/
def flat (t : Typing) : FlatStack := flatten t.frames

/-- The outermost block is that of a function with the given results, and the others are not. -/
def IsNested (results : List ValType) (t : Typing) : Prop :=
  ∃ (inner : List ControlFrame) (bottom : ControlFrame), t.frames = inner ++ [bottom] ∧
    bottom.kind = .function ∧ bottom.type = { results } ∧ ∀ f ∈ inner, f.kind ≠ .function

end Typing

theorem length_flatten (fs : List ControlFrame) : (flatten fs).frames.length = fs.length := by
  induction fs with
  | nil => rfl
  | cons f fs ih => rw [flatten, List.length_cons, List.length_cons, ih]

/-- **There are always as many operands as when the innermost block was entered.** -/
theorem isHigh_flatten (fs : List ControlFrame) : (flatten fs).IsHigh := by
  cases fs with
  | nil => exact fun f hf => by cases hf
  | cons f fs =>
    rintro _ ⟨⟩
    rw [flatten, List.length_append]
    exact Nat.le_add_left ..

theorem Typing.isHigh_flat (t : Typing) : t.flat.IsHigh := isHigh_flatten t.frames

namespace FlatCheck

open Guarded

variable {α β : Type} {results : List ValType} {s : FlatStack} {t : Typing}

/-! ## Single steps -/

theorem runOn_bind_of_ok {g : FlatCheck α} {g' : α → FlatCheck β} {a : α} {s' : FlatStack}
    (h : g.runOn s = .ok (.ok (a, s'))) : (g >>= g').runOn s = (g' a).runOn s' := by
  change Except.bind (g.runOn s) (ExceptT.bindCont fun x => g' x.1 x.2) = _
  rw [h]
  rfl

theorem runOn_bind_of_error {g : FlatCheck α} {g' : α → FlatCheck β} {v : Violation}
    (h : g.runOn s = .ok (.error v)) : (g >>= g').runOn s = .ok (.error v) := by
  change Except.bind (g.runOn s) (ExceptT.bindCont fun x => g' x.1 x.2) = _
  rw [h]
  rfl

@[simp] theorem runOn_get_bind (g' : FlatStack → FlatCheck β) :
    (get >>= g').runOn s = (g' s).runOn s := rfl

theorem runOn_store {s' : FlatStack} (h : s'.IsHigh) :
    (store s').runOn s = .ok (.ok ((), s')) := by
  rw [store, guarded_eq h, pure_bind]
  rfl

theorem runOn_innermost (t : Typing) : innermost.runOn t.flat =
    .ok (.ok (t.frame.flat (flatten t.outer).operands.length, t.flat)) := rfl

theorem check_bind_of_ok {c : Check α} {c' : α → Check β} {a : α} {t' : Typing}
    (h : c t = .ok (a, t')) : (c >>= c') t = c' a t' := by
  change (c t >>= fun x => c' x.1 x.2) = _
  rw [h]
  rfl

theorem check_bind_of_error {c : Check α} {c' : α → Check β} {v : Violation}
    (h : c t = .error v) : (c >>= c') t = .error v := by
  change (c t >>= fun x => c' x.1 x.2) = _
  rw [h]
  rfl

/-! ## Mirroring the steps on frames -/

/-- On nested blocks the step on a flat stack gives what the step on frames gives, and the blocks
stay nested. -/
structure MirrorsAt (results : List ValType) (g : FlatCheck α) (c : Check α) (t : Typing) :
    Prop where
  eq : g.runOn t.flat = .ok ((c t).map fun x => (x.1, x.2.flat))
  nested : ∀ a t', c t = .ok (a, t') → t'.IsNested results

/-- The steps agree whatever the nested blocks are. -/
def Mirrors (results : List ValType) (g : FlatCheck α) (c : Check α) : Prop :=
  ∀ t : Typing, t.IsNested results → MirrorsAt results g c t

theorem Mirrors.pure (a : α) : Mirrors results (pure a) (pure a) := fun _ ht =>
  { eq := rfl, nested := fun _ _ h => by cases h; exact ht }

theorem Mirrors.throw (v : Violation) :
    Mirrors results (throw v : FlatCheck α) (throw v) := fun _ _ =>
  { eq := rfl, nested := fun _ _ h => by cases h }

theorem MirrorsAt.bind {g : FlatCheck α} {c : Check α} {g' : α → FlatCheck β} {c' : α → Check β}
    (h : MirrorsAt results g c t) (h' : ∀ a, Mirrors results (g' a) (c' a)) :
    MirrorsAt results (g >>= g') (c >>= c') t := by
  obtain ⟨heq, hnested⟩ := h
  cases hc : c t with
  | error v =>
    have hrun : (c >>= c') t = .error v := check_bind_of_error hc
    rw [hc] at heq
    exact { eq := (runOn_bind_of_error heq).trans (by rw [hrun]; rfl)
            nested := fun a t' h => by rw [hrun] at h; cases h }
  | ok x =>
    obtain ⟨a, t'⟩ := x
    have hrun : (c >>= c') t = c' a t' := check_bind_of_ok hc
    rw [hc] at heq
    obtain ⟨heq', hnested'⟩ := h' a t' (hnested a t' hc)
    exact { eq := (runOn_bind_of_ok heq).trans (by rw [hrun]; exact heq')
            nested := fun b t'' h => hnested' b t'' (hrun ▸ h) }

theorem Mirrors.bind {g : FlatCheck α} {c : Check α} {g' : α → FlatCheck β} {c' : α → Check β}
    (h : Mirrors results g c) (h' : ∀ a, Mirrors results (g' a) (c' a)) :
    Mirrors results (g >>= g') (c >>= c') := fun t ht => (h t ht).bind h'

theorem Mirrors.ite {p : Prop} [Decidable p] {g g' : FlatCheck α} {c c' : Check α}
    (h : p → Mirrors results g c) (h' : ¬p → Mirrors results g' c') :
    Mirrors results (if p then g else g') (if p then c else c') := by
  split
  · next hp => exact h hp
  · next hp => exact h' hp

theorem Mirrors.discard {g : FlatCheck α} {c : Check α} (h : Mirrors results g c) :
    Mirrors results (discard g) (discard c) := by
  change Mirrors results (Function.const α PUnit.unit <$> g) (Function.const α PUnit.unit <$> c)
  rw [map_eq_pure_bind, map_eq_pure_bind]
  exact h.bind fun _ => .pure _

end FlatCheck

/-- Blocks stay nested when the innermost one changes but for its kind and type. -/
theorem Typing.IsNested.setFrame {results : List ValType} {t : Typing} (h : t.IsNested results)
    {f : ControlFrame} (hkind : f.kind = t.frame.kind) (htype : f.type = t.frame.type) :
    ({ t with frame := f } : Typing).IsNested results := by
  obtain ⟨inner, bottom, hframes, hbottom, hresults, hinner⟩ := h
  cases inner with
  | nil =>
    obtain ⟨rfl, houter⟩ := List.cons.inj hframes
    exact ⟨[], f, congrArg (f :: ·) houter, hkind.trans hbottom, htype.trans hresults, by simp⟩
  | cons g inner =>
    obtain ⟨rfl, houter⟩ := List.cons.inj hframes
    refine ⟨f :: inner, bottom, congrArg (f :: ·) houter, hbottom, hresults, ?_⟩
    exact List.forall_mem_cons.2 ⟨hkind ▸ hinner _ List.mem_cons_self,
      fun x hx => hinner x (List.mem_cons_of_mem _ hx)⟩

/-- Within the outermost block others may be opened. -/
theorem Typing.IsNested.enter {results : List ValType} {t : Typing} (h : t.IsNested results)
    {f : ControlFrame} (hkind : f.kind ≠ .function) :
    ({ frame := f, outer := t.frames } : Typing).IsNested results := by
  obtain ⟨inner, bottom, hframes, hbottom, hresults, hinner⟩ := h
  exact ⟨f :: inner, bottom, congrArg (f :: ·) hframes, hbottom, hresults,
    List.forall_mem_cons.2 ⟨hkind, hinner⟩⟩

/-- The innermost block is the function exactly if there is no other. -/
theorem Typing.IsNested.kind_iff {results : List ValType} {t : Typing} (h : t.IsNested results) :
    t.frame.kind = .function ↔ t.outer = [] := by
  obtain ⟨inner, bottom, hframes, hbottom, -, hinner⟩ := h
  cases inner with
  | nil =>
    obtain ⟨rfl, houter⟩ := List.cons.inj hframes
    exact iff_of_true hbottom houter
  | cons g inner =>
    obtain ⟨rfl, houter⟩ := List.cons.inj hframes
    exact iff_of_false (hinner _ List.mem_cons_self) (by simp [houter])

/-- What remains when the innermost block is closed is nested. -/
theorem Typing.IsNested.leave {results : List ValType} {t : Typing} (h : t.IsNested results)
    {f : ControlFrame} {outer : List ControlFrame} (houter : t.outer = f :: outer) :
    ({ frame := f, outer } : Typing).IsNested results := by
  obtain ⟨inner, bottom, hframes, hbottom, hresults, hinner⟩ := h
  cases inner with
  | nil =>
    have hnil : t.outer = [] := (List.cons.inj hframes).2
    rw [houter] at hnil
    cases hnil
  | cons g inner =>
    exact ⟨inner, bottom, houter.symm.trans (List.cons.inj hframes).2, hbottom, hresults,
      fun x hx => hinner x (List.mem_cons_of_mem _ hx)⟩

namespace FlatCheck

open Guarded

variable {α β : Type} {results : List ValType} {s : FlatStack} {t : Typing}

/-! ## Operands -/

/-- What a change of the innermost block amounts to on the flat stack. -/
theorem mirrorsAt_setFrame (ht : t.IsNested results) {g : FlatCheck α} {c : Check α} {a : α}
    {f : ControlFrame} (hkind : f.kind = t.frame.kind) (htype : f.type = t.frame.type)
    (hc : c t = .ok (a, { t with frame := f }))
    (hg : g.runOn t.flat = .ok (.ok (a, ({ t with frame := f } : Typing).flat))) :
    MirrorsAt results g c t :=
  { eq := by rw [hc]; exact hg
    nested := fun _ _ h => by
      rw [hc] at h
      cases h
      exact ht.setFrame hkind htype }

theorem mirrors_pushAll (xs : List OperandType) :
    Mirrors results (pushAll xs) (Check.pushAll xs) := by
  intro t ht
  refine mirrorsAt_setFrame (f := { t.frame with operands := xs.reverse ++ t.frame.operands }) ht
    rfl rfl rfl ?_
  have hflat : ({ t.flat with operands := xs.reverse ++ t.flat.operands } : FlatStack) =
      ({ t with frame := { t.frame with operands := xs.reverse ++ t.frame.operands } } :
        Typing).flat := by
    simp [Typing.flat, Typing.frames, flatten, ControlFrame.flat]
  rw [pushAll, runOn_get_bind, hflat, runOn_store (Typing.isHigh_flat _)]

theorem mirrors_push (x : OperandType) : Mirrors results (push x) (Check.push x) :=
  mirrors_pushAll [x]

theorem mirrors_pushTypes (ts : List ValType) :
    Mirrors results (pushTypes ts) (Check.pushTypes ts) := mirrors_pushAll _

theorem mirrors_pop : Mirrors results pop Check.pop := by
  intro t ht
  have hlength : t.flat.operands.length =
      t.frame.operands.length + (flatten t.outer).operands.length := List.length_append
  have hheight : (t.frame.flat (flatten t.outer).operands.length).height =
      (flatten t.outer).operands.length := rfl
  cases hops : t.frame.operands with
  | nil =>
    rw [hops, List.length_nil, Nat.zero_add, ← hheight] at hlength
    have hpop : Check.pop t =
        (if t.frame.isUnreachable then Pure.pure none else throw .typeMismatch :
          Check OperandType) t := by
      rw [Check.pop, Check.get_bind, hops]
    have hnone : Mirrors results
        (if t.frame.isUnreachable then Pure.pure none else throw Violation.typeMismatch :
          FlatCheck OperandType)
        (if t.frame.isUnreachable then Pure.pure none else throw .typeMismatch) :=
      .ite (fun _ => .pure none) fun _ => .throw _
    refine { eq := ?_, nested := fun a t' h => (hnone t ht).nested a t' (hpop ▸ h) }
    rw [pop, runOn_bind_of_ok (runOn_innermost t), runOn_get_bind, if_pos hlength, hpop,
      ← (hnone t ht).eq]
    rfl
  | cons x rest =>
    rw [hops, List.length_cons, ← hheight] at hlength
    have hflat : t.flat.operands = x :: (rest ++ (flatten t.outer).operands) := by
      simp [Typing.flat, Typing.frames, flatten, hops]
    refine mirrorsAt_setFrame (f := { t.frame with operands := rest }) ht rfl rfl
      (by rw [Check.pop, Check.get_bind, hops]; rfl) ?_
    rw [pop, runOn_bind_of_ok (runOn_innermost t), runOn_get_bind, if_neg (by omega), hflat]
    exact runOn_bind_of_ok (runOn_store (Typing.isHigh_flat
      { t with frame := { t.frame with operands := rest } }))

theorem mirrors_setUnreachable : Mirrors results setUnreachable Check.setUnreachable := by
  intro t ht
  refine mirrorsAt_setFrame (f := { t.frame with operands := [], isUnreachable := true }) ht
    rfl rfl rfl ?_
  have hlength : t.flat.operands.length =
      t.frame.operands.length + (flatten t.outer).operands.length := List.length_append
  have hflat : ({ t.flat with
        operands := t.flat.operands.drop t.frame.operands.length
        frames := { t.frame.flat (flatten t.outer).operands.length with isUnreachable := true } ::
          t.flat.frames.tail } : FlatStack) =
      ({ t with frame := { t.frame with operands := [], isUnreachable := true } } : Typing).flat := by
    simp [Typing.flat, Typing.frames, flatten, ControlFrame.flat]
  rw [setUnreachable, runOn_bind_of_ok (runOn_innermost t), runOn_get_bind,
    difference_eq (hlength ▸ Nat.le_add_left ..), pure_bind]
  have hexcess : t.flat.operands.length - (flatten t.outer).operands.length =
      t.frame.operands.length := by omega
  change (store { t.flat with
    operands := t.flat.operands.drop
      (t.flat.operands.length - (flatten t.outer).operands.length)
    frames := _ }).runOn _ = _
  rw [hexcess, hflat, runOn_store (Typing.isHigh_flat _)]

theorem mirrors_expect (type : ValType) :
    Mirrors results (expect type) (Check.expect type) := by
  refine mirrors_pop.bind fun x => ?_
  cases x with
  | none => exact .pure none
  | some actual => exact .ite (fun _ => .pure _) fun _ => .throw _

theorem mirrors_expectAll (types : List ValType) :
    Mirrors results (expectAll types) (Check.expectAll types) := by
  induction types with
  | nil => exact .pure []
  | cons type types ih =>
    exact ih.bind fun xs => (mirrors_expect type).bind fun x => .pure (x :: xs)

/-! ## Blocks -/

theorem getElem?_flatten (fs : List ControlFrame) (i : Nat) :
    (flatten fs).frames[i]? = fs[i]?.map fun f =>
      f.flat (flatten (fs.drop (i + 1))).operands.length := by
  induction fs generalizing i with
  | nil => rfl
  | cons f fs ih =>
    cases i with
    | zero => rfl
    | succ i => exact ih i

/-- Blocks are numbered from the outermost one on, and labels from the innermost one. -/
theorem runOn_label (t : Typing) {depth : Nat} {f : ControlFrame}
    (h : t.frames[depth]? = some f) :
    (label depth).runOn t.flat =
      .ok (.ok (f.flat (flatten (t.frames.drop (depth + 1))).operands.length, t.flat)) := by
  have hlt : depth < t.frames.length := (List.getElem?_eq_some_iff.1 h).1
  have hlength : t.flat.frames.length = t.frames.length := length_flatten t.frames
  have hget : t.flat.frames.reverse[t.flat.frames.length - 1 - depth]? =
      some (f.flat (flatten (t.frames.drop (depth + 1))).operands.length) := by
    have hindex : t.flat.frames.length - 1 - (t.flat.frames.length - 1 - depth) = depth := by omega
    rw [List.getElem?_reverse (by omega), hindex]
    exact (getElem?_flatten t.frames depth).trans (by rw [h]; rfl)
  rw [label, runOn_get_bind, if_neg (by omega), difference_eq (by omega), pure_bind,
    difference_eq (by omega), pure_bind, element_eq hget]
  rfl

/-- The types that a branch carries. -/
def labelTypes (depth : Nat) : FlatCheck (List ValType) := do
  pure (← label depth).labelTypes

theorem mirrors_labelTypes (depth : Nat) :
    Mirrors results (labelTypes depth) (Check.labelTypes depth) := by
  intro t ht
  cases h : t.frames[depth]? with
  | none =>
    have hcheck : Check.labelTypes depth t = .error .unknownLabel := by
      rw [Check.labelTypes, Check.get_bind, show (t.frame :: t.outer)[depth]? = none from h]
      rfl
    have hlength : t.flat.frames.length = t.frames.length := length_flatten t.frames
    have hle : t.flat.frames.length ≤ depth := hlength ▸ List.getElem?_eq_none_iff.1 h
    have hlabel : (label depth).runOn t.flat = .ok (.error .unknownLabel) := by
      rw [label, runOn_get_bind, if_pos hle]
      rfl
    exact { eq := (runOn_bind_of_error hlabel).trans (by rw [hcheck]; rfl)
            nested := fun _ _ h => by rw [hcheck] at h; cases h }
  | some f =>
    have hcheck : Check.labelTypes depth t = .ok (f.labelTypes, t) := by
      rw [Check.labelTypes, Check.get_bind, show (t.frame :: t.outer)[depth]? = some f from h]
      rfl
    exact mirrorsAt_setFrame (f := t.frame) ht rfl rfl hcheck (runOn_bind_of_ok (runOn_label t h))

/-- Among nested blocks the outermost one is the function. -/
theorem runOn_outermost (ht : t.IsNested results) :
    ∃ f : FlatFrame, outermost.runOn t.flat = .ok (.ok (f, t.flat)) ∧ f.labelTypes = results := by
  obtain ⟨inner, bottom, hframes, hkind, htype, -⟩ := ht
  have hlast : t.frames[t.frames.length - 1]? = some bottom := by
    rw [hframes, List.length_append, List.length_singleton, Nat.add_sub_cancel,
      List.getElem?_concat_length]
  have hlength : t.flat.frames.length = t.frames.length := length_flatten t.frames
  have hpos : 0 < t.frames.length := Nat.succ_pos _
  obtain ⟨height, hget⟩ : ∃ height, t.flat.frames.reverse[0]? = some (bottom.flat height) := by
    rw [List.getElem?_reverse (by omega), hlength, Nat.sub_zero]
    exact ⟨_, (getElem?_flatten t.frames _).trans (by rw [hlast]; rfl)⟩
  refine ⟨bottom.flat height, ?_, by simp [FlatFrame.labelTypes, ControlFrame.flat, hkind, htype]⟩
  rw [outermost, runOn_get_bind, element_eq hget]
  rfl

theorem mirrors_outermost :
    Mirrors results (do Pure.pure (← outermost).labelTypes) (Pure.pure results) := by
  intro t ht
  obtain ⟨f, hrun, hlabel⟩ := runOn_outermost ht
  refine mirrorsAt_setFrame (f := t.frame) ht rfl rfl rfl ((runOn_bind_of_ok hrun).trans ?_)
  rw [hlabel]
  rfl

theorem mirrors_enter {kind : BlockKind} (hkind : kind ≠ .function) (type : Signature)
    (opcode body : Nat) (elseBody : Option Nat) :
    Mirrors results (enter kind type opcode body elseBody)
      (Check.enter { kind, type, opcode, body, elseBody }) := by
  intro t ht
  let t' : Typing :=
    { frame :=
        { kind, type, opcode, body, elseBody, operands := (type.params.map some).reverse ++ [] }
      outer := t.frames }
  have hcheck : Check.enter { kind, type, opcode, body, elseBody } t = .ok ((), t') := rfl
  refine { eq := ?_, nested := fun _ _ h => by cases hcheck.symm.trans h; exact ht.enter hkind }
  have hpush := (mirrors_pushTypes type.params t ht).eq
  rw [enter, runOn_get_bind, hcheck, runOn_bind_of_ok hpush, runOn_get_bind]
  -- The parameters now belong to the new block.
  refine (congrArg (fun s => (store s).runOn _) ?_).trans (runOn_store t'.isHigh_flat)
  simp [t', Typing.flat, Typing.frames, flatten, ControlFrame.flat]

/-- The stack without its innermost block is high enough for the next one. -/
theorem isHigh_tail (t : Typing) :
    ({ t.flat with frames := t.flat.frames.tail } : FlatStack).IsHigh := by
  intro f hf
  refine Nat.le_trans (isHigh_flatten t.outer f hf) ?_
  change _ ≤ (t.frame.operands ++ (flatten t.outer).operands).length
  rw [List.length_append]
  exact Nat.le_add_left ..

theorem runOn_closeInnermost (t : Typing) : closeInnermost.runOn t.flat =
    if t.frame.operands = [] then
      .ok (.ok (t.frame.flat (flatten t.outer).operands.length, flatten t.outer))
    else .ok (.error .typeMismatch) := by
  have hlength : t.flat.operands.length =
      t.frame.operands.length + (flatten t.outer).operands.length := List.length_append
  have hheight : (t.frame.flat (flatten t.outer).operands.length).height =
      (flatten t.outer).operands.length := rfl
  rw [closeInnermost, runOn_bind_of_ok (runOn_innermost t), runOn_get_bind,
    runOn_bind_of_ok (runOn_store (isHigh_tail t))]
  by_cases hops : t.frame.operands = []
  · rw [hops, List.length_nil, Nat.zero_add, ← hheight] at hlength
    rw [if_pos hlength, if_pos hops]
    change Except.ok (Except.ok (_, ({ t.flat with frames := t.flat.frames.tail } : FlatStack))) = _
    simp [Typing.flat, Typing.frames, flatten, hops]
  · have hpos := List.length_pos_of_ne_nil hops
    rw [if_neg (by omega), if_neg hops]
    rfl

/-- **Closing the innermost block**: it has nothing but its results on it, and the blocks around it
stay as they are. -/
theorem runOn_leave_of_ok (ht : t.IsNested results) {f : ControlFrame} {t' : Typing}
    (h : Check.finishFrame t = .ok (f, t')) : leave.runOn t.flat =
      .ok (.ok (f.flat (flatten t.outer).operands.length, flatten t.outer)) := by
  obtain ⟨⟨xs, hxs, htakes⟩, rfl, rfl⟩ := Check.finishFrame_eq_ok_iff.1 h
  have hexpect : (discard (Check.expectAll t.frame.type.results) : Check Unit) t =
      .ok ((), t.withStack [] t.frame.isUnreachable) :=
    Check.discard_eq_ok_iff.2 ⟨xs, Check.expectAll_eq_ok_iff.2 ⟨hxs, [], htakes, rfl⟩⟩
  have heq := ((mirrors_expectAll t.frame.type.results).discard t ht).eq
  rw [hexpect] at heq
  rw [leave, runOn_bind_of_ok (runOn_innermost t)]
  refine (runOn_bind_of_ok heq).trans ?_
  rw [runOn_closeInnermost]
  rfl

theorem runOn_leave_of_error (ht : t.IsNested results) {v : Violation}
    (h : Check.finishFrame t = .error v) : leave.runOn t.flat = .ok (.error v) := by
  have heq := ((mirrors_expectAll t.frame.type.results).discard t ht).eq
  rw [leave, runOn_bind_of_ok (runOn_innermost t)]
  rw [Check.finishFrame, Check.get_bind] at h
  cases hexpect : (discard (Check.expectAll t.frame.type.results) : Check Unit) t with
  | error v' =>
    rw [check_bind_of_error hexpect] at h
    rw [hexpect] at heq
    cases h
    exact runOn_bind_of_error heq
  | ok x =>
    obtain ⟨⟨⟩, t₁⟩ := x
    rw [check_bind_of_ok hexpect, Check.get_bind] at h
    rw [hexpect] at heq
    refine (runOn_bind_of_ok heq).trans ?_
    rw [runOn_closeInnermost]
    by_cases hops : t₁.frame.operands = []
    · rw [if_pos (by simp [hops])] at h
      cases h
    · rw [if_neg (by simpa using hops)] at h
      cases h
      rw [if_neg hops]

end FlatCheck

end WasmEngine
