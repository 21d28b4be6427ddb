import WasmEngine.Proofs.Typing.Stack

/-!
# Proofs/Typing/Blocks — opening and closing blocks in the checker

What the rules of the instructions that open a block, divide it or close it do to the frames:
`openBlock_eq_ok_iff`, `elseMark_eq_ok_iff`, `endMark_eq_ok_iff`.
-/

namespace WasmEngine.Check

variable {c : CodeContext} {s : InstrSpan} {t t' : Typing}

theorem blockSignature_eq_ok_iff {type : BlockType} {sig : Signature} :
    blockSignature c type t = .ok (sig, t') ↔ c.signature? type = some sig ∧ t = t' := by
  cases type with
  | empty => simp [blockSignature, CodeContext.signature?, pure_eq_ok_iff]
  | value ty => simp [blockSignature, CodeContext.signature?, pure_eq_ok_iff]
  | index n => exact required_eq_ok_iff

/-- The operands that a block takes when it is opened: its parameters and, if it is an `if`, the
condition. -/
def openingTypes (kind : BlockKind) (sig : Signature) : List OperandType :=
  known sig.params ++ if kind = .ifThen then [some .i32] else []

theorem openingTypes_of_ne (kind : BlockKind) (sig : Signature) (h : kind ≠ .ifThen) :
    openingTypes kind sig = known sig.params := by
  rw [openingTypes, if_neg h, List.append_nil]

/-- The frame of a block that has just been opened. -/
def openingFrame (s : InstrSpan) (kind : BlockKind) (sig : Signature) : ControlFrame :=
  { kind, type := sig, opcode := s.start, body := s.stop, operands := (known sig.params).reverse }

/-- The state behind the opening of a block that has left the operands `rest` to the enclosing one. -/
def opened (s : InstrSpan) (kind : BlockKind) (sig : Signature) (t : Typing)
    (rest : List OperandType) : Typing :=
  { frame := openingFrame s kind sig
    outer := (t.withStack rest t.frame.isUnreachable).frame :: t.outer }

/-- The state behind the `else`, which ends before `stop`, of an `if` opened in that way. -/
def divided (s : InstrSpan) (sig : Signature) (stop : Nat) (t : Typing)
    (rest : List OperandType) : Typing :=
  { opened s .ifElse sig t rest with
    frame := { openingFrame s .ifElse sig with elseBody := some stop } }

theorem enter_eq_ok_iff {kind : BlockKind} {sig : Signature} {u : Unit} :
    enter { kind, type := sig, opcode := s.start, body := s.stop } t = .ok (u, t') ↔
      t' = { frame := openingFrame s kind sig, outer := t.frame :: t.outer } := by
  have hrun : enter { kind, type := sig, opcode := s.start, body := s.stop } t
      = .ok ((), { frame := { openingFrame s kind sig with
        operands := (known sig.params).reverse ++ [] }, outer := t.frame :: t.outer }) := rfl
  rw [hrun, List.append_nil]
  simp [openingFrame, eq_comm]

/-- **Opening a block** takes its parameters off the enclosing one. -/
theorem openBlock_eq_ok_iff {kind : BlockKind} {type : BlockType} {u : Unit} :
    openBlock c s kind type t = .ok (u, t') ↔
      ∃ sig xs rest, c.signature? type = some sig ∧ MatchAll xs (openingTypes kind sig) ∧
        Takes t.frame.isUnreachable t.frame.operands xs rest ∧ t' = opened s kind sig t rest := by
  by_cases hk : kind = .ifThen
  · simp only [openBlock, openingTypes, if_pos hk, bind_eq_ok_iff, blockSignature_eq_ok_iff,
      discard_eq_ok_iff, expect_eq_ok_iff, expectAll_eq_ok_iff, enter_eq_ok_iff]
    constructor
    · rintro ⟨sig, _, ⟨hsig, rfl⟩, _, _, ⟨x, hx, mid, hmid, rfl⟩, _, _, ⟨xs, hxs, rest, hrest, rfl⟩,
        rfl⟩
      exact ⟨sig, xs ++ [x], rest, hsig, List.rel_append hxs (.cons hx .nil),
        takes_append_iff.2 ⟨mid, hmid, hrest⟩, rfl⟩
    · rintro ⟨sig, zs, rest, hsig, hzs, hrest, rfl⟩
      obtain ⟨xs, ys, rfl, hxs, hys⟩ := hzs.split
      obtain ⟨x, hx, rfl⟩ := matchAll_singleton hys
      obtain ⟨mid, hmid, hrest⟩ := takes_append_iff.1 hrest
      exact ⟨sig, _, ⟨hsig, rfl⟩, (), _, ⟨x, hx, mid, hmid, rfl⟩, (), _,
        ⟨xs, hxs, rest, hrest, rfl⟩, rfl⟩
  · simp only [openBlock, openingTypes, if_neg hk, bind_eq_ok_iff, blockSignature_eq_ok_iff,
      discard_eq_ok_iff, expectAll_eq_ok_iff, enter_eq_ok_iff, List.append_nil]
    constructor
    · rintro ⟨sig, _, ⟨hsig, rfl⟩, _, _, ⟨xs, hxs, rest, hrest, rfl⟩, rfl⟩
      exact ⟨sig, xs, rest, hsig, hxs, hrest, rfl⟩
    · rintro ⟨sig, xs, rest, hsig, hxs, hrest, rfl⟩
      exact ⟨sig, _, ⟨hsig, rfl⟩, (), _, ⟨xs, hxs, rest, hrest, rfl⟩, rfl⟩

/-- Whether the innermost block holds its results and nothing else. -/
def Finishes (t : Typing) : Prop :=
  ∃ xs, MatchAll xs (known t.frame.type.results) ∧
    Takes t.frame.isUnreachable t.frame.operands xs []

theorem finishFrame_eq_ok_iff {f : ControlFrame} :
    finishFrame t = .ok (f, t') ↔ Finishes t ∧
      f = (t.withStack [] t.frame.isUnreachable).frame ∧
      t' = t.withStack [] t.frame.isUnreachable := by
  rw [finishFrame, get_bind]
  simp only [bind_eq_ok_iff, discard_eq_ok_iff, expectAll_eq_ok_iff, get_eq_ok_iff,
    ite_else_throw_eq_ok_iff, pure_eq_ok_iff]
  constructor
  · rintro ⟨_, _, ⟨xs, hxs, rest, hrest, rfl⟩, _, _, ⟨rfl, rfl⟩, hempty, rfl, rfl⟩
    obtain rfl : rest = [] := List.isEmpty_iff.1 hempty
    exact ⟨⟨xs, hxs, hrest⟩, rfl, rfl⟩
  · rintro ⟨⟨xs, hxs, hrest⟩, rfl, rfl⟩
    exact ⟨(), _, ⟨xs, hxs, [], hrest, rfl⟩, _, _, ⟨rfl, rfl⟩, rfl, rfl, rfl⟩

/-- **Dividing an `if`** starts over with its parameters. -/
theorem elseMark_eq_ok_iff :
    elseMark s t = .ok ((), t') ↔ t.frame.kind = .ifThen ∧ Finishes t ∧
      t' = { t with frame :=
        { kind := .ifElse, type := t.frame.type, opcode := t.frame.opcode, body := t.frame.body
          elseBody := some s.stop, operands := (known t.frame.type.params).reverse } } := by
  rw [elseMark, get_bind]
  simp only [throw_bind, ite_else_throw_eq_ok_iff, bind_eq_ok_iff, finishFrame_eq_ok_iff]
  refine and_congr_right fun _ => ?_
  constructor
  · rintro ⟨_, _, ⟨hf, rfl, rfl⟩, _, _, hmod, hpush⟩
    cases hmod
    rw [pushTypes, pushAll_eq_ok_iff] at hpush
    exact ⟨hf, by simp [hpush, Typing.withStack]⟩
  · rintro ⟨hf, rfl⟩
    refine ⟨_, _, ⟨hf, rfl, rfl⟩, (), _, rfl, ?_⟩
    rw [pushTypes, pushAll_eq_ok_iff]
    simp [Typing.withStack]

/-- The jump entry of the innermost block if it ends before `stop`. -/
def closingJump (f : ControlFrame) (stop : Nat) : BlockJump :=
  { body := f.body, elseBody := f.elseBody, stop, paramCount := f.type.params.length
    resultCount := f.type.results.length }

/-- **Closing the function.** -/
theorem endMark_function_eq_ok_iff {closing : Closing} (ht : t.outer = []) :
    endMark s t = .ok (closing, t') ↔ Finishes t ∧ closing = .function ∧
      t' = t.withStack [] t.frame.isUnreachable := by
  have hout : (t.withStack [] t.frame.isUnreachable).outer = [] := ht
  simp only [endMark, bind_eq_ok_iff, finishFrame_eq_ok_iff, get_eq_ok_iff]
  constructor
  · rintro ⟨_, _, ⟨hf, rfl, rfl⟩, _, _, ⟨rfl, rfl⟩, h⟩
    rw [hout] at h
    obtain ⟨rfl, rfl⟩ := pure_eq_ok_iff.1 h
    exact ⟨hf, rfl, rfl⟩
  · rintro ⟨hf, rfl, rfl⟩
    refine ⟨_, _, ⟨hf, rfl, rfl⟩, _, _, ⟨rfl, rfl⟩, ?_⟩
    rw [hout]
    rfl

/-- **Closing a block** hands its results to the enclosing one. -/
theorem endMark_block_eq_ok_iff {closing : Closing} {f : ControlFrame} {outer : List ControlFrame}
    (ht : t.outer = f :: outer) :
    endMark s t = .ok (closing, t') ↔ Finishes t ∧
      (t.frame.kind = .ifThen → t.frame.type.params = t.frame.type.results) ∧
      closing = .block t.frame.opcode (closingJump t.frame s.stop) ∧
      t' = { frame := { f with operands := (known t.frame.type.results).reverse ++ f.operands }
             outer } := by
  have hif : ¬(t.frame.kind = .ifThen ∧ t.frame.type.params ≠ t.frame.type.results) ↔
      (t.frame.kind = .ifThen → t.frame.type.params = t.frame.type.results) := by
    rw [not_and, not_not]
  obtain ⟨frame, _⟩ := t
  obtain rfl := ht
  simp only [endMark, bind_eq_ok_iff, finishFrame_eq_ok_iff, get_eq_ok_iff, ← hif]
  constructor
  · rintro ⟨_, _, ⟨hf, rfl, rfl⟩, _, _, ⟨rfl, rfl⟩, h⟩
    obtain ⟨hne, h⟩ := ite_throw_eq_ok_iff.1 h
    simp only [bind_eq_ok_iff, set_eq_ok_iff, pushTypes, pushAll_eq_ok_iff, pure_eq_ok_iff] at h
    obtain ⟨_, _, rfl, _, _, rfl, rfl, rfl⟩ := h
    exact ⟨hf, hne, rfl, rfl⟩
  · rintro ⟨hf, hne, rfl, rfl⟩
    refine ⟨_, _, ⟨hf, rfl, rfl⟩, _, _, ⟨rfl, rfl⟩, ite_throw_eq_ok_iff.2 ⟨hne, ?_⟩⟩
    simp only [bind_eq_ok_iff, set_eq_ok_iff, pushTypes, pushAll_eq_ok_iff, pure_eq_ok_iff]
    exact ⟨⟨⟩, _, rfl, (), _, rfl, rfl, rfl⟩

end WasmEngine.Check
