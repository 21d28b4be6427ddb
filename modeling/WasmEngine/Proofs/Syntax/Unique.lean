import WasmEngine.Proofs.Bytes
import WasmEngine.Proofs.Syntax.Reading

/-!
# Proofs/Syntax/Unique — a body encodes one code

The binary format leaves no choice: instructions are read off one after the other, and the marks of
the format tell where blocks end.  `Code.EncodesBody.unique`: bytes are the body of one code at most.
-/

namespace WasmEngine

variable {w : Window} {p q q' : Nat} {code code' : Code} {bs bs' : List UInt8}
  {mark mark' : Instr BlockType}

theorem Instr.IsPlain.of_embed_eq {i : Instr Empty} {j : Instr BlockType} (hi : i.IsPlain)
    (h : i.embed = j) : j.IsPlain := by
  subst h
  cases i with
  | block b | loop b | ifThen b => exact b.elim
  | elseMark | endMark => exact hi
  | _ => trivial

theorem Instr.Encodes.read {i : Instr BlockType} (hw : w.stop ≤ w.bytes.size) (h : i.Encodes bs)
    (hs : w.Spells p bs q) : Instr.read true w p = .ok (i, q) :=
  (Instr.accepts_read true hw).2 ⟨bs, hs, h, fun _ => rfl⟩

/-- The offset behind an instruction does not depend on how it is encoded. -/
theorem Instr.Encodes.stop_eq {i : Instr BlockType} (hw : w.stop ≤ w.bytes.size)
    (h : i.Encodes bs) (hs : w.Spells p bs q) (h' : i.Encodes bs') (hs' : w.Spells p bs' q') :
    q = q' :=
  (Prod.mk.inj (Except.ok.inj ((h.read hw hs).symm.trans (h'.read hw hs')))).2

/-- A mark of the format stands at an offset. -/
def MarkAt (w : Window) (p : Nat) (mark : Instr BlockType) : Prop :=
  (mark = .elseMark ∨ mark = .endMark) ∧ ∃ next, Instr.read true w p = .ok (mark, next)

theorem MarkAt.not_isPlain (h : MarkAt w p mark) : ¬mark.IsPlain := by
  obtain rfl | rfl := h.1 <;> exact id

theorem markAt_elseMark {bs₁ : List UInt8} (hw : w.stop ≤ w.bytes.size)
    (hs : w.Spells p (0x05 :: bs₁) q) : MarkAt w p .elseMark :=
  ⟨.inl rfl, p + 1, Instr.Encodes.read hw .elseMark
    (Window.spells_singleton.2 ⟨(Window.spells_cons.1 hs).1, rfl⟩)⟩

theorem markAt_endMark {bs₁ : List UInt8} (hw : w.stop ≤ w.bytes.size)
    (hs : w.Spells p (0x0b :: bs₁) q) : MarkAt w p .endMark :=
  ⟨.inr rfl, p + 1, Instr.Encodes.read hw .endMark
    (Window.spells_singleton.2 ⟨(Window.spells_cons.1 hs).1, rfl⟩)⟩

namespace Code

/-- The first instruction of code with a mark behind it. -/
def first (mark : Instr BlockType) : Code → Instr BlockType
  | nil => mark
  | plain i _ => i.embed
  | block type _ _ => .block type
  | loop type _ _ => .loop type
  | ifThen type _ _ | ifElse type _ _ _ => .ifThen type

theorem Encodes.read_first (hw : w.stop ≤ w.bytes.size) (h : code.Encodes bs)
    (hs : w.Spells p bs q) (hm : MarkAt w q mark) :
    ∃ next, Instr.read true w p = .ok (code.first mark, next) := by
  cases h with
  | nil =>
    obtain rfl : q = p := hs
    exact hm.2
  | plain _ h₁ _ | block h₁ _ _ | loop h₁ _ _ | ifThen h₁ _ _ | ifElse h₁ _ _ _ =>
    obtain ⟨p₁, hs₁, -⟩ := Window.spells_append.1 hs
    exact ⟨p₁, h₁.read hw hs₁⟩

/-- Codes that begin at one offset begin with one instruction. -/
theorem Encodes.first_eq (hw : w.stop ≤ w.bytes.size) (h : code.Encodes bs)
    (hs : w.Spells p bs q) (hm : MarkAt w q mark) (h' : code'.Encodes bs')
    (hs' : w.Spells p bs' q') (hm' : MarkAt w q' mark') : code.first mark = code'.first mark' := by
  obtain ⟨next, hr⟩ := h.read_first hw hs hm
  obtain ⟨next', hr'⟩ := h'.read_first hw hs' hm'
  exact (Prod.mk.inj (Except.ok.inj (hr.symm.trans hr'))).1

theorem spells_nested {b₁ b₂ b₃ : List UInt8} {b : UInt8}
    (hs : w.Spells p (b₁ ++ (b₂ ++ (b :: b₃))) q) :
    ∃ p₁ q₁, w.Spells p b₁ p₁ ∧ w.Spells p₁ b₂ q₁ ∧ w.Spells q₁ (b :: b₃) q := by
  obtain ⟨p₁, hs₁, hs⟩ := Window.spells_append.1 hs
  obtain ⟨q₁, hs₂, hs₃⟩ := Window.spells_append.1 hs
  exact ⟨p₁, q₁, hs₁, hs₂, hs₃⟩

/-- The two ways of writing an `if` differ in the mark behind the first half. -/
theorem elseMark_ne_endMark {b₁ b₂ : List UInt8} {r r' : Nat} (h : w.Spells p (0x05 :: b₁) r)
    (h' : w.Spells p (0x0b :: b₂) r') : False := by
  have := (Window.spells_cons.1 h).1.symm.trans (Window.spells_cons.1 h').1
  cases this

/-- **Codes that begin at one offset and end at marks are the same.** -/
theorem Encodes.unique (hw : w.stop ≤ w.bytes.size) (h : code.Encodes bs) (hs : w.Spells p bs q)
    (hm : MarkAt w q mark) (h' : code'.Encodes bs') (hs' : w.Spells p bs' q')
    (hm' : MarkAt w q' mark') : code = code' ∧ q = q' := by
  induction h generalizing p q q' code' bs' mark mark' with
  | nil =>
    have hfirst := Encodes.nil.first_eq hw hs hm h' hs' hm'
    obtain rfl : q = p := hs
    cases h' with
    | nil => exact ⟨rfl, hs'.symm⟩
    | plain hi _ _ => exact absurd (hi.of_embed_eq hfirst.symm) hm.not_isPlain
    | _ => obtain rfl | rfl := hm.1 <;> cases hfirst
  | plain hi h₁ h₂ ih =>
    have hfirst := (Encodes.plain hi h₁ h₂).first_eq hw hs hm h' hs' hm'
    obtain ⟨p₁, hs₁, hs₂⟩ := Window.spells_append.1 hs
    cases h' with
    | plain hi' h₁' h₂' =>
      obtain rfl := Instr.embed_injective hfirst
      obtain ⟨p₁', hs₁', hs₂'⟩ := Window.spells_append.1 hs'
      obtain rfl := h₁.stop_eq hw hs₁ h₁' hs₁'
      obtain ⟨rfl, hq⟩ := ih hs₂ hm h₂' hs₂' hm'
      exact ⟨rfl, hq⟩
    | nil => exact absurd (hi.of_embed_eq hfirst) hm'.not_isPlain
    | _ => exact (hi.of_embed_eq hfirst).elim
  | block h₁ h₂ h₃ ihb ih =>
    have hfirst := (Encodes.block h₁ h₂ h₃).first_eq hw hs hm h' hs' hm'
    obtain ⟨p₁, q₁, hs₁, hs₂, hs₃⟩ := spells_nested hs
    cases h' with
    | block h₁' h₂' h₃' =>
      cases hfirst
      obtain ⟨p₁', q₁', hs₁', hs₂', hs₃'⟩ := spells_nested hs'
      obtain rfl := h₁.stop_eq hw hs₁ h₁' hs₁'
      obtain ⟨rfl, rfl⟩ := ihb hs₂ (markAt_endMark hw hs₃) h₂' hs₂' (markAt_endMark hw hs₃')
      obtain ⟨rfl, hq⟩ := ih hs₃.2 hm h₃' hs₃'.2 hm'
      exact ⟨rfl, hq⟩
    | plain hi _ _ => exact (hi.of_embed_eq hfirst.symm).elim
    | nil => obtain rfl | rfl := hm'.1 <;> cases hfirst
    | _ => cases hfirst
  | loop h₁ h₂ h₃ ihb ih =>
    have hfirst := (Encodes.loop h₁ h₂ h₃).first_eq hw hs hm h' hs' hm'
    obtain ⟨p₁, q₁, hs₁, hs₂, hs₃⟩ := spells_nested hs
    cases h' with
    | loop h₁' h₂' h₃' =>
      cases hfirst
      obtain ⟨p₁', q₁', hs₁', hs₂', hs₃'⟩ := spells_nested hs'
      obtain rfl := h₁.stop_eq hw hs₁ h₁' hs₁'
      obtain ⟨rfl, rfl⟩ := ihb hs₂ (markAt_endMark hw hs₃) h₂' hs₂' (markAt_endMark hw hs₃')
      obtain ⟨rfl, hq⟩ := ih hs₃.2 hm h₃' hs₃'.2 hm'
      exact ⟨rfl, hq⟩
    | plain hi _ _ => exact (hi.of_embed_eq hfirst.symm).elim
    | nil => obtain rfl | rfl := hm'.1 <;> cases hfirst
    | _ => cases hfirst
  | ifThen h₁ h₂ h₃ ihb ih =>
    have hfirst := (Encodes.ifThen h₁ h₂ h₃).first_eq hw hs hm h' hs' hm'
    obtain ⟨p₁, q₁, hs₁, hs₂, hs₃⟩ := spells_nested hs
    cases h' with
    | ifThen h₁' h₂' h₃' =>
      cases hfirst
      obtain ⟨p₁', q₁', hs₁', hs₂', hs₃'⟩ := spells_nested hs'
      obtain rfl := h₁.stop_eq hw hs₁ h₁' hs₁'
      obtain ⟨rfl, rfl⟩ := ihb hs₂ (markAt_endMark hw hs₃) h₂' hs₂' (markAt_endMark hw hs₃')
      obtain ⟨rfl, hq⟩ := ih hs₃.2 hm h₃' hs₃'.2 hm'
      exact ⟨rfl, hq⟩
    | ifElse h₁' h₂' h₃' _ =>
      cases hfirst
      obtain ⟨p₁', q₁', hs₁', hs₂', hs₃'⟩ := spells_nested hs'
      obtain rfl := h₁.stop_eq hw hs₁ h₁' hs₁'
      obtain ⟨rfl, rfl⟩ := ihb hs₂ (markAt_endMark hw hs₃) h₂' hs₂' (markAt_elseMark hw hs₃')
      exact (elseMark_ne_endMark hs₃' hs₃).elim
    | plain hi _ _ => exact (hi.of_embed_eq hfirst.symm).elim
    | nil => obtain rfl | rfl := hm'.1 <;> cases hfirst
    | _ => cases hfirst
  | ifElse h₁ h₂ h₃ h₄ ihb ihb' ih =>
    have hfirst := (Encodes.ifElse h₁ h₂ h₃ h₄).first_eq hw hs hm h' hs' hm'
    obtain ⟨p₁, q₁, hs₁, hs₂, hs₃⟩ := spells_nested hs
    obtain ⟨q₂, hs₄, hs₅⟩ := Window.spells_append.1 hs₃.2
    cases h' with
    | ifElse h₁' h₂' h₃' h₄' =>
      cases hfirst
      obtain ⟨p₁', q₁', hs₁', hs₂', hs₃'⟩ := spells_nested hs'
      obtain ⟨q₂', hs₄', hs₅'⟩ := Window.spells_append.1 hs₃'.2
      obtain rfl := h₁.stop_eq hw hs₁ h₁' hs₁'
      obtain ⟨rfl, rfl⟩ := ihb hs₂ (markAt_elseMark hw hs₃) h₂' hs₂' (markAt_elseMark hw hs₃')
      obtain ⟨rfl, rfl⟩ := ihb' hs₄ (markAt_endMark hw hs₅) h₃' hs₄' (markAt_endMark hw hs₅')
      obtain ⟨rfl, hq⟩ := ih hs₅.2 hm h₄' hs₅'.2 hm'
      exact ⟨rfl, hq⟩
    | ifThen h₁' h₂' h₃' =>
      cases hfirst
      obtain ⟨p₁', q₁', hs₁', hs₂', hs₃'⟩ := spells_nested hs'
      obtain rfl := h₁.stop_eq hw hs₁ h₁' hs₁'
      obtain ⟨rfl, rfl⟩ := ihb hs₂ (markAt_elseMark hw hs₃) h₂' hs₂' (markAt_endMark hw hs₃')
      exact (elseMark_ne_endMark hs₃ hs₃').elim
    | plain hi _ _ => exact (hi.of_embed_eq hfirst.symm).elim
    | nil => obtain rfl | rfl := hm'.1 <;> cases hfirst
    | _ => cases hfirst

/-- **Bytes are the body of one code at most.** -/
theorem EncodesBody.unique {bytes : List UInt8} (h : code.EncodesBody bytes)
    (h' : code'.EncodesBody bytes) : code = code' := by
  obtain ⟨bs, he, rfl⟩ := h
  obtain ⟨bs', he', heq⟩ := h'
  let w : Window := ⟨⟨(bs ++ [0x0b]).toArray⟩, (bs ++ [0x0b]).length⟩
  have hw : w.stop ≤ w.bytes.size := Nat.le_refl _
  have hs : w.Spells 0 (bs ++ [0x0b]) w.stop := by
    refine (Window.spells_iff_extract hw (Nat.zero_le _)).2 ⟨Nat.zero_le _, Nat.le_refl _, ?_⟩
    rw [toList_extract_eq, List.drop_zero, Nat.sub_zero]
    exact List.take_length
  have hs' := heq ▸ hs
  obtain ⟨q, hq, hend⟩ := Window.spells_append.1 hs
  obtain ⟨q', hq', hend'⟩ := Window.spells_append.1 hs'
  exact (he.unique hw hq (markAt_endMark hw hend) he' hq' (markAt_endMark hw hend')).1

end Code

end WasmEngine
