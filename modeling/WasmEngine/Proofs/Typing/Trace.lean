import WasmEngine.Proofs.Syntax.Reading
import WasmEngine.Proofs.Typing.Blocks
import WasmEngine.Proofs.Typing.Instr
import WasmEngine.Typing.Validate

/-!
# Proofs/Typing/Trace — the run of the checker follows the nesting of blocks

`Module.validateCode` is a loop over a flat sequence of instructions.  `Passes` describes its run by
the structured code that it goes through: a run that succeeds is one along some code
(`exists_passes`), and a run along code can be cut off at its end (`Passes.validateCode_eq`).
-/

namespace WasmEngine

/-- Adds jump entries one after the other. -/
def SideTable.insertAll (table : SideTable) (entries : List (Nat × BlockJump)) : SideTable :=
  entries.foldl (fun acc entry => acc.insert entry.1 entry.2) table

/-- Reads the instruction `i` at `p`, which ends before `q`. -/
abbrev CodeContext.Reads (c : CodeContext) (w : Window) (p : Nat) (i : Instr BlockType)
    (q : Nat) : Prop :=
  Instr.read c.module.memory.isSome w p = .ok (i, q)

/-- `Passes c w p t code q t' entries`: from the state `t` at the offset `p`, the checker goes through
`code` to the offset `q`, where its state is `t'`, and adds the jump entries `entries`. -/
inductive Passes (c : CodeContext) (w : Window) :
    Nat → Typing → Code → Nat → Typing → List (Nat × BlockJump) → Prop where
  | nil {p t} : Passes c w p t .nil p t []
  | plain {p p₁ q t t₁ t' i rest entries} (hi : i.IsPlain) (hr : c.Reads w p i.embed p₁)
      (hc : Check.instr.rule c ⟨p, p₁⟩ i.embed t = .ok ((), t₁))
      (h : Passes c w p₁ t₁ rest q t' entries) :
      Passes c w p t (.plain i rest) q t' entries
  | block {p p₁ q₁ q₂ q t t₁ t₂ t₃ t' type body rest e₁ e₂ opcode jump}
      (hr : c.Reads w p (.block type) p₁)
      (ho : Check.openBlock c ⟨p, p₁⟩ .block type t = .ok ((), t₁))
      (hb : Passes c w p₁ t₁ body q₁ t₂ e₁) (hr' : c.Reads w q₁ .endMark q₂)
      (he : Check.endMark ⟨q₁, q₂⟩ t₂ = .ok (.block opcode jump, t₃))
      (h : Passes c w q₂ t₃ rest q t' e₂) :
      Passes c w p t (.block type body rest) q t' (e₁ ++ (opcode, jump) :: e₂)
  | loop {p p₁ q₁ q₂ q t t₁ t₂ t₃ t' type body rest e₁ e₂ opcode jump}
      (hr : c.Reads w p (.loop type) p₁)
      (ho : Check.openBlock c ⟨p, p₁⟩ .loop type t = .ok ((), t₁))
      (hb : Passes c w p₁ t₁ body q₁ t₂ e₁) (hr' : c.Reads w q₁ .endMark q₂)
      (he : Check.endMark ⟨q₁, q₂⟩ t₂ = .ok (.block opcode jump, t₃))
      (h : Passes c w q₂ t₃ rest q t' e₂) :
      Passes c w p t (.loop type body rest) q t' (e₁ ++ (opcode, jump) :: e₂)
  | ifThen {p p₁ q₁ q₂ q t t₁ t₂ t₃ t' type body rest e₁ e₂ opcode jump}
      (hr : c.Reads w p (.ifThen type) p₁)
      (ho : Check.openBlock c ⟨p, p₁⟩ .ifThen type t = .ok ((), t₁))
      (hb : Passes c w p₁ t₁ body q₁ t₂ e₁) (hr' : c.Reads w q₁ .endMark q₂)
      (he : Check.endMark ⟨q₁, q₂⟩ t₂ = .ok (.block opcode jump, t₃))
      (h : Passes c w q₂ t₃ rest q t' e₂) :
      Passes c w p t (.ifThen type body rest) q t' (e₁ ++ (opcode, jump) :: e₂)
  | ifElse {p p₁ q₁ q₂ q₃ q₄ q t t₁ t₂ t₃ t₄ t₅ t' type thenBody elseBody rest e₁ e₂ e₃ opcode jump}
      (hr : c.Reads w p (.ifThen type) p₁)
      (ho : Check.openBlock c ⟨p, p₁⟩ .ifThen type t = .ok ((), t₁))
      (hb : Passes c w p₁ t₁ thenBody q₁ t₂ e₁) (hr' : c.Reads w q₁ .elseMark q₂)
      (hm : Check.elseMark ⟨q₁, q₂⟩ t₂ = .ok ((), t₃))
      (hb' : Passes c w q₂ t₃ elseBody q₃ t₄ e₂) (hr'' : c.Reads w q₃ .endMark q₄)
      (he : Check.endMark ⟨q₃, q₄⟩ t₄ = .ok (.block opcode jump, t₅))
      (h : Passes c w q₄ t₅ rest q t' e₃) :
      Passes c w p t (.ifElse type thenBody elseBody rest) q t' (e₁ ++ (e₂ ++ (opcode, jump) :: e₃))

/-! ## One instruction -/

namespace Module

variable {c : CodeContext} {w : Window} {t t' : Typing} {p q func left : Nat}

/-- Only failures are located. -/
theorem locate_eq_ok_iff {α : Type} {site : CodeSite} {r : Reader α} {x : α × Nat} :
    (r.locate site) w p = .ok x ↔ r w p = .ok x := by
  unfold Reader.locate
  split
  · next h => simp [h]
  · rfl

/-- A check passes over no bytes. -/
theorem lift_eq_ok_iff {α : Type} {check : Check α} {x : α × Typing} :
    check.lift t w p = .ok (x, q) ↔ check t = .ok x ∧ p = q := by
  cases h : check t with
  | ok result => simp [Check.lift, StateT.run, h, Reader.pure_eq_ok_iff]
  | error cause => simp [Check.lift, StateT.run, h, Reader.invalid_ne_ok]

/-- An instruction is validated by reading and checking it. -/
theorem validateInstr_eq_ok_iff {closing : Closing} :
    validateInstr c t w p = .ok ((closing, t'), q) ↔
      ∃ i, c.Reads w p i q ∧ Check.instr c ⟨p, q⟩ i t = .ok (closing, t') := by
  simp only [validateInstr, Reader.bind_eq_ok_iff, Reader.position_eq_ok_iff, lift_eq_ok_iff]
  constructor
  · rintro ⟨_, _, ⟨rfl, rfl⟩, i, _, hr, _, _, ⟨rfl, rfl⟩, hi, rfl⟩
    exact ⟨i, hr, hi⟩
  · rintro ⟨i, hr, hi⟩
    exact ⟨p, p, ⟨rfl, rfl⟩, i, q, hr, q, q, ⟨rfl, rfl⟩, hi, rfl⟩

/-- How the checker goes on after an instruction. -/
def continueWith (c : CodeContext) (func left : Nat) (t : Typing) (table : SideTable) :
    Closing → Reader SideTable
  | .nothing => validateCode c func left t table
  | .block offset jump => validateCode c func left t (table.insert offset jump)
  | .function => pure table

/-- One more instruction is validated, and then the rest as that one wants it. -/
theorem validateCode_succ_eq_ok_iff {table : SideTable} {x : SideTable × Nat} :
    validateCode c func (left + 1) t table w p = .ok x ↔
      ∃ i q closing t', c.Reads w p i q ∧ Check.instr c ⟨p, q⟩ i t = .ok (closing, t') ∧
        continueWith c func left t' table closing w q = .ok x := by
  obtain ⟨table', stop⟩ := x
  simp only [validateCode, Reader.bind_eq_ok_iff, Reader.position_eq_ok_iff, locate_eq_ok_iff]
  constructor
  · rintro ⟨_, _, ⟨rfl, rfl⟩, ⟨closing, t'⟩, q, hi, h⟩
    obtain ⟨i, hr, hi⟩ := validateInstr_eq_ok_iff.1 hi
    refine ⟨i, q, closing, t', hr, hi, ?_⟩
    cases closing <;> exact h
  · rintro ⟨i, q, closing, t', hr, hi, h⟩
    refine ⟨p, p, ⟨rfl, rfl⟩, (closing, t'), q, validateInstr_eq_ok_iff.2 ⟨i, hr, hi⟩, ?_⟩
    cases closing <;> exact h

end Module

/-! ## Blocks -/

section Blocks

variable {c : CodeContext} {w : Window} {t t₁ t₂ t₃ t₄ t₅ : Typing} {s s₁ s₂ : InstrSpan}
  {kind : BlockKind} {type : BlockType} {held held' : List OperandType} {dead dead' : Bool}
  {closing : Closing}

/-- **A block from its opening to its end** replaces its parameters by its results. -/
theorem block_of_eq_ok (ho : Check.openBlock c s kind type t = .ok ((), t₁))
    (hb : t₂ = t₁.withStack held dead) (he : Check.endMark s₁ t₂ = .ok (closing, t₃)) :
    ∃ sig xs rest, c.signature? type = some sig ∧ MatchAll xs (Check.openingTypes kind sig) ∧
      Takes t.frame.isUnreachable t.frame.operands xs rest ∧ t₁ = Check.opened s kind sig t rest ∧
      Check.Finishes t₂ ∧ (kind = .ifThen → sig.params = sig.results) ∧
      closing = .block s.start (Check.closingJump (Check.openingFrame s kind sig) s₁.stop) ∧
      t₃ = t.withStack ((known sig.results).reverse ++ rest) t.frame.isUnreachable := by
  obtain ⟨sig, xs, rest, hsig, hxs, hrest, rfl⟩ := Check.openBlock_eq_ok_iff.1 ho
  subst hb
  obtain ⟨hf, heq, rfl, rfl⟩ := (Check.endMark_block_eq_ok_iff rfl).1 he
  exact ⟨sig, xs, rest, hsig, hxs, hrest, rfl, hf, heq, rfl, rfl⟩

/-- **An `if` with an `else`** replaces its parameters by its results. -/
theorem ifElse_of_eq_ok (ho : Check.openBlock c s .ifThen type t = .ok ((), t₁))
    (hb : t₂ = t₁.withStack held dead) (hm : Check.elseMark s₁ t₂ = .ok ((), t₃))
    (hb' : t₄ = t₃.withStack held' dead') (he : Check.endMark s₂ t₄ = .ok (closing, t₅)) :
    ∃ sig xs rest, c.signature? type = some sig ∧ MatchAll xs (Check.openingTypes .ifThen sig) ∧
      Takes t.frame.isUnreachable t.frame.operands xs rest ∧
      t₁ = Check.opened s .ifThen sig t rest ∧ Check.Finishes t₂ ∧
      t₃ = Check.divided s sig s₁.stop t rest ∧ Check.Finishes t₄ ∧
      closing = .block s.start
        (Check.closingJump (Check.divided s sig s₁.stop t rest).frame s₂.stop) ∧
      t₅ = t.withStack ((known sig.results).reverse ++ rest) t.frame.isUnreachable := by
  obtain ⟨sig, xs, rest, hsig, hxs, hrest, rfl⟩ := Check.openBlock_eq_ok_iff.1 ho
  subst hb
  obtain ⟨-, hf, rfl⟩ := Check.elseMark_eq_ok_iff.1 hm
  subst hb'
  obtain ⟨hf', -, rfl, rfl⟩ := (Check.endMark_block_eq_ok_iff rfl).1 he
  exact ⟨sig, xs, rest, hsig, hxs, hrest, rfl, hf, rfl, hf', rfl, rfl⟩

end Blocks

/-! ## The run along code -/

section Run

variable {c : CodeContext} {w : Window} {p q : Nat} {t t' : Typing} {code : Code}
  {entries : List (Nat × BlockJump)}

theorem CodeContext.Reads.encodes {i : Instr BlockType} (hw : w.stop ≤ w.bytes.size)
    (h : c.Reads w p i q) : ∃ bs, w.Spells p bs q ∧ i.Encodes bs := by
  obtain ⟨bs, hs, he, -⟩ := (Instr.accepts_read _ hw).1 h
  exact ⟨bs, hs, he⟩

theorem CodeContext.Reads.needsMemory {i : Instr Empty} (hw : w.stop ≤ w.bytes.size)
    (h : c.Reads w p i.embed q) (hm : i.NeedsMemory) : c.module.memory.isSome = true := by
  obtain ⟨bs, -, -, hmem⟩ := (Instr.accepts_read _ hw).1 h
  exact hmem (Instr.needsMemory_map.2 hm)

theorem CodeContext.Reads.lt {i : Instr BlockType} (hw : w.stop ≤ w.bytes.size)
    (h : c.Reads w p i q) : p < q := by
  obtain ⟨bs, hs, he⟩ := h.encodes hw
  have hlen := hs.stop_eq
  have hpos : 0 < bs.length := by cases he <;> exact Nat.succ_pos _
  omega

theorem CodeContext.Reads.unique {i j : Instr BlockType} {q' : Nat} (h : c.Reads w p i q)
    (h' : c.Reads w p j q') : i = j ∧ q = q' := by
  rw [CodeContext.Reads, h] at h'
  simpa using h'

/-- Code changes nothing but the operands of the frame that it is in. -/
theorem Passes.exists_withStack (hw : w.stop ≤ w.bytes.size) (h : Passes c w p t code q t' entries) :
    ∃ held dead, t' = t.withStack held dead := by
  induction h with
  | nil => exact ⟨_, _, rfl⟩
  | plain hi hr hc _ ih =>
    obtain ⟨_, _, rfl, -⟩ := Check.explained_of_rule hi (hr.needsMemory hw) hc
    obtain ⟨held, dead, rfl⟩ := ih
    exact ⟨held, dead, rfl⟩
  | block hr ho _ hr' he _ ihb ih =>
    obtain ⟨held, dead, hb⟩ := ihb
    obtain ⟨held', dead', rfl⟩ := ih
    obtain ⟨sig, xs, rest, -, -, -, -, -, -, -, rfl⟩ := block_of_eq_ok ho hb he
    exact ⟨_, _, rfl⟩
  | loop hr ho _ hr' he _ ihb ih =>
    obtain ⟨held, dead, hb⟩ := ihb
    obtain ⟨held', dead', rfl⟩ := ih
    obtain ⟨sig, xs, rest, -, -, -, -, -, -, -, rfl⟩ := block_of_eq_ok ho hb he
    exact ⟨_, _, rfl⟩
  | ifThen hr ho _ hr' he _ ihb ih =>
    obtain ⟨held, dead, hb⟩ := ihb
    obtain ⟨held', dead', rfl⟩ := ih
    obtain ⟨sig, xs, rest, -, -, -, -, -, -, -, rfl⟩ := block_of_eq_ok ho hb he
    exact ⟨_, _, rfl⟩
  | ifElse hr ho _ hr' hm _ hr'' he _ ihb ihb' ih =>
    obtain ⟨held, dead, hb⟩ := ihb
    obtain ⟨held₁, dead₁, hb'⟩ := ihb'
    obtain ⟨held', dead', rfl⟩ := ih
    obtain ⟨sig, xs, rest, -, -, -, -, -, -, -, -, rfl⟩ := ifElse_of_eq_ok ho hb hm hb' he
    exact ⟨_, _, rfl⟩

/-- Unless it is an `end`, an instruction goes on with the same table. -/
theorem rule_of_validateCode {func left : Nat} {i : Instr BlockType} {table : SideTable}
    {x : SideTable × Nat} (hr : c.Reads w p i q)
    (h : Module.validateCode c func (left + 1) t table w p = .ok x) (hi : i ≠ .endMark) :
    ∃ t', Check.instr.rule c ⟨p, q⟩ i t = .ok ((), t') ∧
      Module.validateCode c func left t' table w q = .ok x := by
  obtain ⟨j, _, closing, t', hr', hj, h⟩ := Module.validateCode_succ_eq_ok_iff.1 h
  obtain ⟨rfl, rfl⟩ := hr.unique hr'
  have hrule : Check.instr c ⟨p, q⟩ i = (do Check.instr.rule c ⟨p, q⟩ i; pure .nothing) := by
    cases i <;> first | rfl | exact absurd rfl hi
  rw [hrule, Check.bind_eq_ok_iff] at hj
  obtain ⟨_, _, hj, hpure⟩ := hj
  obtain ⟨rfl, rfl⟩ := Check.pure_eq_ok_iff.1 hpure
  exact ⟨_, hj, h⟩

/-- An `end` closes a block, which adds an entry, or the function. -/
theorem endMark_of_validateCode {func left : Nat} {table : SideTable} {x : SideTable × Nat}
    (hr : c.Reads w p .endMark q)
    (h : Module.validateCode c func (left + 1) t table w p = .ok x) :
    ∃ closing t', Check.endMark ⟨p, q⟩ t = .ok (closing, t') ∧
      Module.continueWith c func left t' table closing w q = .ok x := by
  obtain ⟨j, _, closing, t', hr', hj, h⟩ := Module.validateCode_succ_eq_ok_iff.1 h
  obtain ⟨rfl, rfl⟩ := hr.unique hr'
  exact ⟨closing, t', hj, h⟩

/-- An `else` closes nothing but the first half of an `if`. -/
theorem kind_of_elseMark {func left : Nat} {table : SideTable} {x : SideTable × Nat}
    (hr : c.Reads w p .elseMark q)
    (h : Module.validateCode c func (left + 1) t table w p = .ok x) : t.frame.kind = .ifThen := by
  obtain ⟨t', ht', -⟩ := rule_of_validateCode hr h nofun
  exact (Check.elseMark_eq_ok_iff.1 ht').1

/-- Only the first branch of a conditional may end in an `else`. -/
theorem endMark_of_kind {func left : Nat} {s : InstrSpan} {k : BlockKind} {type : BlockType}
    {t₁ t₂ : Typing} {held : List OperandType} {dead : Bool} {mark : Instr BlockType}
    {table : SideTable} {x : SideTable × Nat} (hk : k ≠ .ifThen)
    (ho : Check.openBlock c s k type t = .ok ((), t₁)) (hb : t₂ = t₁.withStack held dead)
    (hm : mark = .elseMark ∨ mark = .endMark) (hr : c.Reads w p mark q)
    (h : Module.validateCode c func (left + 1) t₂ table w p = .ok x) : mark = .endMark := by
  rcases hm with rfl | rfl
  · obtain ⟨sig, xs, rest, -, -, -, rfl⟩ := Check.openBlock_eq_ok_iff.1 ho
    subst hb
    exact absurd (kind_of_elseMark hr h) hk
  · rfl

/-- Whether a run goes along some code and then comes, with fewer instructions left, to a mark. -/
def RunsAlong (c : CodeContext) (w : Window) (func left p : Nat) (t : Typing) (table : SideTable)
    (x : SideTable × Nat) : Prop :=
  ∃ code q t' entries left' mark q', Passes c w p t code q t' entries ∧ left' < left ∧
    c.Reads w q mark q' ∧ (mark = .elseMark ∨ mark = .endMark) ∧
    Module.validateCode c func (left' + 1) t' (table.insertAll entries) w q = .ok x

theorem SideTable.insertAll_append (table : SideTable) (e₁ e₂ : List (Nat × BlockJump)) :
    table.insertAll (e₁ ++ e₂) = (table.insertAll e₁).insertAll e₂ :=
  List.foldl_append

/-- **A run that succeeds goes along some code up to a mark.** -/
theorem runsAlong_of_validateCode (hw : w.stop ≤ w.bytes.size) {func left : Nat}
    {table : SideTable} {x : SideTable × Nat}
    (h : Module.validateCode c func left t table w p = .ok x) :
    RunsAlong c w func left p t table x := by
  induction left using Nat.strongRecOn generalizing t table p with
  | ind left ih =>
  match left with
  | 0 => exact absurd h Reader.malformed_ne_ok
  | left + 1 =>
  -- What follows an `end` that closes a block is a run along the rest of the code.
  have close : ∀ {s kind type t t₁ t₂ held dead q₁ q₂ left₁ table₁}, left₁ < left →
      Check.openBlock c s kind type t = .ok ((), t₁) → t₂ = t₁.withStack held dead →
      c.Reads w q₁ .endMark q₂ →
      Module.validateCode c func (left₁ + 1) t₂ table₁ w q₁ = .ok x →
      ∃ opcode jump t₃, Check.endMark ⟨q₁, q₂⟩ t₂ = .ok (.block opcode jump, t₃) ∧
        RunsAlong c w func left₁ q₂ t₃ (table₁.insert opcode jump) x := by
    intro s kind type t t₁ t₂ held dead q₁ q₂ left₁ table₁ hl ho hb hr hrun
    obtain ⟨closing, t₃, he, hcont⟩ := endMark_of_validateCode hr hrun
    obtain ⟨sig, xs, rest, -, -, -, -, -, -, rfl, -⟩ := block_of_eq_ok ho hb he
    exact ⟨_, _, t₃, he, ih left₁ (by omega) hcont⟩
  obtain ⟨i, p₁, _, _, hr, -, -⟩ := Module.validateCode_succ_eq_ok_iff.1 h
  rcases i.plain_or_nesting with hi | ⟨type, hi⟩ | hi
  · -- An instruction that opens no block is the first of the code.
    obtain ⟨j, hj, rfl⟩ := Instr.exists_embed_of_isPlain hi
    obtain ⟨t₁, hrule, hrun⟩ := rule_of_validateCode hr h hj.embed_ne_endMark
    obtain ⟨rest, q, t', e, left', mark, q', hrest, hl, hrm, hm, hrun⟩ := ih left (by omega) hrun
    exact ⟨.plain j rest, q, t', e, left', mark, q', .plain hj hr hrule hrest, by omega, hrm, hm,
      hrun⟩
  · obtain ⟨t₁, hrule, hrun⟩ := rule_of_validateCode hr h (by rintro rfl; simp at hi)
    obtain ⟨body, q₁, t₂, e₁, left₁, mark, q₂, hb, hl, hrm, hm, hrun⟩ := ih left (by omega) hrun
    obtain ⟨held, dead, ht₂⟩ := hb.exists_withStack hw
    rcases hi with rfl | rfl | rfl
    · obtain rfl := endMark_of_kind (k := .block) nofun hrule ht₂ hm hrm hrun
      obtain ⟨opcode, jump, t₃, he, rest, q, t', e₂, left', mark, q', hrest, hl', hrm', hm', hrun⟩ :=
        close hl hrule ht₂ hrm hrun
      exact ⟨.block type body rest, q, t', _, left', mark, q', .block hr hrule hb hrm he hrest,
        by omega, hrm', hm', by rwa [SideTable.insertAll_append]⟩
    · obtain rfl := endMark_of_kind (k := .loop) nofun hrule ht₂ hm hrm hrun
      obtain ⟨opcode, jump, t₃, he, rest, q, t', e₂, left', mark, q', hrest, hl', hrm', hm', hrun⟩ :=
        close hl hrule ht₂ hrm hrun
      exact ⟨.loop type body rest, q, t', _, left', mark, q', .loop hr hrule hb hrm he hrest,
        by omega, hrm', hm', by rwa [SideTable.insertAll_append]⟩
    · rcases hm with rfl | rfl
      · obtain ⟨t₃, helse, hrun⟩ := rule_of_validateCode hrm hrun nofun
        obtain ⟨elseBody, q₃, t₄, e₂, left₂, mark, q₄, hb', hl', hrm', hm', hrun⟩ :=
          ih left₁ (by omega) hrun
        obtain ⟨held', dead', ht₄⟩ := hb'.exists_withStack hw
        obtain rfl : mark = .endMark := by
          rcases hm' with rfl | rfl
          · have hkind := kind_of_elseMark hrm' hrun
            obtain ⟨-, -, rfl⟩ := Check.elseMark_eq_ok_iff.1 helse
            rw [ht₄] at hkind
            exact absurd hkind nofun
          · rfl
        obtain ⟨closing, t₅, he, hrun⟩ := endMark_of_validateCode hrm' hrun
        obtain ⟨sig, xs, below, -, -, -, -, -, -, -, rfl, -⟩ := ifElse_of_eq_ok hrule ht₂ helse ht₄ he
        obtain ⟨rest, q, t', e₃, left', mark, q', hrest, hl'', hrm'', hm'', hrun⟩ :=
          ih left₂ (by omega) hrun
        refine ⟨.ifElse type body elseBody rest, q, t', _, left', mark, q',
          .ifElse hr hrule hb hrm helse hb' hrm' he hrest, by omega, hrm'', hm'', ?_⟩
        rwa [SideTable.insertAll_append, SideTable.insertAll_append]
      · obtain ⟨opcode, jump, t₃, he, rest, q, t', e₂, left', mark, q', hrest, hl', hrm', hm', hrun⟩ :=
          close hl hrule ht₂ hrm hrun
        exact ⟨.ifThen type body rest, q, t', _, left', mark, q', .ifThen hr hrule hb hrm he hrest,
          by omega, hrm', hm', by rwa [SideTable.insertAll_append]⟩
  · exact ⟨.nil, p, t, [], left, i, p₁, .nil, by omega, hr, hi, h⟩

/-! ## From the trace to the run -/

/-- Whether a run from `p` may be continued from `q`.  Each instruction has a byte of its own, so the
distance bounds the instructions between the two. -/
def LeadsTo (c : CodeContext) (w : Window) (func p : Nat) (t : Typing)
    (entries : List (Nat × BlockJump)) (q : Nat) (t' : Typing) : Prop :=
  p ≤ q ∧ ∀ left table, q - p ≤ left → ∃ left', left ≤ left' + (q - p) ∧
    ∀ x, Module.validateCode c func left' t' (table.insertAll entries) w q = .ok x →
      Module.validateCode c func left t table w p = .ok x

theorem LeadsTo.refl (c : CodeContext) (w : Window) (func p : Nat) (t : Typing) :
    LeadsTo c w func p t [] p t :=
  ⟨Nat.le_refl p, fun left _ _ => ⟨left, Nat.le_add_right .., fun _ h => h⟩⟩

/-- What is led to leads on. -/
theorem LeadsTo.trans {func p₁ p₂ p₃ : Nat} {t₁ t₂ t₃ : Typing} {e₁ e₂ : List (Nat × BlockJump)}
    (h₁ : LeadsTo c w func p₁ t₁ e₁ p₂ t₂) (h₂ : LeadsTo c w func p₂ t₂ e₂ p₃ t₃) :
    LeadsTo c w func p₁ t₁ (e₁ ++ e₂) p₃ t₃ := by
  obtain ⟨hle₁, h₁⟩ := h₁
  obtain ⟨hle₂, h₂⟩ := h₂
  refine ⟨Nat.le_trans hle₁ hle₂, fun left table hl => ?_⟩
  obtain ⟨left₁, hl₁, hrun₁⟩ := h₁ left table (by omega)
  obtain ⟨left₂, hl₂, hrun₂⟩ := h₂ left₁ (table.insertAll e₁) (by omega)
  refine ⟨left₂, by omega, fun x hx => hrun₁ x (hrun₂ x ?_)⟩
  rwa [SideTable.insertAll_append] at hx

/-- An instruction that passes its rule leads behind itself. -/
theorem leadsTo_of_rule {func : Nat} {i : Instr BlockType} (hw : w.stop ≤ w.bytes.size)
    (hr : c.Reads w p i q) (h : Check.instr.rule c ⟨p, q⟩ i t = .ok ((), t'))
    (hi : i ≠ .endMark) : LeadsTo c w func p t [] q t' := by
  have hlt := hr.lt hw
  refine ⟨Nat.le_of_lt hlt, fun left table hl => ?_⟩
  obtain ⟨left, rfl⟩ : ∃ k, left = k + 1 := ⟨left - 1, by omega⟩
  refine ⟨left, by omega, fun x hx => ?_⟩
  have hrule : Check.instr c ⟨p, q⟩ i = (do Check.instr.rule c ⟨p, q⟩ i; pure .nothing) := by
    cases i <;> first | rfl | exact absurd rfl hi
  refine Module.validateCode_succ_eq_ok_iff.2 ⟨i, q, .nothing, t', hr, ?_, hx⟩
  rw [hrule]
  exact Check.bind_eq_ok_iff.2 ⟨(), t', h, rfl⟩

/-- An `end` that closes a block leads behind itself, with the entry of the block. -/
theorem leadsTo_of_endMark {func opcode : Nat} {jump : BlockJump} (hw : w.stop ≤ w.bytes.size)
    (hr : c.Reads w p .endMark q)
    (h : Check.endMark ⟨p, q⟩ t = .ok (.block opcode jump, t')) :
    LeadsTo c w func p t [(opcode, jump)] q t' := by
  have hlt := hr.lt hw
  refine ⟨Nat.le_of_lt hlt, fun left table hl => ?_⟩
  obtain ⟨left, rfl⟩ : ∃ k, left = k + 1 := ⟨left - 1, by omega⟩
  exact ⟨left, by omega, fun x hx => Module.validateCode_succ_eq_ok_iff.2
    ⟨.endMark, q, _, t', hr, h, hx⟩⟩

/-- **A run along code may be cut off at its end.** -/
theorem Passes.leadsTo {func : Nat} (hw : w.stop ≤ w.bytes.size)
    (h : Passes c w p t code q t' entries) : LeadsTo c w func p t entries q t' := by
  induction h with
  | nil => exact .refl ..
  | plain hi hr hc _ ih =>
    exact (leadsTo_of_rule hw hr hc hi.embed_ne_endMark).trans ih
  | block hr ho _ hr' he _ ihb ih =>
    exact (leadsTo_of_rule hw hr ho nofun).trans
      (ihb.trans ((leadsTo_of_endMark hw hr' he).trans ih))
  | loop hr ho _ hr' he _ ihb ih =>
    exact (leadsTo_of_rule hw hr ho nofun).trans
      (ihb.trans ((leadsTo_of_endMark hw hr' he).trans ih))
  | ifThen hr ho _ hr' he _ ihb ih =>
    exact (leadsTo_of_rule hw hr ho nofun).trans
      (ihb.trans ((leadsTo_of_endMark hw hr' he).trans ih))
  | ifElse hr ho _ hr' hm _ hr'' he _ ihb ihb' ih =>
    exact (leadsTo_of_rule hw hr ho nofun).trans (ihb.trans
      ((leadsTo_of_rule hw hr' hm nofun).trans
        (ihb'.trans ((leadsTo_of_endMark hw hr'' he).trans ih))))

/-! ## The code that a run goes along -/

theorem CodeContext.Reads.spells_endMark (hw : w.stop ≤ w.bytes.size) (h : c.Reads w p .endMark q) :
    w.get? p = some 0x0b ∧ q = p + 1 := by
  obtain ⟨bs, hs, he⟩ := h.encodes hw
  cases he
  exact hs

theorem CodeContext.Reads.spells_elseMark (hw : w.stop ≤ w.bytes.size)
    (h : c.Reads w p .elseMark q) : w.get? p = some 0x05 ∧ q = p + 1 := by
  obtain ⟨bs, hs, he⟩ := h.encodes hw
  cases he
  exact hs

/-- The code of a block is spelled with its `end` between itself and what follows. -/
theorem spells_nested {p₁ p₂ p₃ p₄ : Nat} {b₁ b₂ b₃ : List UInt8} (hw : w.stop ≤ w.bytes.size)
    (hs₁ : w.Spells p₁ b₁ p₂) (hs₂ : w.Spells p₂ b₂ p₃) (hr : c.Reads w p₃ .endMark p₄)
    (hs₃ : w.Spells p₄ b₃ q) : w.Spells p₁ (b₁ ++ (b₂ ++ (0x0b :: b₃))) q := by
  obtain ⟨hb, rfl⟩ := hr.spells_endMark hw
  exact Window.spells_append.2 ⟨_, hs₁, Window.spells_append.2 ⟨_, hs₂,
    Window.spells_cons.2 ⟨hb, hs₃⟩⟩⟩

/-- **The bytes that a run goes over encode the code that it goes along.** -/
theorem Passes.encodes (hw : w.stop ≤ w.bytes.size) (h : Passes c w p t code q t' entries) :
    ∃ bs, w.Spells p bs q ∧ code.Encodes bs := by
  induction h with
  | nil => exact ⟨[], rfl, .nil⟩
  | plain hi hr _ _ ih =>
    obtain ⟨b₁, hs₁, he₁⟩ := hr.encodes hw
    obtain ⟨b₂, hs₂, he₂⟩ := ih
    exact ⟨b₁ ++ b₂, Window.spells_append.2 ⟨_, hs₁, hs₂⟩, .plain hi he₁ he₂⟩
  | block hr _ _ hr' _ _ ihb ih =>
    obtain ⟨b₁, hs₁, he₁⟩ := hr.encodes hw
    obtain ⟨b₂, hs₂, he₂⟩ := ihb
    obtain ⟨b₃, hs₃, he₃⟩ := ih
    exact ⟨_, spells_nested hw hs₁ hs₂ hr' hs₃, .block he₁ he₂ he₃⟩
  | loop hr _ _ hr' _ _ ihb ih =>
    obtain ⟨b₁, hs₁, he₁⟩ := hr.encodes hw
    obtain ⟨b₂, hs₂, he₂⟩ := ihb
    obtain ⟨b₃, hs₃, he₃⟩ := ih
    exact ⟨_, spells_nested hw hs₁ hs₂ hr' hs₃, .loop he₁ he₂ he₃⟩
  | ifThen hr _ _ hr' _ _ ihb ih =>
    obtain ⟨b₁, hs₁, he₁⟩ := hr.encodes hw
    obtain ⟨b₂, hs₂, he₂⟩ := ihb
    obtain ⟨b₃, hs₃, he₃⟩ := ih
    exact ⟨_, spells_nested hw hs₁ hs₂ hr' hs₃, .ifThen he₁ he₂ he₃⟩
  | ifElse hr _ _ hr' _ _ hr'' _ _ ihb ihb' ih =>
    obtain ⟨b₁, hs₁, he₁⟩ := hr.encodes hw
    obtain ⟨b₂, hs₂, he₂⟩ := ihb
    obtain ⟨b₃, hs₃, he₃⟩ := ihb'
    obtain ⟨b₄, hs₄, he₄⟩ := ih
    have hs := Window.spells_cons.2 ⟨(hr'.spells_elseMark hw).1, (hr'.spells_elseMark hw).2 ▸
      Window.spells_append.2 ⟨_, hs₃, Window.spells_cons.2 ⟨(hr''.spells_endMark hw).1,
        (hr''.spells_endMark hw).2 ▸ hs₄⟩⟩⟩
    exact ⟨_, Window.spells_append.2 ⟨_, hs₁, Window.spells_append.2 ⟨_, hs₂, hs⟩⟩,
      .ifElse he₁ he₂ he₃ he₄⟩

end Run

end WasmEngine
