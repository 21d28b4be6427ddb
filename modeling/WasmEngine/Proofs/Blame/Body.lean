import Mathlib.Data.Nat.Find
import WasmEngine.Proofs.Blame.Settled
import WasmEngine.Proofs.Typing.Code

/-!
# Proofs/Blame/Body — the instruction that a violation is blamed on

A violation that the checker finds in a body is blamed on an instruction that the checker comes to when it
accepts every instruction before it, and does not accept (`Module.exists_accepted_of_violation`).  To find
it, the checker needs no more than the bytes up to some place, which is not behind the instruction
(`Module.exists_extent`).
-/

namespace WasmEngine

namespace Instr

variable {w : Window} {pos next : Nat} {i : Instr BlockType} {bs : List UInt8}

/-- **An instruction that needs a memory** is refused where there is none, whatever its immediates. -/
theorem read_of_needsMemory (hw : w.stop ≤ w.bytes.size) (hs : w.Spells pos bs next)
    (h : i.Encodes bs) (hm : i.NeedsMemory) :
    Instr.read false w pos = .error (.invalid .unknownMemory) := by
  have hopcode {op : UInt8} {bs : List UInt8} (hs : w.Spells pos (op :: bs) next) :
      Reader.byte w pos = .ok (op, pos + 1) := Reader.byte_eq_ok_iff.2 ⟨hs.1, rfl⟩
  cases h with
  | memorySize | memoryGrow =>
    rw [Instr.read, Reader.bind_of_eq_ok (hopcode hs)]
    rfl
  | memoryCopy hn | memoryFill hn =>
    obtain ⟨mid, hs₁, -⟩ := Window.spells_append.1 hs.2
    rw [Instr.read, Reader.bind_of_eq_ok (hopcode hs)]
    exact Reader.bind_of_eq_ok ((Reader.accepts_u32 hw).2 ⟨_, hs₁, hn⟩)
  | @load op arg b bs hop ha =>
    rw [Instr.read, Reader.bind_of_eq_ok (hopcode hs)]
    split
    case h_29 =>
      rw [hop]
      rfl
    all_goals exact absurd (LoadOp.opcode_bounds hop) (by decide)
  | @store op arg b bs hop ha =>
    rw [Instr.read, Reader.bind_of_eq_ok (hopcode hs)]
    split
    case h_29 =>
      rw [LoadOp.ofOpcode?_eq_none (StoreOp.opcode_bounds hop).1, hop]
      rfl
    all_goals exact absurd (StoreOp.opcode_bounds hop) (by decide)
  | _ => exact hm.elim

/-- Where no byte is left, no instruction is read. -/
theorem read_of_get?_eq_none (hasMemory : Bool) (h : w.get? pos = none) :
    Instr.read hasMemory w pos = .error (.malformed .endOfInput) := by
  have hbyte : Reader.byte w pos = .error (.malformed .endOfInput) := by rw [Reader.byte, h]
  exact Reader.bind_of_eq_error hbyte

/-- **A window that ends behind an instruction** is enough to read it, or to find that it needs a memory
that is not there. -/
theorem read_of_cut {stop : Nat} (hasMemory : Bool) (hw : w.stop ≤ w.bytes.size) (hstop : stop ≤ w.stop)
    (hs : w.Spells pos bs next) (h : i.Encodes bs) (hnext : next ≤ stop) :
    Instr.read hasMemory { w with stop } pos = Instr.read hasMemory w pos := by
  have hw' : ({ w with stop } : Window).stop ≤ w.bytes.size := Nat.le_trans hstop hw
  by_cases hm : i.NeedsMemory ∧ hasMemory = false
  · obtain ⟨hm, rfl⟩ := hm
    rw [read_of_needsMemory hw' (hs.within hnext) h hm, read_of_needsMemory hw hs h hm]
  · have hm' : i.NeedsMemory → hasMemory = true := fun hneeds => by
      by_contra hne
      exact hm ⟨hneeds, by simpa using hne⟩
    rw [read_of_encodes hw' (hs.within hnext) h hm', read_of_encodes hw hs h hm']

end Instr

/-- From the state `t` at `p` the checker accepts one instruction after another up to `q`, where its state
is `t'`. -/
inductive CodeContext.Accepted (c : CodeContext) (w : Window) :
    Nat → Typing → Nat → Typing → Prop where
  | refl {p t} : Accepted c w p t p t
  | next {p p₁ q t t₁ t' i closing} (hr : c.Reads w p i p₁)
      (hi : Check.instr c ⟨p, p₁⟩ i t = .ok (closing, t₁)) (hc : closing ≠ .function)
      (hrest : Accepted c w p₁ t₁ q t') : Accepted c w p t q t'

/-- What has been accepted lies before what comes next. -/
theorem CodeContext.Accepted.le {c : CodeContext} {w : Window} {p q : Nat} {t t' : Typing}
    (hw : w.stop ≤ w.bytes.size) (h : c.Accepted w p t q t') : p ≤ q := by
  induction h with
  | refl => exact Nat.le_refl _
  | next hr _ _ _ ih => exact Nat.le_trans (Nat.le_of_lt (hr.lt hw)) ih

/-- An instruction is read again where no more than the bytes behind it are cut off. -/
theorem CodeContext.Reads.cut {c : CodeContext} {w : Window} {p q stop : Nat} {i : Instr BlockType}
    (hw : w.stop ≤ w.bytes.size) (hstop : stop ≤ w.stop) (h : c.Reads w p i q) (hq : q ≤ stop) :
    c.Reads { w with stop } p i q := by
  obtain ⟨bs, hs, he, hm⟩ := (Instr.accepts_read _ hw).1 h
  exact (Instr.accepts_read (w := ⟨w.bytes, stop⟩) _ (Nat.le_trans hstop hw)).2
    ⟨bs, hs.within hq, he, hm⟩

/-- The table with the jump entry of a block that has been closed. -/
def SideTable.record (table : SideTable) : Closing → SideTable
  | .block offset jump => table.insert offset jump
  | _ => table

namespace Module

variable {c : CodeContext} {w v : Window} {t : Typing} {p q func left : Nat} {table : SideTable}
  {cause : Violation} {site : Option CodeSite}

/-! ## One instruction -/

theorem locate_eq_violation_iff {α : Type} {blamed : CodeSite} {r : Reader α} :
    (r.locate blamed) w p = .error (.validation cause site) ↔
      site = some blamed ∧ ∃ inner, r w p = .error (.validation cause inner) := by
  unfold Reader.locate
  split
  · next h => simp [h, and_comm, eq_comm]
  · next h =>
    constructor
    · exact fun hr => absurd hr (h _ _)
    · rintro ⟨-, inner, hr⟩
      exact absurd hr (h _ _)

theorem continueWith_eq_violation_iff {closing : Closing} :
    continueWith c func left t table closing w p = .error (.validation cause site) ↔
      closing ≠ .function ∧
        validateCode c func left t (table.record closing) w p = .error (.validation cause site) := by
  cases closing with
  | function => exact ⟨nofun, fun h => absurd rfl h.1⟩
  | nothing | block => exact ⟨fun h => ⟨nofun, h⟩, And.right⟩

/-- **A violation is found at an instruction, or behind it.** -/
theorem validateCode_succ_eq_violation_iff :
    validateCode c func (left + 1) t table w p = .error (.validation cause site) ↔
      (site = some ⟨func, p⟩ ∧ ∃ inner, validateInstr c t w p = .error (.validation cause inner)) ∨
      ∃ i q closing t', c.Reads w p i q ∧ Check.instr c ⟨p, q⟩ i t = .ok (closing, t') ∧
        closing ≠ .function ∧
        validateCode c func left t' (table.record closing) w q =
          .error (.validation cause site) := by
  simp only [← continueWith_eq_violation_iff]
  have hstep : validateCode c func (left + 1) t table w p =
      ((validateInstr c t).locate ⟨func, p⟩ >>= fun x => continueWith c func left x.2 table x.1) w p := by
    rw [validateCode, Reader.bind_of_eq_ok (Reader.position_eq_ok_iff.2 ⟨rfl, rfl⟩)]
    refine congrArg (fun k => ((validateInstr c t).locate ⟨func, p⟩ >>= k) w p) (funext fun x => ?_)
    obtain ⟨closing, t'⟩ := x
    cases closing <;> rfl
  rw [hstep]
  cases hrun : (validateInstr c t).locate ⟨func, p⟩ w p with
  | error e =>
    rw [Reader.bind_of_eq_error hrun]
    constructor
    · rintro ⟨⟩
      exact .inl (locate_eq_violation_iff.1 hrun)
    · rintro (hfail | ⟨i, q, closing, t', hr, hi, -⟩)
      · cases hrun.symm.trans (locate_eq_violation_iff.2 hfail)
        rfl
      · cases hrun.symm.trans (locate_eq_ok_iff.2 (validateInstr_eq_ok_iff.2 ⟨i, hr, hi⟩))
  | ok x =>
    obtain ⟨⟨closing, t'⟩, q⟩ := x
    rw [Reader.bind_of_eq_ok hrun]
    obtain ⟨i, hr, hi⟩ := validateInstr_eq_ok_iff.1 (locate_eq_ok_iff.1 hrun)
    constructor
    · exact fun h => .inr ⟨i, q, closing, t', hr, hi, h⟩
    · rintro (hfail | ⟨j, q', closing', t₁, hr', hi', h⟩)
      · cases hrun.symm.trans (locate_eq_violation_iff.2 hfail)
      · obtain ⟨rfl, rfl⟩ := hr.unique hr'
        cases hi.symm.trans hi'
        exact h

/-- An instruction is read, and its rule is applied to what has been read. -/
theorem validateInstr_eq (c : CodeContext) (t : Typing) (w : Window) (p : Nat) :
    validateInstr c t w p = (Instr.read c.module.memory.isSome w p).bind fun x =>
      match Check.instr c ⟨p, x.2⟩ x.1 t with
      | .ok result => .ok (result, x.2)
      | .error cause => .error (.invalid cause) := by
  rw [validateInstr, Reader.bind_of_eq_ok (Reader.position_eq_ok_iff.2 ⟨rfl, rfl⟩)]
  cases hr : Instr.read c.module.memory.isSome w p with
  | error e => exact Reader.bind_of_eq_error hr
  | ok x =>
    obtain ⟨i, q⟩ := x
    rw [Reader.bind_of_eq_ok hr, Reader.bind_of_eq_ok (Reader.position_eq_ok_iff.2 ⟨rfl, rfl⟩)]
    simp only [Except.bind, Check.lift, StateT.run]
    cases Check.instr c ⟨p, q⟩ i t <;> rfl

theorem lt_of_validateInstr_eq_violation
    (h : validateInstr c t w p = .error (.validation cause site)) : p < w.stop := by
  by_contra hge
  rw [validateInstr_eq, Instr.read_of_get?_eq_none _ (if_neg hge)] at h
  cases h

/-! ## Bodies -/

/-- **A violation is blamed on the first instruction that is not accepted.** -/
theorem exists_accepted_of_violation
    (h : validateCode c func left t table w p = .error (.validation cause site)) :
    ∃ offset t', site = some ⟨func, offset⟩ ∧ c.Accepted w p t offset t' ∧ offset < w.stop ∧
      ∃ inner, validateInstr c t' w offset = .error (.validation cause inner) := by
  induction left generalizing p t table with
  | zero => cases h
  | succ left ih =>
    obtain ⟨rfl, inner, hfail⟩ | ⟨i, q, closing, t₁, hr, hi, hc, hrest⟩ :=
      validateCode_succ_eq_violation_iff.1 h
    · exact ⟨p, t, rfl, .refl, lt_of_validateInstr_eq_violation hfail, inner, hfail⟩
    · obtain ⟨offset, t', hsite, haccepted, hlt, hfail⟩ := ih hrest
      exact ⟨offset, t', hsite, .next hr hi hc haccepted, hlt, hfail⟩

/-- **The bytes behind the blamed instruction do not matter**: without them the same violation is
found. -/
theorem violation_of_cut {offset next stop : Nat} {i : Instr BlockType} {bs : List UInt8}
    (hw : w.stop ≤ w.bytes.size) (hstop : stop ≤ w.stop) (hs : w.Spells offset bs next)
    (hi : i.Encodes bs) (hnext : next ≤ stop)
    (h : validateCode c func left t table w p = .error (.validation cause (some ⟨func, offset⟩))) :
    validateCode c func left t table { w with stop } p =
      .error (.validation cause (some ⟨func, offset⟩)) := by
  induction left generalizing p t table with
  | zero => cases h
  | succ left ih =>
    refine validateCode_succ_eq_violation_iff.2 ?_
    obtain ⟨hsite, inner, hfail⟩ | ⟨j, q, closing, t₁, hr, hj, hc, hrest⟩ :=
      validateCode_succ_eq_violation_iff.1 h
    · cases hsite
      refine .inl ⟨rfl, inner, ?_⟩
      rw [validateInstr_eq, Instr.read_of_cut _ hw hstop hs hi hnext, ← validateInstr_eq, hfail]
    · -- The accepted instruction lies before the blamed one, and so before the cut.
      obtain ⟨_, _, ⟨⟩, haccepted, -, -⟩ := exists_accepted_of_violation hrest
      have hq : q ≤ stop := by
        have hle := haccepted.le hw
        have hend := hs.stop_eq
        omega
      exact .inr ⟨j, q, closing, t₁, hr.cut hw hstop hq, hj, hc, ih hrest⟩

/-- **How much of a body a violation depends on**: it is found as soon as the bytes before some place
are there, which is behind the opcode of the blamed instruction, but not behind all of the instruction. -/
theorem exists_extent {offset : Nat} (hw : w.stop ≤ w.bytes.size)
    (h : validateCode c func left t table w p = .error (.validation cause (some ⟨func, offset⟩))) :
    ∃ stop, offset < stop ∧ stop ≤ w.stop ∧
      (∀ next bs i, w.Spells offset bs next → Instr.Encodes i bs → stop ≤ next) ∧
      ∀ q ≤ w.stop, validateCode c func left t table { w with stop := q } p =
        .error (.validation cause (some ⟨func, offset⟩)) ↔ stop ≤ q := by
  have hexists : ∃ q, q ≤ w.stop ∧ validateCode c func left t table { w with stop := q } p =
      .error (.validation cause (some ⟨func, offset⟩)) := ⟨w.stop, Nat.le_refl _, h⟩
  classical
  obtain ⟨hle, hfound⟩ := Nat.find_spec hexists
  have hleast (q : Nat) (hq : q ≤ w.stop)
      (hrun : validateCode c func left t table { w with stop := q } p =
        .error (.validation cause (some ⟨func, offset⟩))) : Nat.find hexists ≤ q :=
    Nat.find_min' hexists ⟨hq, hrun⟩
  refine ⟨Nat.find hexists, ?_, hle, fun next bs i hs hi => ?_, fun q hq => ⟨hleast q hq, fun hge => ?_⟩⟩
  · obtain ⟨_, _, ⟨⟩, -, hlt, -⟩ := exists_accepted_of_violation hfound
    exact hlt
  · rcases Nat.le_total next w.stop with hnext | hnext
    · exact hleast next hnext (violation_of_cut hw hnext hs hi (Nat.le_refl _) h)
    · exact Nat.le_trans hle hnext
  · have hbegins : Window.Begins { w with stop := Nat.find hexists } { w with stop := q } :=
      Window.begins_cut (w := ⟨w.bytes, q⟩) (Nat.le_trans hq hw) hge
    rw [settles_validateCode c func left t table hbegins (by rw [hfound]; rintro _ ⟨⟩; trivial), hfound]

end Module

end WasmEngine
