import WasmEngine.Proofs.Encoding.Reads
import WasmEngine.Proofs.Guarded.Reader
import WasmEngine.Proofs.Typing.Trace

/-!
# Proofs/Blame/Settled — what more bytes cannot change

Where a window ends, a reader can only report that bytes are missing.  If it yields a result instead, or
finds that a rule is broken, it has seen all that it needed: it does the same in every window that starts
with the same bytes (`Reader.Settles`).  So do the readers of instructions and the checker of a body,
which never look ahead: `Module.settles_validateCode`.
-/

namespace WasmEngine

/-- The bytes of `v` start with those of `u`. -/
structure Window.Begins (u v : Window) : Prop where
  stop_le : u.stop ≤ u.bytes.size
  stop_le_size : v.stop ≤ v.bytes.size
  get?_eq : ∀ p b, u.get? p = some b → v.get? p = some b

namespace Window

variable {w : Window} {stop : Nat}

/-- A window that is cut off begins the whole one. -/
theorem begins_cut (hw : w.stop ≤ w.bytes.size) (hstop : stop ≤ w.stop) :
    ({ w with stop } : Window).Begins w where
  stop_le := Nat.le_trans hstop hw
  stop_le_size := hw
  get?_eq p b hb := by
    obtain ⟨hlt, hb⟩ := get?_eq_some_iff.1 hb
    exact get?_eq_some_iff.2 ⟨Nat.lt_of_lt_of_le hlt hstop, hb⟩

end Window

/-- Whether a failure says that a rule is broken. -/
def Error.IsViolation : Error → Prop
  | validation _ _ => True
  | _ => False

namespace Reader

variable {α β : Type} {r s : Reader α} {u v : Window} {pos : Nat}

/-- A result, or the violation of a rule. -/
def IsSettled (x : Except Error (α × Nat)) : Prop := ∀ e, x = .error e → e.IsViolation

/-- A reader that does not look ahead: what it finds in a window, it finds in every window that starts
with the same bytes. -/
def Settles (r : Reader α) : Prop :=
  ∀ ⦃u v pos⦄, u.Begins v → IsSettled (r u pos) → r v pos = r u pos

namespace Settles

theorem pure (a : α) : Settles (pure a) := fun _ _ _ _ _ => rfl

theorem invalid (cause : Violation) : Settles (invalid cause : Reader α) := fun _ _ _ _ _ => rfl

theorem malformed (cause : Malformation) : Settles (malformed cause : Reader α) :=
  fun _ _ _ _ _ => rfl

theorem position : Settles position := fun _ _ _ _ _ => rfl

/-- **One reader after another** looks no further than the two do. -/
theorem bind {f : α → Reader β} (h : Settles r) (hf : ∀ a, Settles (f a)) : Settles (r >>= f) := by
  intro u v pos huv hsettled
  cases hr : r u pos with
  | error e =>
    rw [bind_of_eq_error hr] at hsettled ⊢
    have he : e.IsViolation := hsettled e rfl
    have hr' : r v pos = .error e := (h huv (by rw [hr]; rintro _ ⟨⟩; exact he)).trans hr
    exact bind_of_eq_error hr'
  | ok x =>
    obtain ⟨a, next⟩ := x
    have hr' : r v pos = .ok (a, next) := (h huv (by rw [hr]; exact nofun)).trans hr
    rw [bind_of_eq_ok hr] at hsettled ⊢
    rw [bind_of_eq_ok hr']
    exact hf a huv hsettled

/-- A mapped reader settles what the reader does. -/
theorem map (f : α → β) (h : Settles r) : Settles (f <$> r) := by
  rw [map_eq_pure_bind]
  exact h.bind fun a => .pure _

theorem discard (h : Settles r) : Settles (discard r) := h.map _

/-- Either branch of a choice settles it. -/
theorem ite {c : Prop} [Decidable c] (h : Settles r) (h' : Settles s) :
    Settles (if c then r else s) := by
  split
  · exact h
  · exact h'

/-- Items settle one after the other, by induction on their number. -/
theorem replicate (h : Settles r) (n : Nat) : Settles (replicate n r) := by
  induction n with
  | zero => exact .pure _
  | succ n ih => exact h.bind fun x => ih.bind fun xs => .pure _

/-- A byte that was read is there with more bytes behind it. -/
theorem byte : Settles byte := by
  intro u v pos huv hsettled
  unfold Reader.byte at hsettled ⊢
  cases hb : u.get? pos with
  | none => exact absurd (hsettled _ (by rw [hb])) id
  | some b => rw [huv.get?_eq pos b hb]

theorem peek : Settles peek := by
  intro u v pos huv hsettled
  unfold Reader.peek at hsettled ⊢
  cases hb : u.get? pos with
  | none => exact absurd (hsettled _ (by rw [hb])) id
  | some b => rw [huv.get?_eq pos b hb]

/-- A number settles once its last byte is there; to miss one is not a violation. -/
theorem unsignedReader (top more : Nat) : Settles (Guarded.unsignedReader top more) := by
  induction more with
  | zero =>
    rw [Guarded.unsignedReader_zero]
    exact .bind .byte fun b => .ite (.malformed _) (.ite (.malformed _) (.pure _))
  | succ more ih =>
    rw [Guarded.unsignedReader_succ]
    exact .bind .byte fun b => .ite (.bind ih fun _ => .pure _) (.pure _)

/-- So does a signed number. -/
theorem signedReader (top more : Nat) : Settles (Guarded.signedReader top more) := by
  induction more with
  | zero =>
    rw [Guarded.signedReader_zero]
    exact .bind .byte fun b => .ite (.malformed _) (.ite (.malformed _) (.pure _))
  | succ more ih =>
    rw [Guarded.signedReader_succ]
    exact .bind .byte fun b => .ite (.bind ih fun _ => .pure _) (.pure _)

theorem u32 : Settles u32 := unsignedReader _ _

theorem signed (bits : Nat) : Settles (signed bits) := signedReader _ _

/-- A value type settles with its byte. -/
theorem valType : Settles valType := .bind .byte fun b => by
  cases ValType.ofByte? b with
  | none => exact .malformed _
  | some t => exact .pure t

/-- What succeeds exactly on the runs of a format, and breaks no rule, does not look ahead. -/
theorem of_accepts {format : α → List UInt8 → Prop} (h : Accepts r format)
    (hr : ∀ u pos e, r u pos = .error e → ¬e.IsViolation) : Settles r := by
  intro u v pos huv hsettled
  cases hrun : r u pos with
  | error e => exact absurd (hsettled e hrun) (hr u pos e hrun)
  | ok x =>
    obtain ⟨bs, hs, hbs⟩ := (h huv.stop_le).1 hrun
    exact (h huv.stop_le_size).2 ⟨bs, hs.mono huv.get?_eq, hbs⟩

/-- A violation that is located remains one. -/
theorem locate (site : CodeSite) (h : Settles r) : Settles (r.locate site) := by
  intro u v pos huv hsettled
  have hr : IsSettled (r u pos) := fun e he => by
    have hlocated := hsettled
    rw [Reader.locate, he] at hlocated
    cases e with
    | validation cause blamed => trivial
    | _ => exact hlocated _ rfl
  rw [Reader.locate, Reader.locate, h huv hr]

end Settles

end Reader

/-! ## Instructions -/

/-- A block type settles: with a byte, or with the number of a type. -/
theorem BlockType.settles_read : BlockType.read.Settles := by
  refine .bind .peek fun b => .ite (.bind (.discard .byte) fun _ => .pure _) ?_
  cases ValType.ofByte? b with
  | some t => exact .bind (.discard .byte) fun _ => .pure _
  | none =>
    refine .bind (.signed 33) fun n => ?_
    cases n with
    | ofNat n => exact .pure _
    | negSucc n => exact .invalid _

namespace Instr

theorem settles_memArg : memArg.Settles := .bind .u32 fun _ => .bind .u32 fun _ => .pure _

theorem settles_zeroByte : zeroByte.Settles := .bind .byte fun _ => .ite (.malformed _) (.pure _)

theorem settles_needMemory (hasMemory : Bool) : (needMemory hasMemory).Settles :=
  .ite (.pure _) (.invalid _)

/-- The bits of a float constant settle as bytes with a format. -/
theorem settles_word {n : Nat} (hn : 0 < n) : (word n).Settles := by
  refine .of_accepts (accepts_word hn) fun u pos e he => ?_
  have hskip : Reader.skip n u pos = .error e := by
    cases hrun : Reader.skip n u pos with
    | error e' =>
      rw [word, Reader.bind_of_eq_error hrun] at he
      exact he
    | ok x =>
      rw [word, Reader.bind_of_eq_ok hrun] at he
      cases he
  unfold Reader.skip at hskip
  split at hskip <;> cases hskip
  exact id

/-- An instruction behind the prefix `0xfc` settles with its last immediate. -/
theorem settles_readExtended (hasMemory : Bool) : (readExtended hasMemory).Settles := by
  refine .bind .u32 fun code => ?_
  split
  · exact .bind (settles_needMemory _) fun _ => .bind settles_zeroByte fun _ =>
      .bind settles_zeroByte fun _ => .pure _
  · exact .bind (settles_needMemory _) fun _ => .bind settles_zeroByte fun _ => .pure _
  · cases NumOp.saturating[code]? with
    | some op => exact .pure _
    | none => exact .malformed _

/-- **An instruction is read** without looking ahead. -/
theorem settles_read (hasMemory : Bool) : (read hasMemory).Settles := by
  refine .bind .byte fun op => ?_
  split
  · exact .pure _
  · exact .pure _
  · exact .map _ BlockType.settles_read
  · exact .map _ BlockType.settles_read
  · exact .map _ BlockType.settles_read
  · exact .pure _
  · exact .pure _
  · exact .map _ .u32
  · exact .map _ .u32
  · exact .bind .u32 fun n => .bind (.replicate .u32 n) fun _ => .map _ .u32
  · exact .pure _
  · exact .map _ .u32
  · exact .bind .u32 fun _ => .map _ .u32
  · exact .pure _
  · exact .pure _
  · exact .bind .u32 fun _ => .ite (.bind (.invalid _) fun _ => .map _ (.map _ .valType))
      (.map _ (.map _ .valType))
  · exact .map _ .u32
  · exact .map _ .u32
  · exact .map _ .u32
  · exact .map _ .u32
  · exact .map _ .u32
  · exact .bind (settles_needMemory _) fun _ => .bind settles_zeroByte fun _ => .pure _
  · exact .bind (settles_needMemory _) fun _ => .bind settles_zeroByte fun _ => .pure _
  · exact .bind (.signed 32) fun _ => .pure _
  · exact .bind (.signed 64) fun _ => .pure _
  · exact .bind (settles_word (by decide)) fun _ => .pure _
  · exact .bind (settles_word (by decide)) fun _ => .pure _
  · exact settles_readExtended hasMemory
  · cases LoadOp.ofOpcode? op with
    | some loadOp => exact .bind (settles_needMemory _) fun _ => .map _ settles_memArg
    | none =>
      cases StoreOp.ofOpcode? op with
      | some storeOp => exact .bind (settles_needMemory _) fun _ => .map _ settles_memArg
      | none =>
        cases NumOp.ofOpcode? op with
        | some numOp => exact .pure _
        | none => exact .malformed _

end Instr

/-! ## The checker -/

/-- A check reads nothing: it is settled by what was read before. -/
theorem Check.settles_lift {α : Type} (check : Check α) (t : Typing) : (check.lift t).Settles := by
  unfold Check.lift
  cases check.run t with
  | ok x => exact .pure _
  | error cause => exact .invalid _

namespace Module

/-- An instruction that was read and checked, or refused as a violation, is settled. -/
theorem settles_validateInstr (c : CodeContext) (t : Typing) : (validateInstr c t).Settles :=
  .bind .position fun _ => .bind (Instr.settles_read _) fun _ => .bind .position fun _ =>
    Check.settles_lift _ _

/-- **A body is checked** without looking ahead. -/
theorem settles_validateCode (c : CodeContext) (func left : Nat) (t : Typing) (table : SideTable) :
    (validateCode c func left t table).Settles := by
  induction left generalizing t table with
  | zero => exact .malformed _
  | succ left ih =>
    refine .bind .position fun offset => .bind (.locate _ (settles_validateInstr c t)) fun x => ?_
    obtain ⟨closing, t'⟩ := x
    cases closing with
    | nothing => exact ih t' table
    | block offset jump => exact ih t' _
    | function => exact .pure _

end Module

end WasmEngine
