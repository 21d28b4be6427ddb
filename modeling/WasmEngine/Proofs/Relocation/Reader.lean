import WasmEngine.Proofs.Bytes
import WasmEngine.Proofs.Guarded.Reader

/-!
# Proofs/Relocation/Reader — readers do not depend on where their bytes are

An `Insertion` puts bytes between others and shifts the offsets behind them.  `Reader.Relocates`
compares a reader on bytes with a reader on the same bytes at their new place: the second does what the
first does, with every offset shifted in what they yield, in where they end and in the instruction that
they blame.  There is one rule for each way to build a reader.  `Reader.Movable` is the case that nothing
is yielded that depends on a place.
-/

namespace WasmEngine

/-- Bytes put between others: behind how many of them, and how many they are. -/
structure Insertion where
  cut : Nat
  count : Nat

namespace Insertion

variable {i : Insertion} {p q : Nat}

/-- Where an offset is after the insertion.  One at the cut is where something before it ends, and
stays. -/
def shift (i : Insertion) (p : Nat) : Nat := if i.cut < p then p + i.count else p

@[simp] theorem shift_zero : i.shift 0 = 0 := if_neg (Nat.not_lt_zero _)

theorem shift_of_lt (h : i.cut < p) : i.shift p = p + i.count := if_pos h

theorem shift_of_le (h : p ≤ i.cut) : i.shift p = p := if_neg (Nat.not_lt.2 h)

/-- Shifting keeps the order. -/
theorem shift_lt_shift_iff : i.shift p < i.shift q ↔ p < q := by
  unfold shift
  split <;> split <;> omega

/-- What is apart stays apart. -/
theorem shift_inj : i.shift p = i.shift q ↔ p = q := by
  unfold shift
  split <;> split <;> omega

end Insertion

/-- A failure with the place of its instruction after an insertion. -/
def Error.shift (i : Insertion) : Error → Error
  | .validation cause (some site) =>
    .validation cause (some { site with offset := i.shift site.offset })
  | e => e

namespace Insertion

variable {α β γ δ : Type} {i : Insertion}

/-- What is to come of bytes after an insertion, if `f` is what becomes of a result. -/
def outcome (i : Insertion) (f : α → β) : Except Error α → Except Error β
  | .ok a => .ok (f a)
  | .error e => .error (e.shift i)

/-- Outcomes that correspond go on to outcomes that correspond. -/
theorem outcome_bind {f : α → β} {g : γ → δ} {x : Except Error α} {x' : Except Error β}
    {s : α → Except Error γ} {s' : β → Except Error δ} (hx : x' = i.outcome f x)
    (hs : ∀ a, x = .ok a → s' (f a) = i.outcome g (s a)) :
    (x' >>= s') = i.outcome g (x >>= s) := by
  obtain rfl := hx
  cases x with
  | ok a => exact hs a rfl
  | error e => rfl

/-- The bytes of `w` from `pos` on are those of `v`, `k` places further on, and this is where the
insertion has put them. -/
structure Moves (i : Insertion) (k : Nat) (w v : Window) (pos : Nat) : Prop where
  pos_le : pos ≤ w.stop
  stop_le : w.stop ≤ w.bytes.size
  stop_eq : v.stop = w.stop + k
  stop_le_size : v.stop ≤ v.bytes.size
  get?_eq : ∀ p, pos ≤ p → v.get? (p + k) = w.get? p
  shift_eq : ∀ p, pos ≤ p → p ≤ w.stop → i.shift p = p + k

namespace Moves

variable {k pos next stop : Nat} {w v : Window}

/-- What moves from one position on moves from a later one on. -/
theorem mono (h : i.Moves k w v pos) (hle : pos ≤ next) (hnext : next ≤ w.stop) :
    i.Moves k w v next :=
  { h with
    pos_le := hnext
    get?_eq := fun p hp => h.get?_eq p (Nat.le_trans hle hp)
    shift_eq := fun p hp => h.shift_eq p (Nat.le_trans hle hp) }

/-- Both windows can be cut at one place. -/
theorem cut (h : i.Moves k w v pos) (hpos : pos ≤ stop) (hstop : stop ≤ w.stop) :
    i.Moves k { w with stop } { v with stop := stop + k } pos where
  pos_le := hpos
  stop_le := Nat.le_trans hstop h.stop_le
  stop_eq := rfl
  stop_le_size := by
    have := h.stop_eq
    have := h.stop_le_size
    dsimp only
    omega
  get?_eq p hp := by
    by_cases hlt : p < stop
    · have hget := h.get?_eq p hp
      have := h.stop_eq
      rw [Window.get?, Window.get?, if_pos (by omega), if_pos (by omega)] at hget
      rw [Window.get?, Window.get?, if_pos (Nat.add_lt_add_right hlt k), if_pos hlt, hget]
    · rw [Window.get?, Window.get?, if_neg fun h => hlt (Nat.lt_of_add_lt_add_right h), if_neg hlt]
  shift_eq p hp hle := h.shift_eq p hp (Nat.le_trans hle hstop)

/-- A run of bytes is found again `k` bytes on. -/
theorem spells {bs : List UInt8} (h : i.Moves k w v pos) (hs : w.Spells pos bs next) :
    v.Spells (pos + k) bs (next + k) := by
  induction bs generalizing pos with
  | nil =>
    obtain rfl : next = pos := hs
    rfl
  | cons b bs ih =>
    have hlt : pos < w.stop := (Window.get?_eq_some_iff.1 hs.1).1
    refine ⟨(h.get?_eq pos (Nat.le_refl pos)).trans hs.1, ?_⟩
    rw [Nat.add_right_comm]
    exact ih (h.mono (Nat.le_succ pos) hlt) hs.2

/-- A segment of bytes is found at its new place. -/
theorem extract_eq {n : Nat} (h : i.Moves k w v pos) (hn : pos + n ≤ w.stop) :
    (v.bytes.extract (pos + k) (pos + k + n)).toList = (w.bytes.extract pos (pos + n)).toList := by
  have hs := (Window.spells_iff_extract h.stop_le h.pos_le).2 ⟨Nat.le_add_right pos n, hn, rfl⟩
  have hle : pos + k ≤ v.stop := h.stop_eq ▸ Nat.add_le_add_right h.pos_le k
  rw [Nat.add_right_comm]
  exact ((Window.spells_iff_extract h.stop_le_size hle).1 (h.spells hs)).2.2

end Moves

end Insertion

namespace Reader

variable {α β γ δ : Type} {i : Insertion} {f : α → β} {g : γ → δ} {r : Reader α} {r' : Reader β}
  {w : Window} {pos next : Nat}

/-! ## Relocation of a reader -/

/-- A reader and its counterpart on the bytes after an insertion.  The reader moves forward inside
its window. -/
def Relocates (i : Insertion) (f : α → β) (r : Reader α) (r' : Reader β) (w : Window) (pos : Nat) :
    Prop :=
  ∀ ⦃k v⦄, i.Moves k w v pos →
    r.Ensures w pos (fun _ next => pos ≤ next ∧ next ≤ w.stop) ∧
      r' v (pos + k) = i.outcome (Prod.map f (· + k)) (r w pos)

/-- A reader that does the same wherever its bytes are. -/
def Movable (i : Insertion) (r : Reader α) : Prop := ∀ w pos, Relocates i id r r w pos

section Rules

/-- A result may be shifted, as `f` says. -/
theorem relocates_pure {a : α} {b : β} (h : b = f a) :
    Relocates i f (pure a) (pure b) w pos := fun _ _ hm => by
  obtain rfl := h
  exact ⟨ensures_pure.2 ⟨Nat.le_refl pos, hm.pos_le⟩, rfl⟩

/-- A malformed module has no place to tell. -/
theorem relocates_malformed (cause : Malformation) :
    Relocates i f (malformed cause) (malformed cause) w pos := fun _ _ _ =>
  ⟨ensures_malformed, rfl⟩

/-- A violation gets its place later, where it is located. -/
theorem relocates_invalid (cause : Violation) :
    Relocates i f (invalid cause) (invalid cause) w pos := fun _ _ _ => ⟨ensures_invalid, rfl⟩

/-- **One reader after another** relocates as the two do. -/
theorem Relocates.bind {s : α → Reader γ} {s' : β → Reader δ} (h : Relocates i f r r' w pos)
    (hs : ∀ a next, r w pos = .ok (a, next) → pos ≤ next → next ≤ w.stop →
      Relocates i g (s a) (s' (f a)) w next) : Relocates i g (r >>= s) (r' >>= s') w pos := by
  intro k v hm
  obtain ⟨hmoves, heq⟩ := h hm
  cases hr : r w pos with
  | error e =>
    rw [hr] at heq
    have hrun : (r >>= s) w pos = .error e := bind_of_eq_error hr
    refine ⟨fun a next ha => ?_, by rw [hrun, bind_of_eq_error heq]; rfl⟩
    cases hrun.symm.trans ha
  | ok x =>
    obtain ⟨a, next⟩ := x
    rw [hr] at heq
    obtain ⟨hle, hstop⟩ := hmoves hr
    obtain ⟨hmoves', heq'⟩ := hs a next hr hle hstop (hm.mono hle hstop)
    rw [bind_of_eq_ok heq, heq', bind_of_eq_ok hr]
    refine ⟨fun b last hb => ?_, rfl⟩
    rw [bind_of_eq_ok hr] at hb
    obtain ⟨hle', hstop'⟩ := hmoves' hb
    exact ⟨Nat.le_trans hle hle', hstop'⟩

/-- Behind a failure nothing is read. -/
theorem relocates_malformed_bind (cause : Malformation) {s : α → Reader γ} {s' : α → Reader δ} :
    Relocates i g (malformed cause >>= s) (malformed cause >>= s') w pos :=
  (relocates_malformed (f := id) cause).bind fun _ _ h _ _ => absurd h malformed_ne_ok

theorem relocates_invalid_bind (cause : Violation) {s : α → Reader γ} {s' : α → Reader δ} :
    Relocates i g (invalid cause >>= s) (invalid cause >>= s') w pos :=
  (relocates_invalid (f := id) cause).bind fun _ _ h _ _ => absurd h invalid_ne_ok

/-- A mapped reader relocates if the maps commute with `f`. -/
theorem Relocates.map {h : α → γ} {h' : β → δ} (hr : Relocates i f r r' w pos)
    (hf : ∀ a, h' (f a) = g (h a)) : Relocates i g (h <$> r) (h' <$> r') w pos := by
  rw [map_eq_pure_bind, map_eq_pure_bind]
  exact hr.bind fun a _ _ _ _ => relocates_pure (hf a)

/-- Conditions that decide alike choose readers that relocate. -/
theorem Relocates.ite {c c' : Prop} [Decidable c] [Decidable c'] {s : Reader α} {s' : Reader β}
    (hc : c ↔ c') (h : c → Relocates i f r r' w pos) (h' : ¬c → Relocates i f s s' w pos) :
    Relocates i f (if c then r else s) (if c' then r' else s') w pos := by
  by_cases hcase : c
  · rw [if_pos hcase, if_pos (hc.1 hcase)]
    exact h hcase
  · rw [if_neg hcase, if_neg fun h => hcase (hc.2 h)]
    exact h' hcase

/-- Offsets are shifted together as far as the window goes. -/
theorem Relocates.of_shift_add
    (h : (∀ n, pos + n ≤ w.stop → i.shift (pos + n) = i.shift pos + n) →
      Relocates i f r r' w pos) : Relocates i f r r' w pos := fun k v hm =>
  h (fun n hn => by
    rw [hm.shift_eq _ (Nat.le_add_right pos n) hn, hm.shift_eq _ (Nat.le_refl pos) hm.pos_le]
    omega) hm

/-- The position is told shifted. -/
theorem relocates_position : Relocates i i.shift position position w pos := fun k v hm => by
  refine ⟨ensures_position.2 ⟨Nat.le_refl pos, hm.pos_le⟩, ?_⟩
  change Except.ok (pos + k, pos + k) = .ok (i.shift pos, pos + k)
  rw [hm.shift_eq pos (Nat.le_refl pos) hm.pos_le]

/-- Something with the place behind it. -/
theorem relocates_place (a : α) : Relocates i (Prod.map id i.shift)
    (do pure (a, ← position)) (do pure (a, ← position)) w pos :=
  relocates_position.bind fun _ _ _ _ _ => relocates_pure rfl

/-- Skipping yields the shifted start, or fails in both windows. -/
theorem relocates_skip (n : Nat) : Relocates i i.shift (skip n) (skip n) w pos := fun k v hm => by
  have hstop := hm.stop_eq
  by_cases hn : pos + n ≤ w.stop
  · have hw : skip n w pos = .ok (pos, pos + n) := if_pos hn
    have hv : skip n v (pos + k) = .ok (pos + k, pos + k + n) := if_pos (by omega)
    refine ⟨fun a next h => ?_, ?_⟩
    · obtain ⟨-, rfl, hle⟩ := skip_eq_ok_iff.1 h
      exact ⟨Nat.le_add_right pos n, hle⟩
    · rw [hw, hv]
      change Except.ok (pos + k, pos + k + n) = .ok (i.shift pos, pos + n + k)
      rw [hm.shift_eq pos (Nat.le_refl pos) hm.pos_le, Nat.add_right_comm]
  · have hw : skip n w pos = .error (.malformed .endOfRange) := if_neg hn
    have hv : skip n v (pos + k) = .error (.malformed .endOfRange) := if_neg (by omega)
    exact ⟨fun a next h => (by cases hw.symm.trans h), by rw [hw, hv]; rfl⟩

/-- Seeking goes to the shifted target. -/
theorem relocates_seek {target : Nat} (h : pos ≤ target) (hstop : target ≤ w.stop) :
    Relocates i id (seek target) (seek (i.shift target)) w pos := fun k v hm => by
  refine ⟨ensures_seek.2 ⟨h, hstop⟩, ?_⟩
  rw [hm.shift_eq target h hstop]
  rfl

/-- A narrower window ends at the shifted stop. -/
theorem Relocates.within {stop : Nat} (h : Relocates i f r r' { w with stop } pos)
    (hpos : pos ≤ stop) (hstop : stop ≤ w.stop) :
    Relocates i f (within stop r) (Reader.within (i.shift stop) r') w pos := fun k v hm => by
  obtain ⟨hmoves, heq⟩ := h (hm.cut hpos hstop)
  refine ⟨ensures_within.2 (hmoves.mono fun _ _ hle => ⟨hle.1, Nat.le_trans hle.2 hstop⟩), ?_⟩
  rw [hm.shift_eq stop hpos hstop]
  exact heq

/-- Behind a part of the window, the reader is still inside that part. -/
theorem Relocates.within_bind {stop : Nat} {s : α → Reader γ} {s' : β → Reader δ}
    (h : Relocates i f r r' { w with stop } pos) (hpos : pos ≤ stop) (hstop : stop ≤ w.stop)
    (hs : ∀ a next, r { w with stop } pos = .ok (a, next) → pos ≤ next → next ≤ stop →
      Relocates i g (s a) (s' (f a)) w next) :
    Relocates i g (Reader.within stop r >>= s) (Reader.within (i.shift stop) r' >>= s') w pos :=
  fun _ _ hm => (h.within hpos hstop).bind (fun a next ha _ _ =>
    have hle := (h (hm.cut hpos hstop)).1 ha
    hs a next ha hle.1 hle.2) hm

end Rules

/-! ## Readers that do the same everywhere -/

/-- A reader that does the same everywhere may come first. -/
theorem Relocates.andThen {r : Reader α} {s : α → Reader γ} {s' : α → Reader δ} (h : Movable i r)
    (hs : ∀ a next, pos ≤ next → next ≤ w.stop → Relocates i g (s a) (s' a) w next) :
    Relocates i g (r >>= s) (r >>= s') w pos :=
  (h w pos).bind fun a next _ hle hstop => hs a next hle hstop

namespace Movable

variable {r s : Reader α}

theorem pure (a : α) : Movable i (pure a) := fun _ _ => relocates_pure rfl

theorem malformed (cause : Malformation) : Movable i (malformed cause : Reader α) := fun _ _ =>
  relocates_malformed cause

theorem invalid (cause : Violation) : Movable i (invalid cause : Reader α) := fun _ _ =>
  relocates_invalid cause

theorem malformed_bind (cause : Malformation) {s : α → Reader β} :
    Movable i (Reader.malformed cause >>= s) := fun _ _ => relocates_malformed_bind cause

theorem invalid_bind (cause : Violation) {s : α → Reader β} :
    Movable i (Reader.invalid cause >>= s) := fun _ _ => relocates_invalid_bind cause

/-- Readers that do the same everywhere may follow each other. -/
theorem bind {s : α → Reader β} (h : Movable i r) (hs : ∀ a, Movable i (s a)) :
    Movable i (r >>= s) := fun _ _ => .andThen h fun a _ _ _ => hs a _ _

theorem map (f : α → β) (h : Movable i r) : Movable i (f <$> r) := fun w pos =>
  (h w pos).map fun _ => rfl

theorem discard (h : Movable i r) : Movable i (discard r) := h.map _

theorem ite {c : Prop} [Decidable c] (h : Movable i r) (h' : Movable i s) :
    Movable i (if c then r else s) := by
  split
  · exact h
  · exact h'

/-- An item that is the same everywhere may be repeated, by induction on how often. -/
theorem replicate {item : Reader α} (h : Movable i item) (n : Nat) :
    Movable i (replicate n item) := by
  induction n with
  | zero => exact .pure _
  | succ n ih => exact h.bind fun x => ih.bind fun xs => .pure _

/-- So may a step, whatever it carries along. -/
theorem iterate {step : β → Reader β} (h : ∀ b, Movable i (step b)) (n : Nat) (init : β) :
    Movable i (iterate n step init) := by
  induction n generalizing init with
  | zero => exact .pure _
  | succ n ih => exact (h init).bind ih

/-- How many bytes are left does not depend on where they are. -/
theorem of_left {s : Nat → Reader α} (h : ∀ n, Movable i (s n)) :
    Movable i (do s ((← read).stop - (← position))) := fun w pos k v hm => by
  have hleft : v.stop - (pos + k) = w.stop - pos := by
    rw [hm.stop_eq]
    omega
  change _ ∧ s (v.stop - (pos + k)) v (pos + k) = _
  rw [hleft]
  exact h _ w pos hm

/-- A byte is the same at its other place. -/
theorem byte : Movable i byte := fun w pos k v hm => by
  refine ⟨ensures_byte.2 fun b hb => ⟨Nat.le_succ pos, (Window.get?_eq_some_iff.1 hb).1⟩, ?_⟩
  rw [Reader.byte, hm.get?_eq pos (Nat.le_refl pos), Reader.byte]
  cases w.get? pos with
  | none => rfl
  | some b => exact congrArg (fun next => Except.ok (b, next)) (Nat.add_right_comm pos k 1)

theorem peek : Movable i peek := fun w pos k v hm => by
  refine ⟨fun b next h => ?_, ?_⟩
  · obtain ⟨-, rfl⟩ := peek_eq_ok_iff.1 h
    exact ⟨Nat.le_refl next, hm.pos_le⟩
  · rw [Reader.peek, hm.get?_eq pos (Nat.le_refl pos), Reader.peek]
    cases w.get? pos <;> rfl

/-- That so many bytes are left is so at both places. -/
theorem require (n : Nat) : Movable i (require n) := fun w pos k v hm => by
  refine ⟨ensures_require.2 fun _ => ⟨Nat.le_refl pos, hm.pos_le⟩, ?_⟩
  have hstop := hm.stop_eq
  by_cases hn : pos + n ≤ w.stop
  · rw [Reader.require, Reader.require, if_pos hn, if_pos (by omega)]
    rfl
  · rw [Reader.require, Reader.require, if_neg hn, if_neg (by omega)]
    rfl

/-! ## Numbers and names -/

/-- The bytes of an unsigned number are read one by one, each at its other place. -/
theorem unsignedReader (top more : Nat) : Movable i (Guarded.unsignedReader top more) := by
  induction more with
  | zero =>
    rw [Guarded.unsignedReader_zero]
    exact .bind .byte fun b => .ite (.malformed _) (.ite (.malformed _) (.pure _))
  | succ more ih =>
    rw [Guarded.unsignedReader_succ]
    exact .bind .byte fun b => .ite (.bind ih fun _ => .pure _) (.pure _)

/-- So are those of a signed number. -/
theorem signedReader (top more : Nat) : Movable i (Guarded.signedReader top more) := by
  induction more with
  | zero =>
    rw [Guarded.signedReader_zero]
    exact .bind .byte fun b => .ite (.malformed _) (.ite (.malformed _) (.pure _))
  | succ more ih =>
    rw [Guarded.signedReader_succ]
    exact .bind .byte fun b => .ite (.bind ih fun _ => .pure _) (.pure _)

theorem unsigned (bits : Nat) : Movable i (unsigned bits) := unsignedReader _ _

theorem signed (bits : Nat) : Movable i (signed bits) := signedReader _ _

theorem u32 : Movable i u32 := .unsigned 32

/-- A value type is a byte. -/
theorem valType : Movable i valType := .bind .byte fun b => by
  cases ValType.ofByte? b with
  | none => exact .malformed _
  | some t => exact .pure t

/-- What is done with a run of bytes of known length, if it depends on the bytes alone. -/
theorem segment {s : List UInt8 → Reader α} (h : ∀ bs, Movable i (s bs)) (n : Nat) :
    Movable i (do
      let start ← skip n
      s ((← read).bytes.extract start (start + n)).toList) := fun w pos k v hm => by
  by_cases hn : pos + n ≤ w.stop
  · have hle := hm.stop_eq
    have hw : skip n w pos = .ok (pos, pos + n) := if_pos hn
    have hv : skip n v (pos + k) = .ok (pos + k, pos + k + n) := if_pos (by omega)
    obtain ⟨hmoves, heq⟩ := h (w.bytes.extract pos (pos + n)).toList w (pos + n)
      (hm.mono (Nat.le_add_right pos n) hn)
    have hrun (u : Window) (p : Nat) (hp : skip n u p = .ok (p, p + n)) :
        (do
          let start ← skip n
          s ((← read).bytes.extract start (start + n)).toList : Reader α) u p =
            s (u.bytes.extract p (p + n)).toList u (p + n) := bind_of_eq_ok hp
    refine ⟨fun a next ha => ?_, ?_⟩
    · obtain ⟨hle, hstop⟩ := hmoves ((hrun w pos hw).symm.trans ha)
      exact ⟨Nat.le_trans (Nat.le_add_right pos n) hle, hstop⟩
    · rw [hrun w pos hw, hrun v (pos + k) hv, hm.extract_eq hn, Nat.add_right_comm, heq]
  · exact (Relocates.bind (relocates_skip n) fun start next hs _ _ =>
      absurd (skip_eq_ok_iff.1 hs).2 (by omega)) hm

/-- Whether bytes are text does not depend on their place. -/
theorem text (bs : List UInt8) : Movable i (match Utf8.decode? bs with
    | some text => Pure.pure text
    | none => Reader.malformed .invalidUtf8 : Reader String) := by
  cases Utf8.decode? bs with
  | none => exact .malformed _
  | some text => exact .pure text

/-- A name is a number of bytes and a segment of so many. -/
theorem name : Movable i name := .bind .u32 fun n => .segment text n

end Movable

/-- The bytes that a length in front of them counts are all there. -/
theorem relocates_sized {s : Nat → Nat → Reader α} {s' : Nat → Nat → Reader β}
    (h : ∀ length start, pos ≤ start → start + length ≤ w.stop →
      i.shift (start + length) = i.shift start + length →
      Relocates i f (s length start) (s' length (i.shift start)) w start) :
    Relocates i f (do
      let length ← u32
      let start ← position
      require length
      s length start) (do
      let length ← u32
      let start ← position
      require length
      s' length start) w pos := by
  refine .andThen .u32 fun length start hle _ => ?_
  refine relocates_position.bind fun _ _ hs _ _ => ?_
  obtain ⟨rfl, rfl⟩ := position_eq_ok_iff.1 hs
  refine .of_shift_add fun hadd => (Movable.require length w start).bind fun _ _ hs _ _ => ?_
  have hrequire : (require length).Ensures w start fun _ next =>
      next = start ∧ start + length ≤ w.stop := ensures_require.2 fun hle => ⟨rfl, hle⟩
  obtain ⟨rfl, hstop⟩ := hrequire hs
  exact h length _ hle hstop (hadd length hstop)

end Reader

end WasmEngine
