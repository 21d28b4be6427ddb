import WasmEngine.Proofs.Decode.Ensures

/-!
# Proofs/Guarded/Reader — reading with every access checked

A `Guarded` computation is a reader that has a third way to end: an `Overrun`, where a program in
machine words that trusts its own checks would leave its data.  Its primitives test each such place
on the way: a position may not leave its window, a range of bytes must lie inside the window that it
is taken from, an index must be in range, and a sum or a difference of lengths must be a machine word.

`Guarded.Follows` compares a guarded computation with a reader: it never overruns, it gives what the
reader gives, and a failure is a rejection of the bytes.  There is one rule for each way to build a
reader; the rules for guards turn into conditions what the readers have checked.
-/

namespace WasmEngine

/-- Places at which the front end could leave its own data. -/
inductive Overrun where
  /-- A position behind the end of its window. -/
  | position
  /-- A range of bytes that ends before it starts, or behind the end of what it is taken from. -/
  | slice
  /-- An index past the end of a list. -/
  | index
  /-- A sum or difference of lengths that is no machine word. -/
  | length
  /-- The control stack is consulted when it is empty. -/
  | emptyControl
  /-- There are fewer operands than when the innermost block was entered. -/
  | belowHeight
deriving DecidableEq, Repr

/-- Failures that say that bytes are no module or that a module is not valid. -/
def Error.IsRejection : Error → Prop
  | malformed _ | validation _ _ => True
  | _ => False

/-- A reader that may overrun besides. -/
abbrev Guarded := ReaderT Window (StateT Nat (ExceptT Error (Except Overrun)))

namespace Guarded

variable {α β : Type}

/-! ## Guards -/

section Guards

variable {m : Type → Type} [Monad m] [MonadExceptOf Overrun m]

/-- Overruns unless a condition holds. -/
def guarded (c : Prop) [Decidable c] (o : Overrun) : m Unit :=
  if c then pure () else throw o

/-- The sum of two lengths. -/
def sum (a b : Nat) : m Nat := do
  guarded (a + b < 2 ^ 64) .length
  pure (a + b)

/-- The difference of two lengths. -/
def difference (a b : Nat) : m Nat := do
  guarded (b ≤ a) .length
  pure (a - b)

/-- The element of a list at an index. -/
def element (xs : List α) (i : Nat) : m α :=
  match xs[i]? with
  | some x => pure x
  | none => throw Overrun.index

theorem guarded_eq {c : Prop} [Decidable c] (h : c) (o : Overrun) :
    (guarded c o : m Unit) = pure () := if_pos h

theorem element_eq {xs : List α} {i : Nat} {x : α} (h : xs[i]? = some x) :
    (element xs i : m α) = pure x := by rw [element, h]

variable [LawfulMonad m]

theorem sum_eq {a b : Nat} (h : a + b < 2 ^ 64) : (sum a b : m Nat) = pure (a + b) := by
  rw [sum, guarded_eq h, pure_bind]

theorem difference_eq {a b : Nat} (h : b ≤ a) : (difference a b : m Nat) = pure (a - b) := by
  rw [difference, guarded_eq h, pure_bind]

end Guards

/-! ## Primitives -/

/-- Runs a guarded computation from a position. -/
def runAt (g : Guarded α) (w : Window) (pos : Nat) :
    Except Overrun (Except Error (α × Nat)) := g w pos

/-- Fails because the bytes are malformed. -/
def malformed (cause : Malformation) : Guarded α := throw (Error.malformed cause)

/-- Fails because the module breaks a rule. -/
def invalid (cause : Violation) : Guarded α := throw (Error.invalid cause)

/-- The sum of two lengths, if it is a machine word. -/
def checkedSum (a b : Nat) : Guarded Nat :=
  if a + b < 2 ^ 64 then pure (a + b) else malformed .endOfInput

/-- The current position. -/
def position : Guarded Nat := get

/-- Continues at another position. -/
def moveTo (pos : Nat) : Guarded Unit := do
  guarded (pos ≤ (← read).stop) .position
  set pos

/-- Moves past `n` bytes, without asking whether they are there. -/
def advance (n : Nat) : Guarded Unit := do moveTo (← sum (← position) n)

/-- The bytes of a range of the window. -/
def slice (start stop : Nat) : Guarded (List UInt8) := do
  let w ← read
  guarded (start ≤ stop ∧ stop ≤ w.stop) .slice
  pure (w.bytes.extract start stop).toList

/-- Runs a computation on the part of the window before `stop`. -/
def within (stop : Nat) (g : Guarded α) : Guarded α := do
  guarded (stop ≤ (← read).stop) .slice
  guarded ((← position) ≤ stop) .position
  withReader ({ · with stop := stop }) g

/-- The next byte, if there is one, without moving past it. -/
def peek? : Guarded (Option UInt8) := do pure ((← read).get? (← position))

/-- The next byte, without moving past it. -/
def peek : Guarded UInt8 := do
  match ← peek? with
  | some b => pure b
  | none => malformed .endOfInput

/-- The next byte. -/
def byte : Guarded UInt8 := do
  let b ← peek
  advance 1
  pure b

/-- Fails unless `n` bytes are left.  The sum stops at the greatest machine word. -/
def require (n : Nat) : Guarded Unit := do
  if (← read).stop < min ((← position) + n) (2 ^ 64 - 1) then malformed .endOfInput

/-- Moves past `n` bytes, which must all be there, and yields where they start. -/
def skip (n : Nat) : Guarded Nat := do
  let start ← position
  if 2 ^ 64 ≤ start + n ∨ (← read).stop < start + n then malformed .endOfRange
  let _ ← slice start (start + n)
  advance n
  pure start

/-- Reads an item `n` times. -/
def replicate (n : Nat) (item : Guarded α) : Guarded (List α) :=
  match n with
  | 0 => pure []
  | n + 1 => do
    let x ← item
    let xs ← replicate n item
    pure (x :: xs)

/-- Reads an item `n` times, each with the result of those before it. -/
def iterate (n : Nat) (step : β → Guarded β) (init : β) : Guarded β :=
  match n with
  | 0 => pure init
  | n + 1 => do iterate n step (← step init)

end Guarded

/-- What can be seen through the window are bytes of the sequence, and these are in memory: no
allocation is larger than the greatest signed machine word. -/
structure Window.IsSlice (w : Window) : Prop where
  stop_le : w.stop ≤ w.bytes.size
  size_lt : w.bytes.size < 2 ^ 63

theorem Window.IsSlice.stop_lt {w : Window} (hw : w.IsSlice) : w.stop < 2 ^ 63 :=
  Nat.lt_of_le_of_lt hw.stop_le hw.size_lt

namespace Guarded

variable {α β : Type}

/-! ## Single steps -/

section Steps

variable {w : Window} {pos : Nat}

theorem runAt_bind_of_ok {g : Guarded α} {g' : α → Guarded β} {a : α} {next : Nat}
    (h : g.runAt w pos = .ok (.ok (a, next))) :
    (g >>= g').runAt w pos = (g' a).runAt w next := by
  change Except.bind (g.runAt w pos) (ExceptT.bindCont fun x => g' x.1 w x.2) = _
  rw [h]
  rfl

theorem runAt_bind_of_error {g : Guarded α} {g' : α → Guarded β} {e : Error}
    (h : g.runAt w pos = .ok (.error e)) : (g >>= g').runAt w pos = .ok (.error e) := by
  change Except.bind (g.runAt w pos) (ExceptT.bindCont fun x => g' x.1 w x.2) = _
  rw [h]
  rfl

@[simp] theorem runAt_read_bind (g' : Window → Guarded β) :
    (read >>= g').runAt w pos = (g' w).runAt w pos := rfl

@[simp] theorem runAt_position_bind (g' : Nat → Guarded β) :
    (position >>= g').runAt w pos = (g' pos).runAt w pos := rfl

@[simp] theorem runAt_peek?_bind (g' : Option UInt8 → Guarded β) :
    (peek? >>= g').runAt w pos = (g' (w.get? pos)).runAt w pos := rfl

theorem checkedSum_eq {a b : Nat} (h : a + b < 2 ^ 64) : checkedSum a b = pure (a + b) := if_pos h

theorem runAt_moveTo {target : Nat} (h : target ≤ w.stop) :
    (moveTo target).runAt w pos = .ok (.ok ((), target)) := by
  rw [moveTo, runAt_read_bind, guarded_eq h, pure_bind]
  rfl

theorem runAt_advance {n : Nat} (h : pos + n ≤ w.stop) (hw : w.IsSlice) :
    (advance n).runAt w pos = .ok (.ok ((), pos + n)) := by
  have hlt := hw.stop_lt
  rw [advance, runAt_position_bind, sum_eq (by omega), pure_bind, runAt_moveTo h]

theorem runAt_slice {start stop : Nat} (h : start ≤ stop) (hstop : stop ≤ w.stop) :
    (slice start stop).runAt w pos = .ok (.ok ((w.bytes.extract start stop).toList, pos)) := by
  rw [slice, runAt_read_bind, guarded_eq ⟨h, hstop⟩]
  rfl

end Steps

/-! ## Following a reader -/

variable {w : Window} {pos : Nat}

/-- The computation gives what the reader gives, from a position in a window on.  The reader moves
forward inside the window, ends where `Q` holds, or rejects the bytes. -/
structure Tracks (g : Guarded α) (r : Reader α) (w : Window) (pos : Nat) (Q : α → Nat → Prop) :
    Prop where
  eq : g.runAt w pos = .ok (r.runAt w pos)
  moves : r.Ensures w pos fun a next => (pos ≤ next ∧ next ≤ w.stop) ∧ Q a next
  rejects : ∀ e, r w pos = .error e → e.IsRejection

/-- The computation tracks the reader if it starts inside a slice. -/
def Follows (g : Guarded α) (r : Reader α) (w : Window) (pos : Nat) (Q : α → Nat → Prop) : Prop :=
  w.IsSlice → pos ≤ w.stop → Tracks g r w pos Q

section Rules

variable {g : Guarded α} {r : Reader α} {P Q : α → Nat → Prop}

theorem Follows.mono (h : Follows g r w pos P) (hPQ : ∀ a next, P a next → Q a next) :
    Follows g r w pos Q := fun hw hpos =>
  { h hw hpos with moves := (h hw hpos).moves.mono fun a next ha => ⟨ha.1, hPQ a next ha.2⟩ }

/-- What the reader ensures may be used behind it. -/
theorem Follows.ensuring (h : Follows g r w pos P) (hr : r.Ensures w pos Q) :
    Follows g r w pos fun a next => P a next ∧ Q a next := fun hw hpos =>
  { h hw hpos with moves := fun _ _ ha =>
      let ⟨hle, hP⟩ := (h hw hpos).moves ha
      ⟨hle, hP, hr ha⟩ }

theorem Follows.of_true (h : Follows g r w pos fun _ _ => True) (hr : r.Ensures w pos Q) :
    Follows g r w pos Q := (h.ensuring hr).mono fun _ _ => And.right

/-- The slice and the position in it may be used. -/
theorem Follows.of_isSlice (h : w.IsSlice → pos ≤ w.stop → Follows g r w pos Q) :
    Follows g r w pos Q := fun hw hpos => h hw hpos hw hpos

theorem follows_pure {a : α} (h : Q a pos) : Follows (pure a) (pure a) w pos Q := fun _ hpos =>
  { eq := rfl
    moves := Reader.ensures_pure.2 ⟨⟨Nat.le_refl pos, hpos⟩, h⟩
    rejects := fun e he => by cases he }

theorem follows_malformed (cause : Malformation) :
    Follows (malformed cause) (Reader.malformed cause) w pos Q := fun _ _ =>
  { eq := rfl
    moves := Reader.ensures_malformed
    rejects := fun e he => by cases he; trivial }

theorem follows_invalid (cause : Violation) :
    Follows (invalid cause) (Reader.invalid cause) w pos Q := fun _ _ =>
  { eq := rfl
    moves := Reader.ensures_invalid
    rejects := fun e he => by cases he; trivial }

/-- What a computation and a reader give is related when the two results are: the reader moves forward
inside the window, and it rejects the bytes exactly if the computation does. -/
def Relates (g : Guarded α) (r : Reader β) (w : Window) (pos : Nat) (R : α → β → Nat → Prop) :
    Prop :=
  w.IsSlice → pos ≤ w.stop →
    (∀ b next, r w pos = .ok (b, next) → (pos ≤ next ∧ next ≤ w.stop) ∧
      ∃ a, g.runAt w pos = .ok (.ok (a, next)) ∧ R a b next) ∧
    ∀ e, r w pos = .error e → g.runAt w pos = .ok (.error e) ∧ e.IsRejection

theorem Follows.relates (h : Follows g r w pos Q) :
    Relates g r w pos fun a b next => a = b ∧ Q b next := by
  intro hw hpos
  obtain ⟨heq, hmoves, hrejects⟩ := h hw hpos
  rw [Reader.runAt] at heq
  refine ⟨fun b next hb => ?_, fun e he => ⟨he ▸ heq, hrejects e he⟩⟩
  exact ⟨(hmoves hb).1, b, hb ▸ heq, rfl, (hmoves hb).2⟩

theorem Relates.follows (h : Relates g r w pos fun a b next => a = b ∧ Q b next) :
    Follows g r w pos Q := by
  intro hw hpos
  obtain ⟨hok, herror⟩ := h hw hpos
  refine { eq := ?_, moves := fun b next hb => ?_, rejects := fun e he => (herror e he).2 }
  · rw [Reader.runAt]
    cases hr : r w pos with
    | error e => exact (herror e hr).1
    | ok x =>
      obtain ⟨-, _, hg, rfl, -⟩ := hok x.1 x.2 hr
      exact hg
  · obtain ⟨hle, _, -, -, hQ⟩ := hok b next hb
    exact ⟨hle, hQ⟩

/-- **One computation after another** does what one reader after another does. -/
theorem Relates.bind {γ δ : Type} {r : Reader β} {R : α → β → Nat → Prop} {g' : α → Guarded γ}
    {r' : β → Reader δ} {R' : γ → δ → Nat → Prop} (h : Relates g r w pos R)
    (h' : ∀ a b next, pos ≤ next → R a b next → Relates (g' a) (r' b) w next R') :
    Relates (g >>= g') (r >>= r') w pos R' := by
  intro hw hpos
  obtain ⟨hok, herror⟩ := h hw hpos
  cases hr : r w pos with
  | error e =>
    have hrun : (r >>= r') w pos = .error e := Reader.bind_of_eq_error hr
    obtain ⟨hg, he⟩ := herror e hr
    refine ⟨fun b next hb => ?_, fun e' he' => ?_⟩
    · rw [hrun] at hb
      cases hb
    · rw [hrun] at he'
      cases he'
      exact ⟨runAt_bind_of_error hg, he⟩
  | ok x =>
    obtain ⟨b, next⟩ := x
    obtain ⟨⟨hle, hstop⟩, a, hg, hR⟩ := hok b next hr
    have hrun : (r >>= r') w pos = r' b w next := Reader.bind_of_eq_ok hr
    obtain ⟨hok', herror'⟩ := h' a b next hle hR hw hstop
    rw [hrun, runAt_bind_of_ok hg]
    refine ⟨fun c last hc => ?_, herror'⟩
    obtain ⟨⟨hle', hstop'⟩, hc'⟩ := hok' c last hc
    exact ⟨⟨Nat.le_trans hle hle', hstop'⟩, hc'⟩

theorem Follows.bind {g' : α → Guarded β} {r' : α → Reader β} {R : β → Nat → Prop}
    (h : Follows g r w pos Q)
    (h' : ∀ a next, pos ≤ next → Q a next → Follows (g' a) (r' a) w next R) :
    Follows (g >>= g') (r >>= r') w pos R := by
  refine (h.relates.bind fun a b next hle hab => ?_).follows
  obtain ⟨rfl, hQ⟩ := hab
  exact (h' a next hle hQ).relates

/-- Behind a failure nothing is read. -/
theorem follows_malformed_bind (cause : Malformation) {g' : α → Guarded β} {r' : α → Reader β}
    {R : β → Nat → Prop} :
    Follows (malformed cause >>= g') (Reader.malformed cause >>= r') w pos R :=
  (follows_malformed (Q := fun _ _ => False) cause).bind fun _ _ _ h => h.elim

theorem follows_invalid_bind (cause : Violation) {g' : α → Guarded β} {r' : α → Reader β}
    {R : β → Nat → Prop} :
    Follows (invalid cause >>= g') (Reader.invalid cause >>= r') w pos R :=
  (follows_invalid (Q := fun _ _ => False) cause).bind fun _ _ _ h => h.elim

theorem Follows.ite {c : Prop} [Decidable c] {g' : Guarded α} {r' : Reader α}
    (h : c → Follows g r w pos Q) (h' : ¬c → Follows g' r' w pos Q) :
    Follows (if c then g else g') (if c then r else r') w pos Q := by
  split
  · next hc => exact h hc
  · next hc => exact h' hc

theorem Follows.map {f : α → β} {R : β → Nat → Prop} (h : Follows g r w pos Q)
    (hR : ∀ a next, Q a next → R (f a) next) : Follows (f <$> g) (f <$> r) w pos R := by
  rw [map_eq_pure_bind, map_eq_pure_bind]
  exact h.bind fun a next _ ha => follows_pure (hR a next ha)

/-- A computation whose run is that of another follows the same readers. -/
theorem Follows.congr {g' : Guarded α} (h : Follows g r w pos Q)
    (heq : w.IsSlice → pos ≤ w.stop → g'.runAt w pos = g.runAt w pos) : Follows g' r w pos Q :=
  fun hw hpos => { h hw hpos with eq := (heq hw hpos).trans (h hw hpos).eq }

/-- A step of the computation that the reader has no counterpart of. -/
theorem Follows.after {g' : α → Guarded β} {r' : Reader β} {a : α} {R : β → Nat → Prop}
    (ha : w.IsSlice → pos ≤ w.stop → g.runAt w pos = .ok (.ok (a, pos)))
    (h : Follows (g' a) r' w pos R) : Follows (g >>= g') r' w pos R :=
  h.congr fun hw hpos => runAt_bind_of_ok (ha hw hpos)

/-- Both look at the position. -/
theorem Relates.position {g' : Nat → Guarded α} {r' : Nat → Reader β} {R : α → β → Nat → Prop}
    (h : Relates (g' pos) (r' pos) w pos R) :
    Relates (Guarded.position >>= g') (Reader.position >>= r') w pos R := h

theorem Follows.position {g' : Nat → Guarded α} {r' : Nat → Reader α}
    (h : Follows (g' pos) (r' pos) w pos Q) :
    Follows (Guarded.position >>= g') (Reader.position >>= r') w pos Q :=
  h.relates.position.follows

/-- Both look at the window. -/
theorem Follows.window {g' : Window → Guarded α} {r' : Window → Reader α}
    (h : Follows (g' w) (r' w) w pos Q) :
    Follows (read >>= g') (read >>= r') w pos Q := fun hw hpos =>
  { eq := (h hw hpos).eq, moves := (h hw hpos).moves, rejects := (h hw hpos).rejects }

/-- Only the reader looks at the window. -/
theorem Follows.of_read {r' : Window → Reader α} (h : Follows g (r' w) w pos Q) :
    Follows g (read >>= r') w pos Q := fun hw hpos =>
  { eq := (h hw hpos).eq, moves := (h hw hpos).moves, rejects := (h hw hpos).rejects }

end Rules

/-! ## The primitives follow those of readers -/

theorem follows_peek? :
    Follows peek? Reader.peek? w pos fun b next => w.get? pos = b ∧ next = pos := fun _ hpos =>
  { eq := rfl
    moves := Reader.ensures_peek?.2 ⟨⟨Nat.le_refl pos, hpos⟩, rfl, rfl⟩
    rejects := fun e he => by cases he }

theorem follows_peek :
    Follows peek Reader.peek w pos fun b next => w.get? pos = some b ∧ next = pos := by
  intro _ hpos
  refine { eq := ?_, moves := fun b next h => ?_, rejects := fun e he => ?_ }
  · rw [peek, runAt_peek?_bind, Reader.runAt, Reader.peek]
    cases w.get? pos <;> rfl
  · obtain ⟨hget, rfl⟩ := Reader.peek_eq_ok_iff.1 h
    exact ⟨⟨Nat.le_refl _, hpos⟩, hget, rfl⟩
  · rw [Reader.peek] at he
    split at he <;> cases he
    trivial

theorem follows_byte : Follows byte Reader.byte w pos fun b next =>
    w.get? pos = some b ∧ next = pos + 1 := by
  intro hw hpos
  refine { eq := ?_, moves := fun b next h => ?_, rejects := fun e he => ?_ }
  · rw [byte, peek, bind_assoc, runAt_peek?_bind, Reader.runAt, Reader.byte]
    cases hget : w.get? pos with
    | none => rfl
    | some b =>
      have hlt : pos + 1 ≤ w.stop := (Window.get?_eq_some_iff.1 hget).1
      rw [pure_bind, runAt_bind_of_ok (runAt_advance hlt hw)]
      rfl
  · obtain ⟨hget, rfl⟩ := Reader.byte_eq_ok_iff.1 h
    exact ⟨⟨Nat.le_succ pos, (Window.get?_eq_some_iff.1 hget).1⟩, hget, rfl⟩
  · rw [Reader.byte] at he
    split at he <;> cases he
    trivial

/-- A byte that has been seen may be passed without looking again. -/
theorem follows_advance_one {b : UInt8} (h : w.get? pos = some b) :
    Follows (advance 1) (discard Reader.byte) w pos fun _ _ => True := by
  have hlt : pos + 1 ≤ w.stop := (Window.get?_eq_some_iff.1 h).1
  refine (follows_byte.map fun _ _ _ => trivial).congr fun hw _ => ?_
  rw [byte, peek, map_eq_pure_bind, bind_assoc, bind_assoc, runAt_peek?_bind, h]
  simp only [pure_bind, bind_assoc]
  rw [runAt_advance hlt hw, runAt_bind_of_ok (runAt_advance hlt hw)]
  rfl

theorem follows_require (n : Nat) :
    Follows (require n) (Reader.require n) w pos fun _ next => next = pos ∧ pos + n ≤ w.stop := by
  intro hw hpos
  have hlt := hw.stop_lt
  refine { eq := ?_, moves := ?_, rejects := fun e he => ?_ }
  · rw [require, runAt_read_bind, runAt_position_bind, Reader.runAt, Reader.require]
    split
    · rw [if_neg (by omega)]
      rfl
    · rw [if_pos (by omega)]
      rfl
  · exact Reader.ensures_require.2 fun h => ⟨⟨Nat.le_refl pos, hpos⟩, rfl, h⟩
  · rw [Reader.require] at he
    split at he <;> cases he
    trivial

theorem runAt_skip {n : Nat} (h : pos + n ≤ w.stop) (hw : w.IsSlice) :
    (skip n).runAt w pos = .ok (.ok (pos, pos + n)) := by
  have hlt := hw.stop_lt
  rw [skip, runAt_position_bind, runAt_read_bind, if_neg (by omega)]
  exact (runAt_bind_of_ok (runAt_slice (Nat.le_add_right pos n) h)).trans
    (runAt_bind_of_ok (runAt_advance h hw))

theorem follows_skip (n : Nat) : Follows (skip n) (Reader.skip n) w pos fun start next =>
    start = pos ∧ next = pos + n := by
  intro hw hpos
  have hlt := hw.stop_lt
  refine { eq := ?_, moves := fun start next h => ?_, rejects := fun e he => ?_ }
  · rw [Reader.runAt, Reader.skip]
    split
    · next h => exact runAt_skip h hw
    · next h =>
      rw [skip, runAt_position_bind, runAt_read_bind, if_pos (by omega)]
      rfl
  · obtain ⟨rfl, rfl, hle⟩ := Reader.skip_eq_ok_iff.1 h
    exact ⟨⟨Nat.le_add_right .., hle⟩, rfl, rfl⟩
  · rw [Reader.skip] at he
    split at he <;> cases he
    trivial

theorem follows_within {g : Guarded α} {r : Reader α} {stop : Nat} {Q : α → Nat → Prop}
    (hpos : pos ≤ stop) (hstop : stop ≤ w.stop) (h : Follows g r { w with stop } pos Q) :
    Follows (within stop g) (Reader.within stop r) w pos fun a next => Q a next ∧ next ≤ stop := by
  intro hw _
  obtain ⟨heq, hmoves, hrejects⟩ := h ⟨Nat.le_trans hstop hw.stop_le, hw.size_lt⟩ hpos
  refine { eq := ?_, moves := fun a next ha => ?_, rejects := hrejects }
  · rw [within, runAt_read_bind, guarded_eq hstop, pure_bind, runAt_position_bind, guarded_eq hpos,
      pure_bind]
    exact heq
  · obtain ⟨⟨hle, hle'⟩, hQ⟩ := hmoves ha
    exact ⟨⟨hle, Nat.le_trans hle' hstop⟩, hQ, hle'⟩

theorem follows_moveTo {target : Nat} (h : pos ≤ target) (hstop : target ≤ w.stop) :
    Follows (moveTo target) (Reader.seek target) w pos fun _ next => next = target := fun _ _ =>
  { eq := by
      rw [runAt_moveTo hstop]
      rfl
    moves := Reader.ensures_seek.2 ⟨⟨h, hstop⟩, rfl⟩
    rejects := fun e he => by cases he }

/-! ## Loops -/

/-- **The rule of loops**: what the turns keep up holds at the end.  The invariant knows how many
turns are left. -/
theorem follows_iterate {step : β → Guarded β} {step' : β → Reader β} {I : Nat → β → Prop}
    (h : ∀ k b pos, I (k + 1) b → Follows (step b) (step' b) w pos fun b' _ => I k b') (n : Nat)
    {b : β} (hb : I n b) :
    Follows (iterate n step b) (Reader.iterate n step' b) w pos fun b' _ => I 0 b' := by
  induction n generalizing b pos with
  | zero => exact follows_pure hb
  | succ n ih => exact (h n b pos hb).bind fun b' _ _ hb' => ih hb'

theorem follows_replicate {item : Guarded α} {item' : Reader α} {P : α → Prop}
    (h : ∀ pos, Follows item item' w pos fun a _ => P a) (n : Nat) :
    Follows (replicate n item) (Reader.replicate n item') w pos
      fun as _ => as.length = n ∧ ∀ a ∈ as, P a := by
  induction n generalizing pos with
  | zero => exact follows_pure ⟨rfl, by simp⟩
  | succ n ih =>
    refine (h pos).bind fun a _ _ ha => ih.bind fun as _ _ has => follows_pure ?_
    exact ⟨congrArg Nat.succ has.1, List.forall_mem_cons.2 ⟨ha, has.2⟩⟩

/-! ## Numbers, types and names -/

/-- Reads an unsigned integer of at most `more + 1` bytes, of which byte `more + 1` may hold only
`top` bits. -/
def unsignedGroups (top : Nat) (more : Nat) : Guarded Nat := do
  let b := (← byte).toNat
  match more with
  | 0 =>
    if Leb128.continuation ≤ b then malformed .integerTooLong
    else if 1 <<< top ≤ b then malformed .integerTooLarge
    else pure b
  | more + 1 =>
    if Leb128.continuation ≤ b then do
      let rest ← unsignedGroups top more
      pure (b - Leb128.continuation + 128 * rest)
    else pure b

/-- Reads a signed integer of at most `more + 1` bytes, of which byte `more + 1` may hold only `top`
bits. -/
def signedGroups (top : Nat) (more : Nat) : Guarded Int := do
  let b := (← byte).toNat
  match more with
  | 0 =>
    if Leb128.continuation ≤ b then malformed .integerTooLong
    else
      let sign ← difference top 1
      if b >>> sign ≠ 0 ∧ b >>> sign ≠ 0x7f >>> sign then malformed .integerTooLarge
      else pure (Leb128.signExtend7 b)
  | more + 1 =>
    if Leb128.continuation ≤ b then do
      let rest ← signedGroups top more
      pure ((b - Leb128.continuation : Nat) + 128 * rest)
    else pure (Leb128.signExtend7 b)

/-- An unsigned integer of `bits` bits. -/
def unsigned (bits : Nat) : Guarded Nat := do
  let groups ← difference bits 1
  unsignedGroups (← difference bits (7 * (groups / 7))) (groups / 7)

/-- A signed integer of `bits` bits. -/
def signed (bits : Nat) : Guarded Int := do
  let groups ← difference bits 1
  signedGroups (← difference bits (7 * (groups / 7))) (groups / 7)

/-- An unsigned 32-bit integer. -/
def u32 : Guarded Nat := unsigned 32

/-- A value type. -/
def valType : Guarded ValType := do
  match ValType.ofByte? (← byte) with
  | some t => pure t
  | none => malformed .invalidValueType

/-- A name: its length in bytes and its text in UTF-8. -/
def name : Guarded String := do
  let n ← u32
  let start ← skip n
  match Utf8.decode? (← slice start (start + n)) with
  | some text => pure text
  | none => malformed .invalidUtf8

/-- A computation that looks at the next byte first is `byte` and what follows it. -/
theorem eq_byte_bind {r : Reader α} {f : UInt8 → Reader α}
    (hnone : ∀ w pos, w.get? pos = none → r w pos = .error (.malformed .endOfInput))
    (hsome : ∀ w pos b, w.get? pos = some b → r w pos = f b w (pos + 1)) :
    r = Reader.byte >>= f := by
  funext w pos
  cases h : w.get? pos with
  | none =>
    rw [hnone w pos h, Reader.bind_of_eq_error]
    rw [Reader.byte, h]
  | some b =>
    rw [hsome w pos b h, Reader.bind_of_eq_ok (Reader.byte_eq_ok_iff.2 ⟨h, rfl⟩)]

theorem ite_run {c : Prop} [Decidable c] (r r' : Reader α) :
    (if c then r else r') w pos = if c then r w pos else r' w pos := by
  split <;> rfl

/-- The recursion over the groups of an unsigned number, as a reader. -/
abbrev unsignedReader (top more : Nat) : Reader Nat := fun w pos =>
  Leb128.unsignedGroups w top more pos

/-- The recursion over the groups of a signed number, as a reader. -/
abbrev signedReader (top more : Nat) : Reader Int := fun w pos =>
  Leb128.signedGroups w top more pos

theorem unsignedReader_zero (top : Nat) : unsignedReader top 0 = (do
    let b ← Reader.byte
    if Leb128.continuation ≤ b.toNat then Reader.malformed .integerTooLong
    else if 1 <<< top ≤ b.toNat then Reader.malformed .integerTooLarge
    else pure b.toNat) := by
  refine eq_byte_bind (fun w pos h => ?_) fun w pos b h => ?_
  · rw [unsignedReader, Leb128.unsignedGroups, h]
  · rw [unsignedReader, Leb128.unsignedGroups]
    simp only [h, ite_run]
    rfl

theorem unsignedReader_succ (top more : Nat) : unsignedReader top (more + 1) = (do
    let b ← Reader.byte
    if Leb128.continuation ≤ b.toNat then
      let rest ← unsignedReader top more
      pure (b.toNat - Leb128.continuation + 128 * rest)
    else pure b.toNat) := by
  refine eq_byte_bind (fun w pos h => ?_) fun w pos b h => ?_
  · rw [unsignedReader, Leb128.unsignedGroups, h]
  · rw [unsignedReader, Leb128.unsignedGroups]
    simp only [h, ite_run]
    congr 1
    change _ = (Leb128.unsignedGroups w top more (pos + 1) >>= fun x => _)
    split
    · next hr => rw [hr]; rfl
    · next hr => rw [hr]; rfl

theorem signedReader_zero (top : Nat) : signedReader top 0 = (do
    let b ← Reader.byte
    if Leb128.continuation ≤ b.toNat then Reader.malformed .integerTooLong
    else if b.toNat >>> (top - 1) ≠ 0 ∧ b.toNat >>> (top - 1) ≠ 0x7f >>> (top - 1) then
      Reader.malformed .integerTooLarge
    else pure (Leb128.signExtend7 b.toNat)) := by
  refine eq_byte_bind (fun w pos h => ?_) fun w pos b h => ?_
  · rw [signedReader, Leb128.signedGroups, h]
  · rw [signedReader, Leb128.signedGroups]
    simp only [h, ite_run]
    rfl

theorem signedReader_succ (top more : Nat) : signedReader top (more + 1) = (do
    let b ← Reader.byte
    if Leb128.continuation ≤ b.toNat then
      let rest ← signedReader top more
      pure ((b.toNat - Leb128.continuation : Nat) + 128 * rest)
    else pure (Leb128.signExtend7 b.toNat)) := by
  refine eq_byte_bind (fun w pos h => ?_) fun w pos b h => ?_
  · rw [signedReader, Leb128.signedGroups, h]
  · rw [signedReader, Leb128.signedGroups]
    simp only [h, ite_run]
    congr 1
    change _ = (Leb128.signedGroups w top more (pos + 1) >>= fun x => _)
    split
    · next hr => rw [hr]; rfl
    · next hr => rw [hr]; rfl

theorem follows_unsignedGroups (top more : Nat) :
    Follows (unsignedGroups top more) (unsignedReader top more) w pos fun _ _ => True := by
  induction more generalizing pos with
  | zero =>
    rw [unsignedReader_zero]
    refine follows_byte.bind fun b _ _ _ => ?_
    exact .ite (fun _ => follows_malformed _) fun _ => .ite (fun _ => follows_malformed _)
      fun _ => follows_pure trivial
  | succ more ih =>
    rw [unsignedReader_succ]
    refine follows_byte.bind fun b _ _ _ => ?_
    exact .ite (fun _ => ih.bind fun _ _ _ _ => follows_pure trivial) fun _ => follows_pure trivial

theorem follows_signedGroups {top : Nat} (htop : 1 ≤ top) (more : Nat) :
    Follows (signedGroups top more) (signedReader top more) w pos fun _ _ => True := by
  induction more generalizing pos with
  | zero =>
    rw [signedReader_zero]
    refine follows_byte.bind fun b _ _ _ => ?_
    simp only [difference_eq htop, pure_bind]
    exact .ite (fun _ => follows_malformed _) fun _ => .ite (fun _ => follows_malformed _)
      fun _ => follows_pure trivial
  | succ more ih =>
    rw [signedReader_succ]
    refine follows_byte.bind fun b _ _ _ => ?_
    exact .ite (fun _ => ih.bind fun _ _ _ _ => follows_pure trivial) fun _ => follows_pure trivial

theorem follows_unsigned {bits : Nat} (h : 0 < bits) :
    Follows (unsigned bits) (Reader.unsigned bits) w pos fun _ _ => True := by
  have hle : 7 * ((bits - 1) / 7) ≤ bits := by omega
  rw [unsigned, difference_eq h, pure_bind, difference_eq hle, pure_bind]
  exact follows_unsignedGroups _ _

theorem follows_signed {bits : Nat} (h : 0 < bits) :
    Follows (signed bits) (Reader.signed bits) w pos fun _ _ => True := by
  have hle : 7 * ((bits - 1) / 7) ≤ bits := by omega
  rw [signed, difference_eq h, pure_bind, difference_eq hle, pure_bind]
  exact follows_signedGroups (by omega) _

/-- A count or length has 32 bits. -/
theorem follows_u32 : Follows u32 Reader.u32 w pos fun n _ => n < 2 ^ 32 := by
  refine .of_isSlice fun hw _ => (follows_unsigned (by decide)).of_true fun n next h => ?_
  obtain ⟨_, _, hn⟩ := (Reader.accepts_u32 hw.stop_le).1 h
  exact hn.lt

theorem follows_valType : Follows valType Reader.valType w pos fun _ _ => True := by
  refine follows_byte.bind fun b _ _ _ => ?_
  cases ValType.ofByte? b with
  | some t => exact follows_pure trivial
  | none => exact follows_malformed _

theorem follows_slice {start stop : Nat} (h : start ≤ stop) (hstop : stop ≤ w.stop) :
    Follows (slice start stop) ((fun w => (w.bytes.extract start stop).toList) <$> read) w pos
      fun _ _ => True := fun _ hpos =>
  { eq := runAt_slice h hstop
    moves := Reader.ensures_map.2 (Reader.ensures_read.2 ⟨⟨Nat.le_refl pos, hpos⟩, trivial⟩)
    rejects := fun e he => by cases he }

theorem follows_name : Follows name Reader.name w pos fun _ _ => True := by
  have hname : Reader.name = (do
      let n ← Reader.u32
      let start ← Reader.skip n
      let text ← (fun w : Window => (w.bytes.extract start (start + n)).toList) <$> read
      match Utf8.decode? text with
      | some text => pure text
      | none => Reader.malformed .invalidUtf8) := rfl
  rw [hname]
  refine follows_u32.bind fun n mid _ _ => (follows_skip n).bind fun start next _ h => ?_
  obtain ⟨rfl, rfl⟩ := h
  refine .of_isSlice fun _ hpos => (follows_slice (Nat.le_add_right ..) hpos).bind
    fun text _ _ _ => ?_
  cases Utf8.decode? text with
  | some text => exact follows_pure trivial
  | none => exact follows_malformed _

end Guarded

end WasmEngine
