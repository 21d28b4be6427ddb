import WasmEngine.Proofs.Reader

/-!
# Proofs/Decode/Ensures — what holds after a reader

`Reader.Ensures r w pos Q` says that `Q` holds of the result and of the end of every run of `r` from
`pos` that succeeds.  One rule for each way to build a reader turns such a statement into one about
its parts; `ensures_iterate` is the rule of loops.
-/

namespace WasmEngine.Reader

variable {α β : Type} {w : Window} {pos : Nat}

/-- Whenever the reader succeeds, `Q` holds of its result and of the position behind it. -/
def Ensures (r : Reader α) (w : Window) (pos : Nat) (Q : α → Nat → Prop) : Prop :=
  ∀ ⦃a next⦄, r w pos = .ok (a, next) → Q a next

/-- A weaker promise is kept with the stronger one. -/
theorem Ensures.mono {r : Reader α} {Q R : α → Nat → Prop} (h : r.Ensures w pos Q)
    (hQ : ∀ a next, Q a next → R a next) : r.Ensures w pos R := fun _ _ hr => hQ _ _ (h hr)

@[simp] theorem ensures_true (r : Reader α) : r.Ensures w pos fun _ _ => True :=
  fun _ _ _ => trivial

/-- What holds whatever a reader yields. -/
theorem ensures_of_forall {r : Reader α} {Q : α → Nat → Prop} (h : ∀ a next, Q a next) :
    r.Ensures w pos Q := fun a next _ => h a next

/-- A reader after which `P` holds, and one that can go on from there. -/
theorem Ensures.andThen {r : Reader α} {f : α → Reader β} {P : α → Nat → Prop}
    {Q : β → Nat → Prop} (h : r.Ensures w pos P) (hf : ∀ a mid, P a mid → (f a).Ensures w mid Q) :
    (r >>= f).Ensures w pos Q := by
  intro b next hb
  obtain ⟨a, mid, hr, hfb⟩ := bind_eq_ok_iff.1 hb
  exact hf a mid (h hr) hfb

/-- What the second reader promises, the first one promises of where the second starts. -/
@[simp] theorem ensures_bind {r : Reader α} {f : α → Reader β} {Q : β → Nat → Prop} :
    (r >>= f).Ensures w pos Q ↔ r.Ensures w pos fun a mid => (f a).Ensures w mid Q := by
  constructor
  · exact fun h a mid hr b next hf => h (bind_eq_ok_iff.2 ⟨a, mid, hr, hf⟩)
  · intro h b next hb
    obtain ⟨a, mid, hr, hf⟩ := bind_eq_ok_iff.1 hb
    exact h hr hf

/-- A result is promised for the position where it is. -/
@[simp] theorem ensures_pure {a : α} {Q : α → Nat → Prop} :
    (pure a : Reader α).Ensures w pos Q ↔ Q a pos := by
  constructor
  · exact fun h => h (pure_eq_ok_iff.2 ⟨rfl, rfl⟩)
  · intro h b next hb
    obtain ⟨rfl, rfl⟩ := pure_eq_ok_iff.1 hb
    exact h

@[simp] theorem ensures_map {f : α → β} {r : Reader α} {Q : β → Nat → Prop} :
    (f <$> r).Ensures w pos Q ↔ r.Ensures w pos fun a => Q (f a) := by
  rw [map_eq_pure_bind, ensures_bind]
  simp only [ensures_pure]

/-- Who fails has promised nothing. -/
@[simp] theorem ensures_malformed {cause : Malformation} {Q : α → Nat → Prop} :
    (malformed cause : Reader α).Ensures w pos Q := fun _ _ h => absurd h malformed_ne_ok

@[simp] theorem ensures_invalid {cause : Violation} {Q : α → Nat → Prop} :
    (invalid cause : Reader α).Ensures w pos Q := fun _ _ h => absurd h invalid_ne_ok

/-- Either branch keeps the promise. -/
@[simp] theorem ensures_ite {c : Prop} [Decidable c] {r s : Reader α} {Q : α → Nat → Prop} :
    (if c then r else s).Ensures w pos Q ↔ (c → r.Ensures w pos Q) ∧ (¬c → s.Ensures w pos Q) := by
  by_cases hc : c <;> simp [hc]

@[simp] theorem ensures_position {Q : Nat → Nat → Prop} :
    position.Ensures w pos Q ↔ Q pos pos := by
  constructor
  · exact fun h => h (position_eq_ok_iff.2 ⟨rfl, rfl⟩)
  · intro h a next ha
    obtain ⟨rfl, rfl⟩ := position_eq_ok_iff.1 ha
    exact h

@[simp] theorem ensures_read {Q : Window → Nat → Prop} :
    (read : Reader Window).Ensures w pos Q ↔ Q w pos := by
  constructor
  · exact fun h => h (window_eq_ok_iff.2 ⟨rfl, rfl⟩)
  · intro h a next ha
    obtain ⟨rfl, rfl⟩ := window_eq_ok_iff.1 ha
    exact h

@[simp] theorem ensures_seek {target : Nat} {Q : Unit → Nat → Prop} :
    (seek target).Ensures w pos Q ↔ Q () target := by
  constructor
  · exact fun h => h rfl
  · intro h a next ha
    obtain rfl : target = next := congrArg Prod.snd (Except.ok.inj ha)
    exact h

/-- That so many bytes are left is known behind the check. -/
@[simp] theorem ensures_require {n : Nat} {Q : Unit → Nat → Prop} :
    (require n).Ensures w pos Q ↔ (pos + n ≤ w.stop → Q () pos) := by
  constructor
  · exact fun h hn => h (by simp [require, hn])
  · intro h a next ha
    by_cases hn : pos + n ≤ w.stop
    · obtain rfl : pos = next := by simpa [require, hn] using ha
      exact h hn
    · simp [require, hn] at ha

@[simp] theorem ensures_peek? {Q : Option UInt8 → Nat → Prop} :
    peek?.Ensures w pos Q ↔ Q (w.get? pos) pos := by
  constructor
  · exact fun h => h rfl
  · intro h a next ha
    obtain ⟨rfl, rfl⟩ := Prod.mk.inj (Except.ok.inj ha)
    exact h

/-- Inside a narrower window the promise is about that window. -/
@[simp] theorem ensures_within {stop : Nat} {r : Reader α} {Q : α → Nat → Prop} :
    (within stop r).Ensures w pos Q ↔ r.Ensures { w with stop } pos Q := Iff.rfl

/-- **The rule of loops**: what every turn preserves holds at the end. -/
theorem ensures_iterate {step : β → Reader β} {I : β → Nat → Prop}
    (h : ∀ b pos, I b pos → (step b).Ensures w pos I) (n : Nat) {b : β} (hb : I b pos) :
    (iterate n step b).Ensures w pos I := by
  induction n generalizing b pos with
  | zero => exact ensures_pure.2 hb
  | succ n ih => exact ensures_bind.2 ((h b pos hb).mono fun b' _ hb' => ih hb')

/-- What each item keeps holds of all of them. -/
theorem ensures_replicate {item : Reader α} {P : α → Prop}
    (h : ∀ pos, item.Ensures w pos fun a _ => P a) (n : Nat) :
    (replicate n item).Ensures w pos fun as _ => ∀ a ∈ as, P a := by
  induction n generalizing pos with
  | zero => exact ensures_pure.2 nofun
  | succ n ih =>
    refine ensures_bind.2 ((h pos).mono fun a _ ha => ensures_bind.2 (ih.mono fun as _ has => ?_))
    exact ensures_pure.2 (List.forall_mem_cons.2 ⟨ha, has⟩)

/-! ## Where a reader ends -/

/-- A byte is one of the window. -/
theorem ensures_byte {Q : UInt8 → Nat → Prop} :
    byte.Ensures w pos Q ↔ ∀ b, w.get? pos = some b → Q b (pos + 1) := by
  constructor
  · exact fun h b hb => h (byte_eq_ok_iff.2 ⟨hb, rfl⟩)
  · intro h b next hb
    obtain ⟨hget, rfl⟩ := byte_eq_ok_iff.1 hb
    exact h b hget

/-- A number ends behind the place where it starts, and inside the window. -/
theorem ensures_u32 (hw : w.stop ≤ w.bytes.size) :
    u32.Ensures w pos fun _ next => pos ≤ next ∧ next ≤ w.stop := by
  intro a next h
  obtain ⟨bs, hs, hbs⟩ := (accepts_u32 hw).1 h
  obtain ⟨b, bs, rfl⟩ := List.exists_cons_of_ne_nil hbs.isGroups.ne_nil
  have hpos : pos < w.stop := (Window.get?_eq_some_iff.1 hs.1).1
  exact ⟨hs.stop_eq ▸ Nat.le_add_right .., hs.stop_le (Nat.le_of_lt hpos)⟩

/-- A value type is read inside the window. -/
theorem ensures_valType : valType.Ensures w pos fun _ next => pos ≤ next ∧ next ≤ w.stop := by
  simp only [valType, ensures_bind, ensures_byte]
  intro b hb
  have hpos : pos < w.stop := (Window.get?_eq_some_iff.1 hb).1
  split
  · exact ensures_pure.2 ⟨Nat.le_succ pos, hpos⟩
  · exact ensures_malformed

end WasmEngine.Reader
