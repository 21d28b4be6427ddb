import WasmEngine.Proofs.Leb128.Format
import WasmEngine.Reader

/-!
# Proofs/Reader — when the primitive readers succeed

For each primitive, the runs of bytes on which it succeeds and what it yields there.  Readers are
compared with a format by `Reader.Accepts`: the reader succeeds exactly on the runs that the format
gives to its result.
-/

namespace WasmEngine.Reader

variable {α β : Type} {w : Window} {pos next : Nat}

theorem pure_eq_ok_iff {a b : α} :
    (pure a : Reader α) w pos = .ok (b, next) ↔ a = b ∧ pos = next := by
  change Except.ok (a, pos) = _ ↔ _
  simp

/-- A reader goes on from where the one before it ended. -/
theorem bind_of_eq_ok {r : Reader α} {f : α → Reader β} {a : α} (h : r w pos = .ok (a, next)) :
    (r >>= f) w pos = f a w next := by
  change (r w pos >>= fun x => f x.1 w x.2) = _
  rw [h]
  rfl

/-- Nothing is read behind a failure. -/
theorem bind_of_eq_error {r : Reader α} {f : α → Reader β} {e : Error}
    (h : r w pos = .error e) : (r >>= f) w pos = .error e := by
  change (r w pos >>= fun x => f x.1 w x.2) = _
  rw [h]
  rfl

/-- A mapped reader ends where the reader does. -/
theorem map_eq_ok_iff {f : α → β} {r : Reader α} {b : β} :
    (f <$> r) w pos = .ok (b, next) ↔ ∃ a, r w pos = .ok (a, next) ∧ f a = b := by
  rw [map_eq_pure_bind, bind_eq_ok_iff]
  simp only [pure_eq_ok_iff]
  constructor
  · rintro ⟨a, mid, h, hb, rfl⟩
    exact ⟨a, h, hb⟩
  · rintro ⟨a, h, hb⟩
    exact ⟨a, next, h, hb, rfl⟩

/-- Whoever finds a module malformed reads no further. -/
theorem malformed_ne_ok {cause : Malformation} {x : α × Nat} :
    (malformed cause : Reader α) w pos ≠ .ok x := nofun

/-- Whoever finds a module invalid reads no further. -/
theorem invalid_ne_ok {cause : Violation} {x : α × Nat} :
    (invalid cause : Reader α) w pos ≠ .ok x := nofun

/-- To ask for the position reads nothing. -/
theorem position_eq_ok_iff {a : Nat} : position w pos = .ok (a, next) ↔ pos = a ∧ pos = next := by
  change Except.ok (pos, pos) = _ ↔ _
  simp

theorem window_eq_ok_iff {v : Window} :
    (read : Reader Window) w pos = .ok (v, next) ↔ w = v ∧ pos = next := by
  change Except.ok (w, pos) = _ ↔ _
  simp

/-- A byte is read if it is in the window, and only it. -/
theorem byte_eq_ok_iff {b : UInt8} :
    byte w pos = .ok (b, next) ↔ w.get? pos = some b ∧ next = pos + 1 := by
  unfold byte
  cases h : w.get? pos with
  | none => simp
  | some c => simp [eq_comm]

/-- A byte that is looked at stays to be read. -/
theorem peek_eq_ok_iff {b : UInt8} :
    peek w pos = .ok (b, next) ↔ w.get? pos = some b ∧ next = pos := by
  unfold peek
  cases h : w.get? pos with
  | none => simp
  | some c => simp [eq_comm]

/-- Skipping yields where it started, and does not leave the window. -/
theorem skip_eq_ok_iff {n start : Nat} :
    skip n w pos = .ok (start, next) ↔ start = pos ∧ next = pos + n ∧ next ≤ w.stop := by
  unfold skip
  split
  · simp only [Except.ok.injEq, Prod.mk.injEq]
    omega
  · simp only [reduceCtorEq, false_iff]
    omega

/-- A reader succeeds exactly on the runs of bytes that a format gives to its result.  The window
must not reach past the bytes. -/
def Accepts (r : Reader α) (format : α → List UInt8 → Prop) : Prop :=
  ∀ ⦃w pos a next⦄, w.stop ≤ w.bytes.size →
    (r w pos = .ok (a, next) ↔ ∃ bs, w.Spells pos bs next ∧ format a bs)

/-- Unsigned numbers are read from their LEB128 spellings, redundant ones included. -/
theorem accepts_unsigned {bits : Nat} (h : 0 < bits) :
    Accepts (unsigned bits) (Leb128.EncodesUnsigned bits) := by
  intro w pos v next _
  exact Leb128.readUnsigned_eq_ok_iff h

theorem accepts_u32 : Accepts u32 (Leb128.EncodesUnsigned 32) := accepts_unsigned (by decide)

/-- Signed numbers are read from their LEB128 spellings, redundant ones included. -/
theorem accepts_signed {bits : Nat} (h : 0 < bits) :
    Accepts (signed bits) (Leb128.EncodesSigned bits) := by
  intro w pos v next _
  exact Leb128.readSigned_eq_ok_iff h

/-- A reader that reads nothing accepts the empty run. -/
theorem accepts_pure (a : α) : Accepts (pure a) fun b bs => b = a ∧ bs = [] := by
  intro w pos b next _
  rw [pure_eq_ok_iff]
  constructor
  · rintro ⟨rfl, rfl⟩
    exact ⟨[], rfl, rfl, rfl⟩
  · rintro ⟨bs, hs, rfl, rfl⟩
    exact ⟨rfl, hs.symm⟩

/-- A reader that goes on with another reads a run of each. -/
theorem Accepts.bind {r : Reader α} {f : α → Reader β} {F : α → List UInt8 → Prop}
    {G : α → β → List UInt8 → Prop} (hr : Accepts r F) (hf : ∀ a, Accepts (f a) (G a)) :
    Accepts (r >>= f) fun b bs => ∃ a b₁ b₂, bs = b₁ ++ b₂ ∧ F a b₁ ∧ G a b b₂ := by
  intro w pos b next hw
  rw [bind_eq_ok_iff]
  constructor
  · rintro ⟨a, mid, h₁, h₂⟩
    obtain ⟨b₁, hs₁, hF⟩ := (hr hw).1 h₁
    obtain ⟨b₂, hs₂, hG⟩ := (hf a hw).1 h₂
    exact ⟨b₁ ++ b₂, Window.spells_append.2 ⟨mid, hs₁, hs₂⟩, a, b₁, b₂, rfl, hF, hG⟩
  · rintro ⟨_, hs, a, b₁, b₂, rfl, hF, hG⟩
    obtain ⟨mid, hs₁, hs₂⟩ := Window.spells_append.1 hs
    exact ⟨a, mid, (hr hw).2 ⟨b₁, hs₁, hF⟩, (hf a hw).2 ⟨b₂, hs₂, hG⟩⟩

/-- A format may be told in another way. -/
theorem Accepts.congr {r : Reader α} {F G : α → List UInt8 → Prop} (hr : Accepts r F)
    (h : ∀ a bs, F a bs ↔ G a bs) : Accepts r G := by
  intro w pos a next hw
  rw [hr hw]
  simp only [h]

end WasmEngine.Reader
