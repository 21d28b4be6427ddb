import Mathlib.Algebra.Group.Int.Defs
import Mathlib.Algebra.Group.Nat.Defs
import WasmEngine.Leb128

/-!
# Proofs/Leb128/Format — the checked readers accept exactly the format

A LEB128 integer is written as a list of bytes of seven bits each, of which all but the last have
their top bit set (`IsGroups`).  `EncodesUnsigned` and `EncodesSigned` say which lists write a number
of a width, padded ones included.  The readers accept exactly these: `readUnsigned_eq_ok_iff`,
`readSigned_eq_ok_iff`.
-/

namespace WasmEngine

/-! ## Runs of bytes in a window -/

/-- The bytes of a window from `pos` up to `stop` are `bs`. -/
def Window.Spells (w : Window) : (pos : Nat) → List UInt8 → (stop : Nat) → Prop
  | pos, [], stop => stop = pos
  | pos, b :: bs, stop => w.get? pos = some b ∧ w.Spells (pos + 1) bs stop

namespace Window

variable {w : Window}

theorem spells_cons {pos stop : Nat} {b : UInt8} {bs : List UInt8} :
    w.Spells pos (b :: bs) stop ↔ w.get? pos = some b ∧ w.Spells (pos + 1) bs stop := Iff.rfl

@[simp] theorem spells_nil {pos stop : Nat} : w.Spells pos [] stop ↔ stop = pos := Iff.rfl

@[simp] theorem spells_singleton {pos stop : Nat} {b : UInt8} :
    w.Spells pos [b] stop ↔ w.get? pos = some b ∧ stop = pos + 1 := Iff.rfl

/-- **A run splits wherever its list does.** -/
theorem spells_append {pos stop : Nat} {as bs : List UInt8} :
    w.Spells pos (as ++ bs) stop ↔ ∃ mid, w.Spells pos as mid ∧ w.Spells mid bs stop := by
  induction as generalizing pos with
  | nil => simp
  | cons a as ih => simp only [List.cons_append, spells_cons, ih]; grind

theorem Spells.stop_eq {pos stop : Nat} {bs : List UInt8} (h : w.Spells pos bs stop) :
    stop = pos + bs.length := by
  induction bs generalizing pos with
  | nil => simpa using h
  | cons b bs ih =>
    rw [ih h.2, List.length_cons]
    omega

/-- The list that a run spells is determined by its two ends. -/
theorem Spells.unique {pos stop : Nat} {as bs : List UInt8} (ha : w.Spells pos as stop)
    (hb : w.Spells pos bs stop) : as = bs := by
  induction as generalizing pos bs with
  | nil =>
    have h₁ := ha.stop_eq
    have h₂ := hb.stop_eq
    rw [List.length_nil] at h₁
    exact (List.length_eq_zero_iff.1 (by omega)).symm
  | cons a as ih =>
    cases bs with
    | nil =>
      have h₁ := ha.stop_eq
      have h₂ := hb.stop_eq
      rw [List.length_cons] at h₁
      rw [List.length_nil] at h₂
      omega
    | cons b bs =>
      obtain rfl : a = b := Option.some.inj (ha.1.symm.trans hb.1)
      rw [ih ha.2 hb.2]

theorem get?_eq_some_iff {pos : Nat} {b : UInt8} :
    w.get? pos = some b ↔ pos < w.stop ∧ w.bytes[pos]? = some b := by
  unfold get?
  split
  · next h => simp [h]
  · next h => simp [h]

/-- A run lies in the window, unless it is empty. -/
theorem Spells.stop_le {pos stop : Nat} {bs : List UInt8} (h : w.Spells pos bs stop)
    (hp : pos ≤ w.stop) : stop ≤ w.stop := by
  induction bs generalizing pos with
  | nil =>
    obtain rfl : stop = pos := h
    exact hp
  | cons b bs ih => exact ih h.2 (get?_eq_some_iff.1 h.1).1

/-- A window that is cut later, or not at all, spells the same runs and more. -/
theorem Spells.mono {v : Window} {pos stop : Nat} {bs : List UInt8}
    (hv : ∀ p b, w.get? p = some b → v.get? p = some b) (h : w.Spells pos bs stop) :
    v.Spells pos bs stop := by
  induction bs generalizing pos with
  | nil => exact h
  | cons b bs ih => exact ⟨hv _ _ h.1, ih h.2⟩

end Window

namespace Leb128

/-! ## The format -/

/-- Groups of seven bits: the top bit is set in all bytes but the last. -/
def IsGroups : List UInt8 → Prop
  | [] => False
  | [b] => b.toNat < continuation
  | b :: bs => continuation ≤ b.toNat ∧ IsGroups bs

/-- The unsigned number in groups of seven bits, the least significant first. -/
def unsignedValue : List UInt8 → Nat
  | [] => 0
  | b :: bs => b.toNat % 128 + 128 * unsignedValue bs

/-- The number in groups of seven bits in two's complement. -/
def signedValue : List UInt8 → Int
  | [] => 0
  | [b] => signExtend7 (b.toNat % 128)
  | b :: bs => (b.toNat % 128 : Nat) + 128 * signedValue bs

/-- The greatest number of bytes of a number of `bits` bits. -/
def maxLength (bits : Nat) : Nat := (bits + 6) / 7

/-- `bs` writes the unsigned number `v` of `bits` bits. -/
structure EncodesUnsigned (bits v : Nat) (bs : List UInt8) : Prop where
  isGroups : IsGroups bs
  length_le : bs.length ≤ maxLength bits
  value_eq : unsignedValue bs = v
  lt : v < 2 ^ bits

/-- `bs` writes the signed number `v` of `bits` bits. -/
structure EncodesSigned (bits : Nat) (v : Int) (bs : List UInt8) : Prop where
  isGroups : IsGroups bs
  length_le : bs.length ≤ maxLength bits
  value_eq : signedValue bs = v
  ge : -2 ^ (bits - 1) ≤ v
  lt : v < 2 ^ (bits - 1)

theorem isGroups_singleton {b : UInt8} : IsGroups [b] ↔ b.toNat < continuation := Iff.rfl

/-- Groups begin with the last byte, or with a byte that says that more follow. -/
theorem isGroups_cons {b : UInt8} {bs : List UInt8} :
    IsGroups (b :: bs) ↔
      (b.toNat < continuation ∧ bs = []) ∨ (continuation ≤ b.toNat ∧ IsGroups bs) := by
  cases bs with
  | nil => simp [IsGroups]
  | cons c cs => simp [IsGroups]

theorem IsGroups.ne_nil {bs : List UInt8} (h : IsGroups bs) : bs ≠ [] := by
  rintro rfl
  exact h

theorem signedValue_cons {b : UInt8} {bs : List UInt8} (h : bs ≠ []) :
    signedValue (b :: bs) = (b.toNat % 128 : Nat) + 128 * signedValue bs := by
  cases bs with
  | nil => exact absurd rfl h
  | cons c cs => rfl

theorem IsGroups.length_pos {bs : List UInt8} (h : IsGroups bs) : 0 < bs.length :=
  List.length_pos_iff.2 h.ne_nil

variable {w : Window} {top more pos next : Nat} {b : UInt8} {bs : List UInt8}

/-- Groups from a position on are its byte, if that is the last one, or its byte and the groups
behind it. -/
theorem exists_groups_iff {P : List UInt8 → Prop} :
    (∃ bs, w.Spells pos bs next ∧ IsGroups bs ∧ P bs) ↔
      ∃ b, w.get? pos = some b ∧
        ((b.toNat < continuation ∧ pos + 1 = next ∧ P [b]) ∨
          (continuation ≤ b.toNat ∧
            ∃ bs, w.Spells (pos + 1) bs next ∧ IsGroups bs ∧ P (b :: bs))) := by
  constructor
  · rintro ⟨bs, hs, hg, hp⟩
    obtain ⟨b, bs, rfl⟩ := List.exists_cons_of_ne_nil hg.ne_nil
    obtain ⟨hb, hs⟩ := hs
    rcases isGroups_cons.1 hg with ⟨hlast, rfl⟩ | ⟨hmore, hg⟩
    · exact ⟨b, hb, .inl ⟨hlast, hs.symm, hp⟩⟩
    · exact ⟨b, hb, .inr ⟨hmore, bs, hs, hg, hp⟩⟩
  · rintro ⟨b, hb, ⟨hlast, rfl, hp⟩ | ⟨hmore, bs, hs, hg, hp⟩⟩
    · exact ⟨[b], ⟨hb, rfl⟩, hlast, hp⟩
    · exact ⟨b :: bs, ⟨hb, hs⟩, isGroups_cons.2 (.inr ⟨hmore, hg⟩), hp⟩

/-! ## Unsigned numbers -/

theorem unsignedValue_singleton (h : b.toNat < continuation) : unsignedValue [b] = b.toNat := by
  rw [unsignedValue, unsignedValue, Nat.mod_eq_of_lt h]
  rfl

theorem unsignedValue_cons (h : continuation ≤ b.toNat) :
    unsignedValue (b :: bs) = b.toNat - continuation + 128 * unsignedValue bs := by
  have hcont : continuation = 128 := rfl
  have hlt := b.toNat_lt
  rw [unsignedValue]
  omega

theorem unsignedGroups_zero_eq_ok_iff {v : Nat} :
    unsignedGroups w top 0 pos = .ok (v, next) ↔
      ∃ b, w.get? pos = some b ∧ b.toNat < continuation ∧ b.toNat < 2 ^ top ∧ b.toNat = v ∧
        pos + 1 = next := by
  rw [unsignedGroups, Nat.one_shiftLeft]
  cases hb : w.get? pos <;> grind

theorem unsignedGroups_succ_eq_ok_iff {v : Nat} :
    unsignedGroups w top (more + 1) pos = .ok (v, next) ↔
      ∃ b, w.get? pos = some b ∧
        ((b.toNat < continuation ∧ pos + 1 = next ∧ b.toNat = v) ∨
          (continuation ≤ b.toNat ∧ ∃ rest, unsignedGroups w top more (pos + 1) = .ok (rest, next) ∧
            b.toNat - continuation + 128 * rest = v)) := by
  rw [unsignedGroups]
  cases hb : w.get? pos <;> grind

theorem unsignedGroups_eq_ok_iff {v : Nat} :
    unsignedGroups w top more pos = .ok (v, next) ↔
      ∃ bs, w.Spells pos bs next ∧ IsGroups bs ∧ bs.length ≤ more + 1 ∧ unsignedValue bs = v ∧
        v < 2 ^ (7 * more + top) := by
  -- The recursion peels off the first byte, so the list of bytes grows at its front.
  induction more generalizing pos v with
  | zero =>
    rw [unsignedGroups_zero_eq_ok_iff, exists_groups_iff]
    simp only [Nat.mul_zero, Nat.zero_add]
    refine exists_congr fun b => and_congr_right fun _ => ⟨?_, ?_⟩
    · rintro ⟨hlast, hlt, rfl, hnext⟩
      exact .inl ⟨hlast, hnext, Nat.le_refl 1, unsignedValue_singleton hlast, hlt⟩
    · rintro (⟨hlast, hnext, -, rfl, hlt⟩ | ⟨-, bs, -, hg, hl, -⟩)
      · rw [unsignedValue_singleton hlast] at hlt ⊢
        exact ⟨hlast, hlt, rfl, hnext⟩
      · exact absurd hg.length_pos (Nat.not_lt.2 (Nat.le_of_succ_le_succ hl))
  | succ more ih =>
    have hpow : 2 ^ (7 * (more + 1) + top) = 128 * 2 ^ (7 * more + top) := by
      rw [show 7 * (more + 1) + top = 7 + (7 * more + top) by omega, Nat.pow_add]
    have hcont : continuation = 128 := rfl
    have hpos : 0 < 2 ^ (7 * more + top) := Nat.two_pow_pos _
    rw [unsignedGroups_succ_eq_ok_iff, exists_groups_iff, hpow]
    refine exists_congr fun b => and_congr_right fun _ => or_congr ?_ ?_
    · refine and_congr_right fun hlast => and_congr_right fun _ => ?_
      rw [unsignedValue_singleton hlast]
      constructor
      · rintro rfl
        exact ⟨Nat.succ_le_succ (Nat.zero_le _), rfl, by omega⟩
      · rintro ⟨-, hv, -⟩
        exact hv
    · have hbyte := b.toNat_lt
      refine and_congr_right fun hmore => ⟨?_, ?_⟩
      · rintro ⟨rest, hr, rfl⟩
        obtain ⟨bs, hs, hg, hl, rfl, hlt⟩ := ih.1 hr
        exact ⟨bs, hs, hg, Nat.succ_le_succ hl, unsignedValue_cons hmore, by omega⟩
      · rintro ⟨bs, hs, hg, hl, rfl, hlt⟩
        rw [unsignedValue_cons hmore] at hlt ⊢
        exact ⟨_, ih.2 ⟨bs, hs, hg, Nat.le_of_succ_le_succ hl, rfl, by omega⟩, rfl⟩

/-- The bits of the last byte that a number of `bits` bits may use, beside seven for each byte
before it. -/
theorem bits_eq {bits : Nat} (h : 0 < bits) :
    7 * ((bits - 1) / 7) + (bits - 7 * ((bits - 1) / 7)) = bits ∧
      bits - 7 * ((bits - 1) / 7) ≤ 7 ∧ 0 < bits - 7 * ((bits - 1) / 7) ∧
      (bits - 1) / 7 + 1 = maxLength bits := by
  unfold maxLength
  omega

/-- **The unsigned reader accepts exactly the encodings of its width.** -/
theorem readUnsigned_eq_ok_iff {bits : Nat} (hbits : 0 < bits) {w : Window} {pos v next : Nat} :
    readUnsigned bits w pos = .ok (v, next) ↔
      ∃ bs, w.Spells pos bs next ∧ EncodesUnsigned bits v bs := by
  obtain ⟨h1, -, -, h4⟩ := bits_eq hbits
  rw [readUnsigned, unsignedGroups_eq_ok_iff, h1, h4]
  constructor
  · rintro ⟨bs, hs, hg, hl, hv, hlt⟩
    exact ⟨bs, hs, hg, hl, hv, hlt⟩
  · rintro ⟨bs, hs, hg, hl, hv, hlt⟩
    exact ⟨bs, hs, hg, hl, hv, hlt⟩

/-! ## Signed numbers -/

theorem signExtend7_bounds {b : Nat} (h : b < 128) :
    -64 ≤ signExtend7 b ∧ signExtend7 b < 64 := by
  unfold signExtend7
  split <;> omega

/-- The last byte of a signed number of `top` more bits: its unused bits repeat the sign exactly if
its value is in range. -/
theorem topBits_iff {b top : Nat} (hb : b < 128) (htop : top ≤ 7) (hpos : 0 < top) :
    (b / 2 ^ (top - 1) = 0 ∨ b / 2 ^ (top - 1) = 0x7f / 2 ^ (top - 1)) ↔
      -2 ^ (top - 1) ≤ signExtend7 b ∧ signExtend7 b < 2 ^ (top - 1) := by
  obtain rfl | rfl | rfl | rfl | rfl | rfl | rfl :
      top = 1 ∨ top = 2 ∨ top = 3 ∨ top = 4 ∨ top = 5 ∨ top = 6 ∨ top = 7 := by omega
  all_goals unfold signExtend7; split <;> simp <;> omega

theorem signedValue_singleton (h : b.toNat < continuation) :
    signedValue [b] = signExtend7 b.toNat := by
  rw [signedValue, Nat.mod_eq_of_lt h]

theorem signedValue_cons_of_le (h : continuation ≤ b.toNat) (hbs : bs ≠ []) :
    signedValue (b :: bs) = (b.toNat - continuation : Nat) + 128 * signedValue bs := by
  have hcont : continuation = 128 := rfl
  have hlt := b.toNat_lt
  rw [signedValue_cons hbs]
  omega

theorem signedGroups_zero_eq_ok_iff {v : Int} (htop : top ≤ 7) (hpos : 0 < top) :
    signedGroups w top 0 pos = .ok (v, next) ↔
      ∃ b, w.get? pos = some b ∧ b.toNat < continuation ∧ signExtend7 b.toNat = v ∧
        (-2 ^ (top - 1) ≤ v ∧ v < 2 ^ (top - 1)) ∧ pos + 1 = next := by
  rw [signedGroups]
  cases hb : w.get? pos with
  | none => grind
  | some b =>
    have htops (h : b.toNat < 128) := topBits_iff h htop hpos
    simp only [Nat.shiftRight_eq_div_pow]
    grind

theorem signedGroups_succ_eq_ok_iff {v : Int} :
    signedGroups w top (more + 1) pos = .ok (v, next) ↔
      ∃ b, w.get? pos = some b ∧
        ((b.toNat < continuation ∧ pos + 1 = next ∧ signExtend7 b.toNat = v) ∨
          (continuation ≤ b.toNat ∧ ∃ rest, signedGroups w top more (pos + 1) = .ok (rest, next) ∧
            ((b.toNat - continuation : Nat) : Int) + 128 * rest = v)) := by
  rw [signedGroups]
  cases hb : w.get? pos <;> grind

theorem signedGroups_eq_ok_iff {v : Int} (htop : top ≤ 7) (hpos : 0 < top) :
    signedGroups w top more pos = .ok (v, next) ↔
      ∃ bs, w.Spells pos bs next ∧ IsGroups bs ∧ bs.length ≤ more + 1 ∧ signedValue bs = v ∧
        -2 ^ (7 * more + top - 1) ≤ v ∧ v < 2 ^ (7 * more + top - 1) := by
  induction more generalizing pos v with
  | zero =>
    rw [signedGroups_zero_eq_ok_iff htop hpos, exists_groups_iff]
    simp only [Nat.mul_zero, Nat.zero_add]
    refine exists_congr fun b => and_congr_right fun _ => ⟨?_, ?_⟩
    · rintro ⟨hlast, rfl, hrange, hnext⟩
      exact .inl ⟨hlast, hnext, Nat.le_refl 1, signedValue_singleton hlast, hrange⟩
    · rintro (⟨hlast, hnext, -, rfl, hrange⟩ | ⟨-, bs, -, hg, hl, -⟩)
      · rw [signedValue_singleton hlast] at hrange ⊢
        exact ⟨hlast, rfl, hrange, hnext⟩
      · exact absurd hg.length_pos (Nat.not_lt.2 (Nat.le_of_succ_le_succ hl))
  | succ more ih =>
    have hpow : (2 : Int) ^ (7 * (more + 1) + top - 1) = 128 * 2 ^ (7 * more + top - 1) := by
      rw [show 7 * (more + 1) + top - 1 = 7 + (7 * more + top - 1) by omega, Int.pow_add]
      rfl
    have hcont : continuation = 128 := rfl
    have hone : (1 : Int) ≤ 2 ^ (7 * more + top - 1) := by
      exact_mod_cast Nat.one_le_two_pow
    rw [signedGroups_succ_eq_ok_iff, exists_groups_iff, hpow]
    refine exists_congr fun b => and_congr_right fun _ => or_congr ?_ ?_
    · refine and_congr_right fun hlast => and_congr_right fun _ => ?_
      have hse := signExtend7_bounds hlast
      rw [signedValue_singleton hlast]
      constructor
      · rintro rfl
        exact ⟨Nat.succ_le_succ (Nat.zero_le _), rfl, by omega, by omega⟩
      · rintro ⟨-, hv, -⟩
        exact hv
    · have hbyte := b.toNat_lt
      refine and_congr_right fun hmore => ⟨?_, ?_⟩
      · rintro ⟨rest, hr, rfl⟩
        obtain ⟨bs, hs, hg, hl, rfl, hge, hlt⟩ := ih.1 hr
        exact ⟨bs, hs, hg, Nat.succ_le_succ hl, signedValue_cons_of_le hmore hg.ne_nil, by omega,
          by omega⟩
      · rintro ⟨bs, hs, hg, hl, rfl, hge, hlt⟩
        rw [signedValue_cons_of_le hmore hg.ne_nil] at hge hlt ⊢
        exact ⟨_, ih.2 ⟨bs, hs, hg, Nat.le_of_succ_le_succ hl, rfl, by omega, by omega⟩, rfl⟩

/-- **The signed reader accepts exactly the encodings of its width.** -/
theorem readSigned_eq_ok_iff {bits : Nat} (hbits : 0 < bits) {w : Window} {pos next : Nat}
    {v : Int} :
    readSigned bits w pos = .ok (v, next) ↔
      ∃ bs, w.Spells pos bs next ∧ EncodesSigned bits v bs := by
  obtain ⟨h1, h2, h3, h4⟩ := bits_eq hbits
  rw [readSigned, signedGroups_eq_ok_iff h2 h3, h1, h4]
  constructor
  · rintro ⟨bs, hs, hg, hl, hv, hge, hlt⟩
    exact ⟨bs, hs, hg, hl, hv, hge, hlt⟩
  · rintro ⟨bs, hs, hg, hl, hv, hge, hlt⟩
    exact ⟨bs, hs, hg, hl, hv, hge, hlt⟩

end Leb128

end WasmEngine
