import Mathlib.Data.Nat.Bitwise
import Mathlib.Tactic.Ring
import WasmEngine.Proofs.Leb128.Format

/-!
# Proofs/Leb128/Trusted — the trusted readers agree with the checked ones

Validated code is read a second time in machine words and without checks.  On what the checked
readers accept, the trusted ones find the same number and stop at the same place:
`trustedUnsigned_of_readUnsigned`, `trustedSigned_of_readSigned`.
-/

namespace WasmEngine

/-- A run ends within the bytes, unless it is empty. -/
theorem Window.Spells.stop_le_size {w : Window} {pos stop : Nat} {bs : List UInt8}
    (h : w.Spells pos bs stop) (hp : pos ≤ w.bytes.size) : stop ≤ w.bytes.size := by
  induction bs generalizing pos with
  | nil =>
    obtain rfl : stop = pos := h
    exact hp
  | cons b bs ih =>
    obtain ⟨hlt, -⟩ := getElem?_eq_some_iff.1 (Window.get?_eq_some_iff.1 h.1).2
    exact ih h.2 hlt

namespace Leb128

variable {w : Window} {pos next : Nat} {bs : List UInt8}

/-- The number of bytes left bounds the length of a run of groups. -/
theorem length_le_of_spells (hs : w.Spells pos bs next) (hg : IsGroups bs) :
    bs.length ≤ w.bytes.size - pos := by
  match bs, hg with
  | b :: bs, _ =>
    obtain ⟨hlt, -⟩ := getElem?_eq_some_iff.1 (Window.get?_eq_some_iff.1 hs.1).2
    have hlt : pos < w.bytes.size := hlt
    have h₁ := hs.stop_le_size (Nat.le_of_lt hlt)
    have h₂ := hs.stop_eq
    omega

theorem toNat_and_0x7f (b : UInt8) : (b &&& 0x7f).toNat = b.toNat % 128 := by
  rw [UInt8.toNat_and]
  exact Nat.and_two_pow_sub_one_eq_mod b.toNat 7

/-- Or-ing bits in above a number adds them. -/
theorem or_shiftLeft_eq {a s n : Nat} (h : a < 2 ^ s) : a ||| n <<< s = a + 2 ^ s * n := by
  rw [Nat.or_comm, ← Nat.shiftLeft_add_eq_or_of_lt h, Nat.shiftLeft_eq, Nat.mul_comm, Nat.add_comm]

/-- A group goes above the bits that the accumulator holds. -/
theorem accumulate_lt {acc shift : Nat} (b : UInt8) (hacc : acc < 2 ^ shift) :
    acc + 2 ^ shift * (b.toNat % 128) < 2 ^ (shift + 7) := by
  have hmod : b.toNat % 128 < 128 := Nat.mod_lt _ (by decide)
  calc acc + 2 ^ shift * (b.toNat % 128)
      < 2 ^ shift + 2 ^ shift * (b.toNat % 128) := by omega
    _ = 2 ^ shift * (b.toNat % 128 + 1) := by rw [Nat.mul_add, Nat.mul_one, Nat.add_comm]
    _ ≤ 2 ^ shift * 128 := Nat.mul_le_mul_left _ hmod
    _ = 2 ^ (shift + 7) := by rw [Nat.pow_add]

/-! ## Unsigned numbers -/

/-- The accumulator takes up the groups as long as the number fits. -/
theorem toNat_or_shiftLeft_uint32 {acc shift : UInt32} {b : UInt8} (hshift : shift.toNat < 32)
    (hacc : acc.toNat < 2 ^ shift.toNat)
    (hfit : acc.toNat + 2 ^ shift.toNat * (b.toNat % 128) < 2 ^ 32) :
    (acc ||| (b &&& 0x7f).toUInt32 <<< shift).toNat =
      acc.toNat + 2 ^ shift.toNat * (b.toNat % 128) := by
  have hsmall : (b.toNat % 128) <<< shift.toNat < 2 ^ 32 := by
    rw [Nat.shiftLeft_eq, Nat.mul_comm]
    omega
  rw [UInt32.toNat_or, UInt32.toNat_shiftLeft, UInt8.toNat_toUInt32, toNat_and_0x7f,
    Nat.mod_eq_of_lt hshift, Nat.mod_eq_of_lt hsmall, or_shiftLeft_eq hacc]

theorem trustedUnsignedFrom_eq {left : Nat} {shift acc : UInt32} (hs : w.Spells pos bs next)
    (hg : IsGroups bs) (hleft : bs.length ≤ left)
    (hshift : shift.toNat + 7 * (bs.length - 1) < 32) (hacc : acc.toNat < 2 ^ shift.toNat)
    (hfit : acc.toNat + 2 ^ shift.toNat * unsignedValue bs < 2 ^ 32) :
    trustedUnsignedFrom w.bytes left pos shift acc =
      some ((acc.toNat + 2 ^ shift.toNat * unsignedValue bs).toUInt32, next) := by
  induction bs generalizing left pos shift acc with
  | nil => exact absurd hg (by simp [IsGroups])
  | cons b bs ih =>
    obtain ⟨left, rfl⟩ : ∃ n, left = n + 1 := ⟨left - 1, by simp at hleft; omega⟩
    have hb := (Window.get?_eq_some_iff.1 hs.1).2
    have hpos : 0 < 2 ^ shift.toNat := Nat.two_pow_pos _
    have hsplit : 2 ^ shift.toNat * unsignedValue (b :: bs) =
        2 ^ shift.toNat * (b.toNat % 128) + 2 ^ shift.toNat * 128 * unsignedValue bs := by
      rw [unsignedValue, Nat.mul_add, ← Nat.mul_assoc]
    have hor := toNat_or_shiftLeft_uint32 (b := b) (by omega) hacc (by omega)
    rw [trustedUnsignedFrom, hb]
    rcases isGroups_cons.1 hg with ⟨hlast, rfl⟩ | ⟨hmore, hg⟩
    · obtain rfl : next = pos + 1 := hs.2
      have hb' : b < 0x80 := hlast
      simp only [hb', if_true, Option.some.injEq, Prod.mk.injEq, and_true]
      rw [← UInt32.toNat_inj, hor, Nat.toUInt32, UInt32.toNat_ofNat',
        Nat.mod_eq_of_lt hfit, hsplit]
      simp [unsignedValue]
    · have hb' : ¬ b < 0x80 := fun h => by
        have : b.toNat < 128 := h
        simp only [continuation] at hmore
        omega
      have hne : bs.length ≠ 0 := fun h => hg.ne_nil (List.length_eq_zero_iff.1 h)
      have hlen : (b :: bs).length = bs.length + 1 := rfl
      have hshift' : (shift + 7).toNat = shift.toNat + 7 := by
        rw [UInt32.toNat_add, Nat.mod_eq_of_lt (by simp; omega)]
        rfl
      have hpow : 2 ^ (shift + 7).toNat = 2 ^ shift.toNat * 128 := by
        rw [hshift', Nat.pow_add]
      have hacc' := accumulate_lt b hacc
      simp only [hb', if_false]
      rw [ih hs.2 hg (by omega) (by omega) (by rw [hor, hshift']; exact hacc')
        (by rw [hor, hpow]; omega), hor, hpow, hsplit]
      congr 3
      omega

/-- **On what the checked reader accepts, the trusted one finds the same number.** -/
theorem trustedUnsigned_of_readUnsigned {v : Nat} (h : readUnsigned 32 w pos = .ok (v, next)) :
    trustedUnsigned w.bytes pos = some (v.toUInt32, next) := by
  obtain ⟨bs, hs, hg, hl, rfl, hlt⟩ := (readUnsigned_eq_ok_iff (by decide)).1 h
  have hl : bs.length ≤ 5 := hl
  rw [trustedUnsigned, trustedUnsignedFrom_eq hs hg (length_le_of_spells hs hg)]
  · simp
  · simp
    omega
  · simp
  · simpa using hlt

/-! ## Signed numbers

The word that the trusted reader computes is the number modulo `2 ^ 64`, whatever its sign. -/

/-- The accumulator takes up the groups below bit 63; of the tenth group only one bit is left. -/
theorem toNat_or_shiftLeft_uint64 {acc : UInt64} {shift : Nat} {b : UInt8} (hshift : shift < 64)
    (hacc : acc.toNat < 2 ^ shift) :
    (acc ||| (b &&& 0x7f).toUInt64 <<< shift.toUInt64).toNat =
      (acc.toNat + 2 ^ shift * (b.toNat % 128)) % 2 ^ 64 := by
  have hword : shift.toUInt64.toNat % 64 = shift := by
    rw [Nat.toUInt64, UInt64.toNat_ofNat', Nat.mod_mod_of_dvd _ (by decide),
      Nat.mod_eq_of_lt hshift]
  rw [UInt64.toNat_or, UInt64.toNat_shiftLeft, UInt8.toNat_toUInt64, toNat_and_0x7f, hword,
    ← or_shiftLeft_eq hacc, Nat.or_mod_two_pow,
    Nat.mod_eq_of_lt (a := acc.toNat) (UInt64.toNat_lt acc)]

/-- Bit 6 of the last byte is the sign. -/
theorem and_0x40_ne_zero_iff {b : UInt8} (h : b.toNat < 128) : b &&& 0x40 ≠ 0 ↔ 64 ≤ b.toNat := by
  have hand : (b &&& 0x40).toNat = b.toNat / 64 % 2 * 64 := by
    rw [UInt8.toNat_and, show (0x40 : UInt8).toNat = 2 ^ 6 from rfl, Nat.and_two_pow,
      Nat.toNat_testBit]
    rfl
  rw [Ne, ← UInt8.toNat_inj, hand, UInt8.toNat_zero]
  omega

/-- Or-ing ones in above a number subtracts a power of two from it, modulo `2 ^ 64`. -/
theorem toNat_or_ones {acc : UInt64} {shift : Nat} (hshift : shift < 64)
    (hacc : acc.toNat < 2 ^ shift) :
    (acc ||| 0xffffffffffffffff <<< shift.toUInt64).toNat = acc.toNat + (2 ^ 64 - 2 ^ shift) := by
  have hword : shift.toUInt64.toNat % 64 = shift := by
    rw [Nat.toUInt64, UInt64.toNat_ofNat', Nat.mod_mod_of_dvd _ (by decide),
      Nat.mod_eq_of_lt hshift]
  have hpow : 2 ^ shift * 2 ^ (64 - shift) = 2 ^ 64 := by
    rw [← Nat.pow_add, Nat.add_sub_cancel' (Nat.le_of_lt hshift)]
  have hle : 2 ^ shift ≤ 2 ^ 64 := Nat.pow_le_pow_right (by decide) (Nat.le_of_lt hshift)
  have hpos : 0 < 2 ^ shift := Nat.two_pow_pos _
  have hones : (2 ^ 64 - 1) <<< shift % 2 ^ 64 = (2 ^ (64 - shift) - 1) <<< shift := by
    have hwrap : (2 ^ 64 - 1) * 2 ^ shift = 2 ^ 64 - 2 ^ shift + 2 ^ 64 * (2 ^ shift - 1) := by
      rw [Nat.sub_mul, Nat.mul_sub, Nat.one_mul, Nat.mul_one]
      omega
    rw [Nat.shiftLeft_eq, Nat.shiftLeft_eq, hwrap, Nat.add_mul_mod_self_left,
      Nat.mod_eq_of_lt (by omega), Nat.sub_mul, Nat.one_mul, Nat.mul_comm, hpow]
  rw [UInt64.toNat_or, UInt64.toNat_shiftLeft, hword,
    show (0xffffffffffffffff : UInt64).toNat = 2 ^ 64 - 1 from rfl, hones, or_shiftLeft_eq hacc,
    Nat.mul_sub, hpow, Nat.mul_one]

/-- The last group, with the sign repeated above it unless the word ends there. -/
theorem toNat_last {b : UInt8} {acc acc₂ : UInt64} {k : Nat} (hsmall : b.toNat < 128) (hk : k ≤ 9)
    (hor : acc₂.toNat = (acc.toNat + 2 ^ (7 * k) * (b.toNat % 128)) % 2 ^ 64)
    (hacc : acc.toNat + 2 ^ (7 * k) * (b.toNat % 128) < 2 ^ (7 * (k + 1))) :
    ((if 7 * (k + 1) < 64 ∧ b &&& 0x40 ≠ 0 then
        acc₂ ||| 0xffffffffffffffff <<< (7 * (k + 1)).toUInt64 else acc₂).toNat : Int) =
      (acc.toNat + 2 ^ (7 * k) * signedValue [b]) % 2 ^ 64 := by
  have hsign := and_0x40_ne_zero_iff hsmall
  rw [Nat.mod_eq_of_lt hsmall] at hor hacc
  rw [signedValue, Nat.mod_eq_of_lt hsmall]
  by_cases hlow : 7 * (k + 1) < 64
  · -- The groups end below the top of the word.
    have hle : 2 ^ (7 * (k + 1)) ≤ 2 ^ 64 := Nat.pow_le_pow_right (by decide) (Nat.le_of_lt hlow)
    rw [Nat.mod_eq_of_lt (by omega)] at hor
    by_cases hneg : 64 ≤ b.toNat
    · have hval : (acc.toNat + 2 ^ (7 * k) * ((b.toNat : Int) - 128) : Int) + 2 ^ 64 =
          (acc.toNat + 2 ^ (7 * k) * b.toNat + (2 ^ 64 - 2 ^ (7 * (k + 1))) : Nat) := by
        rw [Nat.cast_add, Nat.cast_sub hle, Nat.mul_add, Nat.pow_add]
        push_cast
        ring
      rw [if_pos ⟨hlow, hsign.2 hneg⟩, toNat_or_ones hlow (by omega), hor, signExtend7,
        if_neg (by omega), ← Int.add_emod_right, hval, Int.emod_eq_of_lt] <;> omega
    · have hval : (acc.toNat + 2 ^ (7 * k) * (b.toNat : Int) : Int) =
          (acc.toNat + 2 ^ (7 * k) * b.toNat : Nat) := by push_cast; rfl
      rw [if_neg (fun h => hneg (hsign.1 h.2)), hor, signExtend7, if_pos (by omega), hval,
        Int.emod_eq_of_lt] <;> omega
  · -- The tenth group: the bits above the word do not count.
    obtain rfl : k = 9 := by omega
    rw [if_neg (fun h => hlow h.1), hor, signExtend7]
    split <;> omega

theorem trustedSignedFrom_eq {n k : Nat} {a : UInt64} (hs : w.Spells pos bs next)
    (hg : IsGroups bs) (hleft : bs.length ≤ n) (hk : k + bs.length ≤ 10)
    (hacc : a.toNat < 2 ^ (7 * k)) :
    ∃ word, trustedSignedFrom w.bytes n pos (7 * k) a = some (word, next) ∧
      (word.toNat : Int) = (a.toNat + 2 ^ (7 * k) * signedValue bs) % 2 ^ 64 := by
  induction bs generalizing n pos k a with
  | nil => exact absurd hg (by simp [IsGroups])
  | cons b bs ih =>
    obtain ⟨left, rfl⟩ : ∃ m, n = m + 1 := ⟨n - 1, by simp at hleft; omega⟩
    have hb := (Window.get?_eq_some_iff.1 hs.1).2
    rw [List.length_cons] at hk hleft
    have hshift : 7 * k < 64 := by omega
    have hor := toNat_or_shiftLeft_uint64 (b := b) hshift hacc
    have hpow : 2 ^ (7 * (k + 1)) = 2 ^ (7 * k) * 128 := by
      rw [Nat.mul_add, Nat.pow_add]
    have hacc' : a.toNat + 2 ^ (7 * k) * (b.toNat % 128) < 2 ^ (7 * (k + 1)) :=
      accumulate_lt b hacc
    rw [trustedSignedFrom, hb]
    simp only [hshift, if_true]
    generalize hacc₂ : a ||| (b &&& 0x7f).toUInt64 <<< (7 * k).toUInt64 = acc₂ at hor ⊢
    rcases isGroups_cons.1 hg with ⟨hlast, rfl⟩ | ⟨hmore, hg⟩
    · obtain rfl : next = pos + 1 := hs.2
      have hb' : b < 0x80 := hlast
      have hsmall : b.toNat < 128 := hlast
      simp only [hb', if_true, Option.some.injEq, Prod.mk.injEq, and_true, exists_eq_left']
      exact toNat_last hsmall (by omega) hor hacc'
    · have hb' : ¬ b < 0x80 := fun h => by
        have : b.toNat < 128 := h
        simp only [continuation] at hmore
        omega
      have hne : bs.length ≠ 0 := fun h => hg.ne_nil (List.length_eq_zero_iff.1 h)
      have hle : 2 ^ (7 * (k + 1)) ≤ 2 ^ 64 := Nat.pow_le_pow_right (by decide) (by omega)
      rw [Nat.mod_eq_of_lt (by omega)] at hor
      obtain ⟨word, hword, hv⟩ := ih (n := left) (k := k + 1) (a := acc₂) hs.2 hg (by omega)
        (by omega) (by omega)
      simp only [hb', if_false]
      refine ⟨word, hword, ?_⟩
      rw [hv, hor, signedValue_cons hg.ne_nil]
      push_cast
      rw [show (2 : Int) ^ (7 * (k + 1)) = 2 ^ (7 * k) * 128 from by exact_mod_cast hpow]
      congr 1
      rw [Int.mul_add, Int.mul_assoc, Int.add_assoc]

/-- **On what the checked reader accepts, the trusted one finds the same number**, in two's
complement. -/
theorem trustedSigned_of_readSigned {bits : Nat} (hpos : 0 < bits) (hbits : bits ≤ 64) {v : Int}
    (h : readSigned bits w pos = .ok (v, next)) :
    ∃ word, trustedSigned w.bytes pos = some (word, next) ∧ (word.toNat : Int) = v % 2 ^ 64 := by
  obtain ⟨bs, hs, hg, hl, rfl, -, -⟩ := (readSigned_eq_ok_iff hpos).1 h
  have hl : bs.length ≤ 10 := Nat.le_trans hl (by unfold maxLength; omega)
  simpa [trustedSigned] using trustedSignedFrom_eq (k := 0) (a := 0) hs hg (length_le_of_spells hs hg)
    (by omega) (by simp)

end Leb128

end WasmEngine
