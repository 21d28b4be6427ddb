import Mathlib.Algebra.Group.Int.Defs
import Mathlib.Algebra.Group.Nat.Defs
import WasmEngine.Numeric.Integer

/-!
# Proofs/Numeric/Arithmetic — the integer operators on numbers

The standard defines integer instructions on numbers below `2 ^ n`: a number is read in two's
complement where an instruction is signed, results are taken modulo `2 ^ n`, shift and rotation
counts modulo `n`.  Here its rules stand as functions on numbers, and the operators on bit vectors
are shown to follow them: `IntUnOp.toNat_eval`, `IntBinOp.toNat_eval`, `IntRelOp.eval_eq`.
-/

namespace WasmEngine

/-! ## Numbers of `n` bits -/

namespace Binary

/-- The integer that a number of `n` bits stands for in two's complement. -/
def signed (n i : Nat) : Int := if i < 2 ^ (n - 1) then i else i - 2 ^ n

/-- The number of `n` bits that stands for an integer, modulo `2 ^ n`. -/
def ofInt (n : Nat) (z : Int) : Nat := (z % 2 ^ n).toNat

/-- The digits of a number of `n` bits, the least significant first. -/
def digits (n i : Nat) : List Bool := (List.range n).map i.testBit

variable {n : Nat}

theorem signed_toNat (x : BitVec n) : signed n x.toNat = x.toInt := by
  rw [signed, BitVec.toInt_eq_toNat_cond]
  cases n with
  | zero => simp [BitVec.of_length_zero]
  | succ n =>
    rw [Nat.add_sub_cancel, Nat.pow_succ]
    by_cases hlt : x.toNat < 2 ^ n
    · rw [if_pos hlt, if_pos (by omega)]
    · rw [if_neg hlt, if_neg (by omega)]
      simp [Int.pow_succ]

theorem ofInt_toInt (x : BitVec n) : ofInt n x.toInt = x.toNat := by
  have h := congrArg BitVec.toNat (BitVec.ofInt_toInt (x := x))
  rw [BitVec.toNat_ofInt] at h
  simpa [ofInt] using h

theorem toNat_eq_ofInt {x : BitVec n} {z : Int} (h : x.toInt = z) : x.toNat = ofInt n z := by
  rw [← h, ofInt_toInt]

/-- A number modulo `2 ^ n` has `n` bits. -/
theorem ofInt_lt (n : Nat) (z : Int) : ofInt n z < 2 ^ n := by
  have hpos : (0 : Int) < 2 ^ n := Int.pow_pos (by decide)
  have hlt := Int.emod_lt_of_pos z hpos
  have hnonneg := Int.emod_nonneg z (Int.ne_of_gt hpos)
  have hcast : ((2 ^ n : Nat) : Int) = 2 ^ n := by simp
  rw [ofInt]
  omega

/-- Reducing an integer to the signed range does not change its number. -/
theorem ofInt_bmod (z : Int) : ofInt n (z.bmod (2 ^ n)) = ofInt n z := by
  have h : (2 : Int) ^ n = ((2 ^ n : Nat) : Int) := by simp
  rw [ofInt, ofInt, h, Int.bmod_emod]

/-- Sign extension keeps the signed number. -/
theorem toNat_signExtend {k : Nat} (x : BitVec k) :
    (x.signExtend n).toNat = ofInt n (signed k x.toNat) := by
  rw [signed_toNat]
  rcases Nat.le_total k n with hle | hle
  · exact toNat_eq_ofInt (BitVec.toInt_signExtend_of_le hle)
  · rw [toNat_eq_ofInt (BitVec.toInt_signExtend_eq_toInt_bmod_of_le x hle), ofInt_bmod]

theorem length_digits (n i : Nat) : (digits n i).length = n := by simp [digits]

theorem getElem_digits (x : BitVec n) {k : Nat} (hk : k < (digits n x.toNat).length) :
    (digits n x.toNat)[k] = x.getLsbD k := by
  simp [digits, BitVec.testBit_toNat]

/-- Bits that are reversed are the digits in reverse. -/
theorem digits_reverse (x : BitVec n) : digits n x.reverse.toNat = (digits n x.toNat).reverse := by
  refine List.ext_getElem (by simp [length_digits]) fun k hk hk' => ?_
  rw [List.getElem_reverse, getElem_digits, getElem_digits, BitVec.getLsbD_reverse,
    BitVec.getMsbD_eq_getLsbD, length_digits]
  rw [length_digits] at hk
  rw [decide_eq_true hk, Bool.true_and]

end Binary

open Binary

variable {n : Nat}

/-! ## Counting bits -/

namespace IntUnOp

/-- What an operator counts in a number of `n` bits: the zeros before the first one from above or
from below, or the ones. -/
def count (n i : Nat) : IntUnOp → Nat
  | clz => (digits n i).reverse.findIdx id
  | ctz => (digits n i).findIdx id
  | popcnt => (digits n i).count true

/-- Trailing zeros are the digits before the first one that is set. -/
theorem toNat_ctz (x : BitVec n) : x.ctz.toNat = (digits n x.toNat).findIdx id := by
  have hn : (n : BitVec n).toNat = n := Nat.mod_eq_of_lt Nat.lt_two_pow_self
  by_cases hx : x = 0
  · have hle : x.ctz.toNat ≤ n := by
      have h := BitVec.le_def.1 (BitVec.clz_le (x := x.reverse))
      rwa [← BitVec.ctz_eq_reverse_clz, hn] at h
    have hge : n ≤ x.ctz.toNat := by
      refine Nat.le_of_not_lt fun hlt => ?_
      refine BitVec.ctz_lt_iff_ne_zero.1 (BitVec.lt_def.2 ?_) hx
      exact Nat.lt_of_lt_of_eq hlt hn.symm
    have hall : (digits n x.toNat).findIdx id = (digits n x.toNat).length := by
      rw [List.findIdx_eq_length]
      simp [digits, hx]
    rw [hall, length_digits]
    exact Nat.le_antisymm hle hge
  · have hlt : x.ctz.toNat < n :=
      Nat.lt_of_lt_of_eq (BitVec.lt_def.1 (BitVec.ctz_lt_iff_ne_zero.2 hx)) hn
    rw [eq_comm, List.findIdx_eq (by rwa [length_digits])]
    simp only [getElem_digits, id]
    exact ⟨BitVec.getLsbD_true_ctz_of_ne_zero hx, fun _ hk => BitVec.getLsbD_false_of_lt_ctz hk⟩

/-- Leading zeros are the trailing zeros of the reverse. -/
theorem toNat_clz (x : BitVec n) : x.clz.toNat = (digits n x.toNat).reverse.findIdx id := by
  rw [BitVec.clz_eq_reverse_ctz, toNat_ctz, digits_reverse]

/-- The count of bits goes through the digits one by one. -/
theorem cpopNatRec_eq (x : BitVec n) (k : Nat) :
    x.cpopNatRec k 0 = (digits k x.toNat).count true := by
  induction k with
  | zero => rfl
  | succ k ih =>
    rw [BitVec.cpopNatRec_succ, BitVec.cpopNatRec_add, ih]
    simp only [digits, List.range_succ, List.map_append, List.count_append, List.map_singleton,
      BitVec.testBit_toNat]
    cases x.getLsbD k <;> rfl

/-- **The counting operators count.** -/
theorem toNat_eval (op : IntUnOp) (x : BitVec n) : (op.eval x).toNat = op.count n x.toNat := by
  cases op with
  | clz => exact toNat_clz x
  | ctz => exact toNat_ctz x
  | popcnt => exact (BitVec.toNat_cpop x).trans (cpopNatRec_eq x n)

/-- A count fits into the bits that it counts. -/
theorem count_lt (op : IntUnOp) {i : Nat} (hi : i < 2 ^ n) : op.count n i < 2 ^ n := by
  have h := op.toNat_eval (BitVec.ofNat n i)
  rw [BitVec.toNat_ofNat, Nat.mod_eq_of_lt hi] at h
  exact h ▸ BitVec.isLt _

end IntUnOp

/-! ## Arithmetic -/

namespace IntBinOp

/-- Why an operator has no value: a division by zero, or a quotient outside of the signed range. -/
def trap? (n i j : Nat) : IntBinOp → Option Trap
  | divS =>
    if j = 0 then some .integerDivideByZero
    else if signed n i = -2 ^ (n - 1) ∧ signed n j = -1 then some .integerOverflow
    else none
  | divU | remS | remU => if j = 0 then some .integerDivideByZero else none
  | _ => none

/-- The value of an operator.  Signed quotients are cut toward zero, and a signed remainder has the
sign of the dividend; a signed shift to the right rounds down. -/
def number (n i j : Nat) : IntBinOp → Nat
  | add => (i + j) % 2 ^ n
  | sub => (i + 2 ^ n - j) % 2 ^ n
  | mul => i * j % 2 ^ n
  | divS => ofInt n ((signed n i).tdiv (signed n j))
  | divU => i / j
  | remS => ofInt n ((signed n i).tmod (signed n j))
  | remU => i % j
  | and => i &&& j
  | or => i ||| j
  | xor => i ^^^ j
  | shl => i * 2 ^ (j % n) % 2 ^ n
  | shrS => ofInt n (signed n i / 2 ^ (j % n))
  | shrU => i / 2 ^ (j % n)
  | rotl => i * 2 ^ (j % n) % 2 ^ n + i / 2 ^ (n - j % n)
  | rotr => i / 2 ^ (j % n) + i * 2 ^ (n - j % n) % 2 ^ n

/-- The value of an operator, unless it traps. -/
def outcome (n i j : Nat) (op : IntBinOp) : Except Trap Nat :=
  match op.trap? n i j with
  | some t => .error t
  | none => .ok (op.number n i j)

/-- The least number has the most negative value. -/
theorem isMin_iff (h : 0 < n) (x : BitVec n) :
    x = BitVec.intMin n ↔ signed n x.toNat = -2 ^ (n - 1) := by
  rw [signed_toNat, ← BitVec.toInt_inj, BitVec.toInt_intMin_of_pos h]

/-- All bits set is minus one. -/
theorem eq_neg_one_iff (h : 0 < n) (x : BitVec n) : x = -1 ↔ signed n x.toNat = -1 := by
  rw [signed_toNat, ← BitVec.toInt_inj]
  have hone : (-1 : BitVec n).toInt = -1 := by
    have hall := BitVec.toInt_allOnes (w := n)
    rwa [if_pos h, ← BitVec.neg_one_eq_allOnes] at hall
  rw [hone]

theorem eq_zero_iff (x : BitVec n) : x = 0 ↔ x.toNat = 0 := by
  rw [← BitVec.toNat_inj]
  simp

/-- Joining the two parts of a rotation. -/
theorem or_eq_add {a b k : Nat} (hb : b < 2 ^ k) (ha : 2 ^ k ∣ a) : a ||| b = a + b := by
  obtain ⟨c, rfl⟩ := ha
  have h := Nat.shiftLeft_add_eq_or_of_lt hb c
  rw [Nat.shiftLeft_eq, Nat.mul_comm] at h
  exact h.symm

/-- The parts of a rotation do not overlap. -/
theorem toNat_rotateLeft (x : BitVec n) {k : Nat} (hk : k < n) :
    (x.rotateLeft k).toNat = x.toNat * 2 ^ k % 2 ^ n + x.toNat / 2 ^ (n - k) := by
  rw [BitVec.toNat_rotateLeft, Nat.mod_eq_of_lt hk, Nat.shiftLeft_eq, Nat.shiftRight_eq_div_pow]
  refine or_eq_add (k := k) ?_ ?_
  · rw [Nat.div_lt_iff_lt_mul (Nat.two_pow_pos _), ← Nat.pow_add,
      Nat.add_sub_cancel' (Nat.le_of_lt hk)]
    exact x.isLt
  · exact (Nat.dvd_mod_iff (Nat.pow_dvd_pow 2 (Nat.le_of_lt hk))).2 (Nat.dvd_mul_left ..)

/-- A rotation to the right puts the low bits on top. -/
theorem toNat_rotateRight (x : BitVec n) {k : Nat} (hk : k < n) :
    (x.rotateRight k).toNat = x.toNat / 2 ^ k + x.toNat * 2 ^ (n - k) % 2 ^ n := by
  rw [BitVec.toNat_rotateRight, Nat.mod_eq_of_lt hk, Nat.shiftLeft_eq, Nat.shiftRight_eq_div_pow,
    Nat.or_comm, Nat.add_comm]
  refine or_eq_add (k := n - k) ?_ ?_
  · rw [Nat.div_lt_iff_lt_mul (Nat.two_pow_pos _), ← Nat.pow_add,
      Nat.sub_add_cancel (Nat.le_of_lt hk)]
    exact x.isLt
  · exact (Nat.dvd_mod_iff (Nat.pow_dvd_pow 2 (Nat.sub_le ..))).2 (Nat.dvd_mul_left ..)

/-- Signed division truncates towards zero. -/
theorem toNat_sdiv (x y : BitVec n) :
    (x.sdiv y).toNat = ofInt n ((signed n x.toNat).tdiv (signed n y.toNat)) := by
  rw [signed_toNat, signed_toNat, toNat_eq_ofInt (BitVec.toInt_sdiv x y), ofInt_bmod]

/-- The signed remainder has the sign of the dividend. -/
theorem toNat_srem (x y : BitVec n) :
    (x.srem y).toNat = ofInt n ((signed n x.toNat).tmod (signed n y.toNat)) := by
  rw [signed_toNat, signed_toNat, toNat_eq_ofInt (BitVec.toInt_srem x y)]

theorem toNat_shiftLeft (x : BitVec n) (k : Nat) :
    (x <<< k).toNat = x.toNat * 2 ^ k % 2 ^ n := by
  rw [BitVec.toNat_shiftLeft, Nat.shiftLeft_eq]

theorem toNat_ushiftRight (x : BitVec n) (k : Nat) : (x >>> k).toNat = x.toNat / 2 ^ k := by
  rw [BitVec.toNat_ushiftRight, Nat.shiftRight_eq_div_pow]

/-- An arithmetic shift rounds downwards. -/
theorem toNat_sshiftRight (x : BitVec n) (k : Nat) :
    (x.sshiftRight k).toNat = ofInt n (signed n x.toNat / 2 ^ k) := by
  rw [signed_toNat, toNat_eq_ofInt BitVec.toInt_sshiftRight, Int.shiftRight_eq_div_pow]
  simp

/-- **Arithmetic on bit vectors is arithmetic on numbers**, traps included. -/
theorem toNat_eval (h : 0 < n) (op : IntBinOp) (x y : BitVec n) :
    (op.eval x y).map BitVec.toNat = op.outcome n x.toNat y.toNat := by
  have hk : y.toNat % n < n := Nat.mod_lt _ h
  cases op with
  | add => exact congrArg Except.ok (BitVec.toNat_add ..)
  | sub =>
    refine congrArg Except.ok ((BitVec.toNat_sub ..).trans ?_)
    rw [number, Nat.add_comm (x.toNat), Nat.sub_add_comm (Nat.le_of_lt y.isLt)]
  | mul => exact congrArg Except.ok (BitVec.toNat_mul ..)
  | divS =>
    simp only [eval, outcome, trap?, isMin_iff h, eq_neg_one_iff h, eq_zero_iff]
    split
    · rfl
    · split
      · rfl
      · exact congrArg Except.ok (toNat_sdiv x y)
  | divU =>
    simp only [eval, outcome, trap?, eq_zero_iff]
    split
    · rfl
    · exact congrArg Except.ok BitVec.toNat_udiv
  | remS =>
    simp only [eval, outcome, trap?, eq_zero_iff]
    split
    · rfl
    · exact congrArg Except.ok (toNat_srem x y)
  | remU =>
    simp only [eval, outcome, trap?, eq_zero_iff]
    split
    · rfl
    · exact congrArg Except.ok BitVec.toNat_umod
  | and => exact congrArg Except.ok (BitVec.toNat_and ..)
  | or => exact congrArg Except.ok (BitVec.toNat_or ..)
  | xor => exact congrArg Except.ok (BitVec.toNat_xor ..)
  | shl => exact congrArg Except.ok (toNat_shiftLeft x _)
  | shrS => exact congrArg Except.ok (toNat_sshiftRight x _)
  | shrU => exact congrArg Except.ok (toNat_ushiftRight x _)
  | rotl => exact congrArg Except.ok (toNat_rotateLeft x hk)
  | rotr => exact congrArg Except.ok (toNat_rotateRight x hk)

/-- No result has more bits than its operands. -/
theorem outcome_lt (h : 0 < n) {op : IntBinOp} {i j k : Nat} (hi : i < 2 ^ n) (hj : j < 2 ^ n)
    (hk : op.outcome n i j = .ok k) : k < 2 ^ n := by
  have heval := toNat_eval h op (BitVec.ofNat n i) (BitVec.ofNat n j)
  rw [BitVec.toNat_ofNat, BitVec.toNat_ofNat, Nat.mod_eq_of_lt hi, Nat.mod_eq_of_lt hj, hk] at heval
  cases hv : op.eval (BitVec.ofNat n i) (BitVec.ofNat n j) with
  | error t => simp [hv, Except.map] at heval
  | ok v =>
    rw [hv] at heval
    exact Except.ok.inj heval ▸ v.isLt

/-- Whether an operator yields a quotient or a remainder. -/
def divides : IntBinOp → Bool
  | divS | divU | remS | remU => true
  | _ => false

theorem signed_zero (n : Nat) : signed n 0 = 0 := if_pos (Nat.two_pow_pos _)

/-- **An operator traps** on a division by zero, on a quotient out of range, and on nothing else. -/
theorem outcome_eq_error_iff {op : IntBinOp} {i j : Nat} {t : Trap} :
    op.outcome n i j = .error t ↔
      t = .integerDivideByZero ∧ op.divides ∧ j = 0 ∨
        t = .integerOverflow ∧ op = divS ∧ signed n i = -2 ^ (n - 1) ∧ signed n j = -1 := by
  have htrap : op.outcome n i j = .error t ↔ op.trap? n i j = some t := by
    unfold outcome
    cases op.trap? n i j <;> simp
  rw [htrap]
  by_cases hj : j = 0
  · cases op <;> simp [trap?, divides, hj, signed_zero, eq_comm]
  · cases op with
    | divS =>
      by_cases hmin : signed n i = -2 ^ (n - 1) ∧ signed n j = -1
      · simp [trap?, hj, hmin, eq_comm (b := t)]
      · simp [trap?, hj, hmin]
    | _ => simp [trap?, divides, hj]

/-- The remainder of the least number by `-1`, whose quotient has no place, is zero. -/
example : remS.outcome 32 0x80000000 0xffffffff = .ok 0 := by rfl

end IntBinOp

/-! ## Comparisons -/

namespace IntRelOp

/-- Whether two numbers compare as an operator asks, read as signed or as unsigned ones. -/
def holds (n i j : Nat) : IntRelOp → Bool
  | eq => i = j
  | ne => i ≠ j
  | ltS => signed n i < signed n j
  | ltU => i < j
  | gtS => signed n i > signed n j
  | gtU => i > j
  | leS => signed n i ≤ signed n j
  | leU => i ≤ j
  | geS => signed n i ≥ signed n j
  | geU => i ≥ j

/-- **Comparing bit vectors is comparing numbers.** -/
theorem eval_eq (op : IntRelOp) (x y : BitVec n) :
    op.eval x y = op.holds n x.toNat y.toNat := by
  cases op with
  | ne =>
    rw [eval, holds, bne, Bool.eq_iff_iff]
    simp [BitVec.toNat_inj]
  | _ =>
    simp only [eval, holds, signed_toNat, BitVec.toNat_inj]
    rfl

end IntRelOp

end WasmEngine
