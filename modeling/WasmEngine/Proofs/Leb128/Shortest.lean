import WasmEngine.Proofs.Leb128.Format

/-!
# Proofs/Leb128/Shortest — the shortest run of a number

`unsignedBytes` and `signedBytes` write a number without padding.  They write it in the format that
the checked readers accept: `encodesUnsigned_unsignedBytes`, `encodesSigned_signedBytes`.
-/

namespace WasmEngine.Leb128

/-- The shortest run that writes an unsigned number, of at most `more + 1` bytes. -/
def unsignedBytes : (more : Nat) → Nat → List UInt8
  | 0, n => [UInt8.ofNat n]
  | more + 1, n =>
    if n < 128 then [UInt8.ofNat n] else UInt8.ofNat (n % 128 + 128) :: unsignedBytes more (n / 128)

/-- The shortest run that writes a signed number, of at most `more + 1` bytes. -/
def signedBytes : (more : Nat) → Int → List UInt8
  | 0, v => [UInt8.ofNat (v % 128).toNat]
  | more + 1, v =>
    if -64 ≤ v ∧ v < 64 then [UInt8.ofNat (v % 128).toNat]
    else UInt8.ofNat ((v % 128).toNat + 128) :: signedBytes more (v / 128)

variable {more n : Nat} {v : Int}

theorem unsignedBytes_ne_nil : unsignedBytes more n ≠ [] := by
  cases more with
  | zero => simp [unsignedBytes]
  | succ more => rw [unsignedBytes]; split <;> simp

theorem length_unsignedBytes_le : (unsignedBytes more n).length ≤ more + 1 := by
  induction more generalizing n with
  | zero => simp [unsignedBytes]
  | succ more ih =>
    rw [unsignedBytes]
    split
    · simp
    · simpa using ih

theorem isGroups_unsignedBytes (h : n < 128 * 128 ^ more) : IsGroups (unsignedBytes more n) := by
  have hlast (h : n < 128) : IsGroups [UInt8.ofNat n] := by
    rw [isGroups_singleton, UInt8.toNat_ofNat_of_lt' (show _ < 256 by omega)]
    exact h
  induction more generalizing n with
  | zero => exact hlast (by simpa using h)
  | succ more ih =>
    rw [unsignedBytes]
    split
    · next hn => exact hlast hn
    · refine isGroups_cons.2 (.inr ⟨?_, ih ?_ fun hn => ?_⟩)
      · rw [UInt8.toNat_ofNat_of_lt' (show _ < 256 by omega)]
        exact Nat.le_add_left ..
      · rw [Nat.pow_succ] at h
        omega
      · rw [isGroups_singleton, UInt8.toNat_ofNat_of_lt' (show _ < 256 by omega)]
        exact hn

theorem unsignedValue_unsignedBytes (h : n < 128 * 128 ^ more) :
    unsignedValue (unsignedBytes more n) = n := by
  have hlast {n : Nat} (h : n < 128) : unsignedValue [UInt8.ofNat n] = n := by
    rw [unsignedValue, unsignedValue, UInt8.toNat_ofNat_of_lt' (show _ < 256 by omega)]
    omega
  induction more generalizing n with
  | zero => exact hlast (by simpa using h)
  | succ more ih =>
    rw [unsignedBytes]
    split
    · next hn => exact hlast hn
    · have hrest : n / 128 < 128 * 128 ^ more := by
        rw [Nat.pow_succ] at h
        omega
      rw [unsignedValue, ih hrest, UInt8.toNat_ofNat_of_lt' (show _ < 256 by omega)]
      omega

/-- A number of groups suffices for the width that needs it. -/
theorem two_pow_le_of_le {m k : Nat} (h : m ≤ 7 * more + k) : 2 ^ m ≤ 2 ^ k * 128 ^ more := by
  have hpow : 2 ^ k * 128 ^ more = 2 ^ (7 * more + k) := by
    rw [Nat.pow_add, Nat.pow_mul, Nat.mul_comm]
  exact hpow ▸ Nat.pow_le_pow_right (by decide) h

/-- **The shortest run of an unsigned number writes it.** -/
theorem encodesUnsigned_unsignedBytes {bits : Nat} (hbits : maxLength bits = more + 1)
    (h : n < 2 ^ bits) : EncodesUnsigned bits n (unsignedBytes more n) :=
  have hlt := Nat.lt_of_lt_of_le h
    (two_pow_le_of_le (k := 7) (by unfold maxLength at hbits; omega))
  { isGroups := isGroups_unsignedBytes hlt
    length_le := hbits ▸ length_unsignedBytes_le
    value_eq := unsignedValue_unsignedBytes hlt
    lt := h }

/-! ## Signed numbers -/

theorem length_signedBytes_le : (signedBytes more v).length ≤ more + 1 := by
  induction more generalizing v with
  | zero => simp [signedBytes]
  | succ more ih =>
    rw [signedBytes]
    split
    · simp
    · simpa using ih

theorem isGroups_signedBytes : IsGroups (signedBytes more v) := by
  have hlast (v : Int) : IsGroups [UInt8.ofNat (v % 128).toNat] := by
    rw [isGroups_singleton, UInt8.toNat_ofNat_of_lt' (show _ < 256 by omega)]
    change (v % 128).toNat < 128
    omega
  induction more generalizing v with
  | zero => exact hlast v
  | succ more ih =>
    rw [signedBytes]
    split
    · exact hlast v
    · refine isGroups_cons.2 (.inr ⟨?_, ih⟩)
      rw [UInt8.toNat_ofNat_of_lt' (show _ < 256 by omega)]
      exact Nat.le_add_left ..

theorem signedValue_signedBytes (hge : -(64 * 128 ^ more) ≤ v) (hlt : v < 64 * 128 ^ more) :
    signedValue (signedBytes more v) = v := by
  have hlast {v : Int} (hge : -64 ≤ v) (hlt : v < 64) :
      signedValue [UInt8.ofNat (v % 128).toNat] = v := by
    rw [signedValue, UInt8.toNat_ofNat_of_lt' (show _ < 256 by omega), signExtend7]
    split <;> omega
  induction more generalizing v with
  | zero => exact hlast (by simpa using hge) (by simpa using hlt)
  | succ more ih =>
    rw [signedBytes]
    split
    · next hv => exact hlast hv.1 hv.2
    · rw [Int.pow_succ] at hge hlt
      rw [signedValue_cons isGroups_signedBytes.ne_nil, ih (by omega) (by omega),
        UInt8.toNat_ofNat_of_lt' (show _ < 256 by omega)]
      omega

/-- **The shortest run of a signed number writes it.** -/
theorem encodesSigned_signedBytes {bits : Nat} (hbits : maxLength bits = more + 1)
    (hge : -2 ^ (bits - 1) ≤ v) (hlt : v < 2 ^ (bits - 1)) :
    EncodesSigned bits v (signedBytes more v) :=
  have hpow : (2 : Int) ^ (bits - 1) ≤ 64 * 128 ^ more := by
    have hle : 2 ^ (bits - 1) ≤ 2 ^ 6 * 128 ^ more :=
      two_pow_le_of_le (by unfold maxLength at hbits; omega)
    exact_mod_cast hle
  { isGroups := isGroups_signedBytes
    length_le := hbits ▸ length_signedBytes_le
    value_eq := signedValue_signedBytes (by omega) (by omega)
    ge := hge
    lt := hlt }

end WasmEngine.Leb128
