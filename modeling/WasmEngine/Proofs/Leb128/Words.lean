import WasmEngine.Proofs.Leb128.Trusted

/-!
# Proofs/Leb128/Words — the checked readers in machine words

The checked readers can run in 64-bit words, with a cursor that moves only when a number is accepted
(`checkedU32`, `checkedI32`, `checkedI64`).  No shift passes the end of the word, nothing is lost in
the accumulator, and the value that is narrowed at last always fits: each of them answers as
`readUnsigned` or `readSigned` of its width (`checkedU32_eq`, `checkedI32_eq`, `checkedI64_eq`).
-/

namespace WasmEngine.Leb128

variable {α β : Type}

/-! ## The readers -/

/-- The loop of the unsigned reader: `i` groups are in the accumulator, and at most `more` bytes may
follow the next one. -/
def unsignedLoop (bits : Nat) (w : Window) :
    (more i pos : Nat) → (acc : UInt64) → Except Error (UInt64 × Nat)
  | more, i, pos, acc =>
    match w.get? pos with
    | none => .error (.malformed .endOfInput)
    | some byte =>
      let payload := (byte &&& 0x7f).toUInt64
      let acc := acc ||| payload <<< (7 * i).toUInt64
      match more with
      | 0 =>
        let used := bits - 7 * i
        if byte &&& 0x80 ≠ 0 then .error (.malformed .integerTooLong)
        else if used < 7 ∧ payload >>> used.toUInt64 ≠ 0 then .error (.malformed .integerTooLarge)
        else .ok (acc, pos + 1)
      | more + 1 =>
        if byte &&& 0x80 = 0 then .ok (acc, pos + 1)
        else unsignedLoop bits w more (i + 1) (pos + 1) acc

/-- The loop of the signed reader.  Behind the last byte its sign fills up the word. -/
def signedLoop (bits : Nat) (w : Window) :
    (more i pos : Nat) → (acc : UInt64) → Except Error (UInt64 × Nat)
  | more, i, pos, acc =>
    match w.get? pos with
    | none => .error (.malformed .endOfInput)
    | some byte =>
      let payload := byte &&& 0x7f
      let acc := acc ||| payload.toUInt64 <<< (7 * i).toUInt64
      let shift := 7 * (i + 1)
      let extended :=
        if shift < 64 ∧ byte &&& 0x40 ≠ 0 then acc ||| 0xffffffffffffffff <<< shift.toUInt64
        else acc
      match more with
      | 0 =>
        let used := bits - 7 * i
        let rest := payload >>> (used - 1).toUInt8
        if byte &&& 0x80 ≠ 0 then .error (.malformed .integerTooLong)
        else if used < 7 ∧ rest ≠ 0 ∧ rest ≠ 0x7f >>> (used - 1).toUInt8 then
          .error (.malformed .integerTooLarge)
        else .ok (extended, pos + 1)
      | more + 1 =>
        if byte &&& 0x80 = 0 then .ok (extended, pos + 1)
        else signedLoop bits w more (i + 1) (pos + 1) acc

/-- The answer of a reader and its cursor, which started at `pos`.  The cursor has moved when the
value turns out not to fit the type of the result. -/
def commit (pos : Nat) (narrow : α → Option β) : Except Error (α × Nat) → Except Error β × Nat
  | .error e => (.error e, pos)
  | .ok (v, next) =>
    match narrow v with
    | some v => (.ok v, next)
    | none => (.error (.malformed .integerTooLarge), next)

/-- A reader that always narrows its number succeeds when it has one. -/
theorem commit_eq_ok_iff {narrow : α → β} {read : Except Error (α × Nat)} {pos next : Nat} {v : β} :
    commit pos (fun x => some (narrow x)) read = (.ok v, next) ↔
      ∃ x, read = .ok (x, next) ∧ narrow x = v := by
  constructor
  · intro h
    cases read with
    | error e => cases h
    | ok r =>
      cases h
      exact ⟨r.1, rfl, rfl⟩
  · rintro ⟨x, rfl, rfl⟩
    rfl

/-- It fails where it started. -/
theorem commit_eq_error_iff {narrow : α → β} {read : Except Error (α × Nat)} {pos next : Nat}
    {e : Error} : commit pos (fun x => some (narrow x)) read = (.error e, next) ↔
      next = pos ∧ read = .error e := by
  constructor
  · intro h
    cases read with
    | error e =>
      cases h
      exact ⟨rfl, rfl⟩
    | ok r => cases h
  · rintro ⟨rfl, rfl⟩
    rfl

/-- Reads an unsigned number of `bits` bits into 32 bits. -/
def checkedU32 (bits : Nat) (w : Window) (pos : Nat) : Except Error UInt32 × Nat :=
  commit pos (fun acc => if acc < 0x100000000 then some acc.toUInt32 else none)
    (unsignedLoop bits w (maxLength bits - 1) 0 pos 0)

/-- Reads a signed number of `bits` bits into 64 bits. -/
def checkedI64 (bits : Nat) (w : Window) (pos : Nat) : Except Error Int64 × Nat :=
  commit pos (fun acc => some acc.toInt64) (signedLoop bits w (maxLength bits - 1) 0 pos 0)

/-- Reads a signed number of `bits` bits into 32 bits. -/
def checkedI32 (bits : Nat) (w : Window) (pos : Nat) : Except Error Int32 × Nat :=
  commit pos
    (fun acc => if -0x80000000 ≤ acc.toInt64 ∧ acc.toInt64 < 0x80000000 then
      some acc.toInt64.toInt32 else none)
    (signedLoop bits w (maxLength bits - 1) 0 pos 0)

example : (checkedI32 32 (.ofBytes ⟨#[0xff, 0xff, 0xff, 0xff, 0x7f]⟩) 0).2 = 5 := by decide

/-! ## Bits of a byte -/

/-- Bit 7 of a byte announces another one. -/
theorem and_0x80_eq_zero_iff {b : UInt8} : b &&& 0x80 = 0 ↔ b.toNat < continuation := by
  have hand : (b &&& 0x80).toNat = b.toNat / 128 % 2 * 128 := by
    rw [UInt8.toNat_and, show (0x80 : UInt8).toNat = 2 ^ 7 from rfl, Nat.and_two_pow,
      Nat.toNat_testBit]
    rfl
  have hb := b.toNat_lt
  have hcont : continuation = 128 := rfl
  rw [← UInt8.toNat_inj, hand, UInt8.toNat_zero]
  omega

/-- The unused bits of the last byte are zero exactly if the byte is small. -/
theorem payload_shiftRight_eq_zero_iff {b : UInt8} {used : Nat} (hb : b.toNat < 128)
    (hused : used < 7) :
    (b &&& 0x7f).toUInt64 >>> used.toUInt64 = 0 ↔ b.toNat < 2 ^ used := by
  rw [← UInt64.toNat_inj, UInt64.toNat_shiftRight, UInt8.toNat_toUInt64, toNat_and_0x7f,
    Nat.mod_eq_of_lt hb, Nat.toUInt64, UInt64.toNat_ofNat', Nat.mod_mod_of_dvd _ (by decide),
    Nat.mod_eq_of_lt (show used < 64 by omega), Nat.shiftRight_eq_div_pow, UInt64.toNat_zero,
    Nat.div_eq_zero_iff]
  have hpos : 0 < 2 ^ used := Nat.two_pow_pos _
  omega

/-- The sign and the unused bits of the last byte of a signed number. -/
theorem toNat_shiftRight_uint8 {b : UInt8} {k : Nat} (hk : k < 8) :
    (b >>> k.toUInt8).toNat = b.toNat >>> k := by
  rw [UInt8.toNat_shiftRight, Nat.toUInt8, UInt8.toNat_ofNat', Nat.mod_mod_of_dvd _ (by decide),
    Nat.mod_eq_of_lt hk]

/-! ## The loops -/

section Loops

variable {bits top more i pos : Nat} {w : Window} {acc : UInt64} {b : UInt8}

/-- The accumulator after the group of a byte that is not the last one. -/
theorem toNat_accumulate (b : UInt8) (hi : 7 * (i + 1) < 64) (hacc : acc.toNat < 2 ^ (7 * i)) :
    (acc ||| (b &&& 0x7f).toUInt64 <<< (7 * i).toUInt64).toNat =
      acc.toNat + 2 ^ (7 * i) * (b.toNat % 128) := by
  have hlt : acc.toNat + 2 ^ (7 * i) * (b.toNat % 128) < 2 ^ (7 * (i + 1)) := accumulate_lt b hacc
  have hle : 2 ^ (7 * (i + 1)) ≤ 2 ^ 64 := Nat.pow_le_pow_right (by decide) (Nat.le_of_lt hi)
  rw [toNat_or_shiftLeft_uint64 (by omega) hacc, Nat.mod_eq_of_lt (by omega)]

/-- The accumulator of an unsigned number after its last byte. -/
theorem accumulate_last (hb : b.toNat < continuation) (hi : 7 * i < 64)
    (hacc : acc.toNat < 2 ^ (7 * i)) :
    acc ||| (b &&& 0x7f).toUInt64 <<< (7 * i).toUInt64 =
      (acc.toNat + 2 ^ (7 * i) * b.toNat).toUInt64 := by
  have hb : b.toNat < 128 := hb
  rw [← UInt64.toNat_inj, toNat_or_shiftLeft_uint64 hi hacc, Nat.mod_eq_of_lt hb, Nat.toUInt64,
    UInt64.toNat_ofNat']

/-- The word of a signed number after its last byte. -/
theorem extended_last (hb : b.toNat < continuation) (hi : 7 * i < 64)
    (hacc : acc.toNat < 2 ^ (7 * i)) :
    (if 7 * (i + 1) < 64 ∧ b &&& 0x40 ≠ 0 then
        (acc ||| (b &&& 0x7f).toUInt64 <<< (7 * i).toUInt64) |||
          0xffffffffffffffff <<< (7 * (i + 1)).toUInt64
      else acc ||| (b &&& 0x7f).toUInt64 <<< (7 * i).toUInt64) =
      UInt64.ofInt (acc.toNat + 2 ^ (7 * i) * signExtend7 b.toNat) := by
  have hsmall : b.toNat < 128 := hb
  have hword := toNat_last hsmall (by omega) (toNat_or_shiftLeft_uint64 hi hacc)
    (accumulate_lt b hacc)
  rw [signedValue, Nat.mod_eq_of_lt hsmall] at hword
  rw [← UInt64.toNat_inj, UInt64.ofInt, UInt64.toNat_ofNat_of_lt' (show _ < 2 ^ 64 by omega)]
  omega

/-- The first check of the last byte: its unused bits are zero. -/
theorem tooLarge_iff (hb : b.toNat < continuation) (htop : top ≤ 7) :
    top < 7 ∧ ¬ (b &&& 0x7f).toUInt64 >>> top.toUInt64 = 0 ↔ 1 <<< top ≤ b.toNat := by
  have hb : b.toNat < 128 := hb
  rw [Nat.one_shiftLeft]
  by_cases h7 : top < 7
  · rw [payload_shiftRight_eq_zero_iff hb h7]
    omega
  · obtain rfl : top = 7 := by omega
    omega

/-- The check of the last byte of a signed number: its unused bits repeat the sign. -/
theorem tooLarge_signed_iff (hb : b.toNat < continuation) (htop : top ≤ 7) (hpos : 0 < top) :
    (top < 7 ∧ ¬ (b &&& 0x7f) >>> (top - 1).toUInt8 = 0 ∧
        ¬ (b &&& 0x7f) >>> (top - 1).toUInt8 = 0x7f >>> (top - 1).toUInt8) ↔
      ¬ b.toNat >>> (top - 1) = 0 ∧ ¬ b.toNat >>> (top - 1) = 0x7f >>> (top - 1) := by
  have hb : b.toNat < 128 := hb
  have hshift (c : UInt8) : (c >>> (top - 1).toUInt8).toNat = c.toNat >>> (top - 1) :=
    toNat_shiftRight_uint8 (by omega)
  rw [← UInt8.toNat_inj, ← UInt8.toNat_inj, hshift, hshift, toNat_and_0x7f, Nat.mod_eq_of_lt hb]
  change top < 7 ∧ ¬ b.toNat >>> (top - 1) = 0 ∧ ¬ b.toNat >>> (top - 1) = 0x7f >>> (top - 1) ↔ _
  by_cases h7 : top < 7
  · simp only [h7, true_and]
  · obtain rfl : top = 7 := by omega
    simp only [Nat.shiftRight_eq_div_pow]
    omega

/-- **The loop computes the number**, above what the accumulator holds. -/
theorem unsignedLoop_eq (hbits : bits = 7 * (i + more) + top) (hpos : 0 < top) (htop : top ≤ 7)
    (hword : bits ≤ 64) (hacc : acc.toNat < 2 ^ (7 * i)) :
    unsignedLoop bits w more i pos acc =
      (unsignedGroups w top more pos).map fun r =>
        ((acc.toNat + 2 ^ (7 * i) * r.1).toUInt64, r.2) := by
  induction more generalizing i pos acc with
  | zero =>
    rw [unsignedLoop, unsignedGroups]
    cases w.get? pos with
    | none => rfl
    | some b =>
      have hused : bits - 7 * i = top := by omega
      simp only [hused, ne_eq, and_0x80_eq_zero_iff, Nat.not_lt]
      by_cases hc : continuation ≤ b.toNat
      · simp only [hc, if_true]
        rfl
      · have hb := Nat.lt_of_not_le hc
        simp only [hc, if_false, tooLarge_iff hb htop, accumulate_last hb (by omega) hacc]
        split <;> rfl
  | succ more ih =>
    rw [unsignedLoop, unsignedGroups]
    cases w.get? pos with
    | none => rfl
    | some b =>
      have hbyte := b.toNat_lt
      by_cases hc : continuation ≤ b.toNat
      · have hor := toNat_accumulate b (by omega) hacc
        have hmod : b.toNat % 128 = b.toNat - continuation := by
          have hcont : continuation = 128 := rfl
          omega
        simp only [and_0x80_eq_zero_iff, Nat.not_lt.2 hc, if_false, hc, if_true]
        rw [ih (by omega) (hor ▸ accumulate_lt b hacc), hor]
        cases unsignedGroups w top more (pos + 1) with
        | error e => rfl
        | ok r =>
          refine congrArg (fun x : Nat => Except.ok (x.toUInt64, r.2)) ?_
          rw [hmod, Nat.mul_add (2 ^ (7 * i)), ← Nat.mul_assoc, Nat.mul_add 7, Nat.pow_add,
            Nat.add_assoc]
      · have hb := Nat.lt_of_not_le hc
        simp only [and_0x80_eq_zero_iff, hb, if_true, hc, if_false,
          accumulate_last hb (by omega) hacc]
        rfl

/-- **The loop computes the signed number**, above what the accumulator holds. -/
theorem signedLoop_eq (hbits : bits = 7 * (i + more) + top) (hpos : 0 < top) (htop : top ≤ 7)
    (hword : bits ≤ 64) (hacc : acc.toNat < 2 ^ (7 * i)) :
    signedLoop bits w more i pos acc =
      (signedGroups w top more pos).map fun r =>
        (UInt64.ofInt (acc.toNat + 2 ^ (7 * i) * r.1), r.2) := by
  induction more generalizing i pos acc with
  | zero =>
    rw [signedLoop, signedGroups]
    cases w.get? pos with
    | none => rfl
    | some b =>
      have hused : bits - 7 * i = top := by omega
      simp only [hused, ne_eq, and_0x80_eq_zero_iff, Nat.not_lt]
      by_cases hc : continuation ≤ b.toNat
      · simp only [hc, if_true]
        rfl
      · have hb := Nat.lt_of_not_le hc
        have hlast := extended_last hb (by omega) hacc
        simp only [ne_eq] at hlast
        simp only [hc, if_false, tooLarge_signed_iff hb htop hpos, hlast]
        split <;> rfl
  | succ more ih =>
    rw [signedLoop, signedGroups]
    cases w.get? pos with
    | none => rfl
    | some b =>
      have hbyte := b.toNat_lt
      by_cases hc : continuation ≤ b.toNat
      · have hor := toNat_accumulate b (by omega) hacc
        have hmod : b.toNat % 128 = b.toNat - continuation := by
          have hcont : continuation = 128 := rfl
          omega
        simp only [and_0x80_eq_zero_iff, Nat.not_lt.2 hc, if_false, hc, if_true]
        rw [ih (by omega) (hor ▸ accumulate_lt b hacc), hor]
        cases signedGroups w top more (pos + 1) with
        | error e => rfl
        | ok r =>
          refine congrArg (fun x : Int => Except.ok (UInt64.ofInt x, r.2)) ?_
          have hpow : (2 : Int) ^ (7 * (i + 1)) = 2 ^ (7 * i) * 128 := by
            rw [Nat.mul_add, Int.pow_add]
            rfl
          rw [hmod, hpow]
          push_cast
          ring
      · have hb := Nat.lt_of_not_le hc
        have hlast := extended_last hb (by omega) hacc
        simp only [ne_eq] at hlast
        simp only [and_0x80_eq_zero_iff, hb, if_true, hc, if_false, ne_eq, hlast]
        rfl

end Loops

/-! ## The answers -/

section Answers

variable {bits : Nat}

/-- The signed value of a word. -/
theorem toInt_toInt64 (word : UInt64) : word.toInt64.toInt = (word.toNat : Int).bmod (2 ^ 64) :=
  BitVec.toInt_eq_toNat_bmod word.toBitVec

theorem toInt64_ofInt (v : Int) : (UInt64.ofInt v).toInt64 = Int64.ofInt v := by
  have hmod : ((UInt64.ofInt v).toNat : Int) = v % (2 ^ 64 : Nat) := by
    rw [UInt64.ofInt, UInt64.toNat_ofNat_of_lt' (show _ < 2 ^ 64 by omega)]
    omega
  rw [← Int64.toInt_inj, toInt_toInt64, hmod, Int.emod_bmod, Int64.toInt_ofInt,
    show Int64.size = 2 ^ 64 from rfl]

theorem unsignedLoop_eq_readUnsigned (hpos : 0 < bits) (hword : bits ≤ 64) (w : Window)
    (pos : Nat) :
    unsignedLoop bits w (maxLength bits - 1) 0 pos 0 =
      (readUnsigned bits w pos).map fun r => (r.1.toUInt64, r.2) := by
  obtain ⟨hbits, htop, htop', hmax⟩ := bits_eq hpos
  rw [← hmax, Nat.add_sub_cancel, unsignedLoop_eq (by omega) htop' htop hword (by decide),
    readUnsigned]
  simp

theorem signedLoop_eq_readSigned (hpos : 0 < bits) (hword : bits ≤ 64) (w : Window) (pos : Nat) :
    signedLoop bits w (maxLength bits - 1) 0 pos 0 =
      (readSigned bits w pos).map fun r => (UInt64.ofInt r.1, r.2) := by
  obtain ⟨hbits, htop, htop', hmax⟩ := bits_eq hpos
  rw [← hmax, Nat.add_sub_cancel, signedLoop_eq (by omega) htop' htop hword (by decide),
    readSigned]
  simp

/-- **The unsigned reader in words answers as `readUnsigned`**, up to 32 bits. -/
theorem checkedU32_eq (hpos : 0 < bits) (hbits : bits ≤ 32) (w : Window) (pos : Nat) :
    checkedU32 bits w pos =
      commit pos (fun v : Nat => some v.toUInt32) (readUnsigned bits w pos) := by
  rw [checkedU32, unsignedLoop_eq_readUnsigned hpos (by omega)]
  cases hr : readUnsigned bits w pos with
  | error e => rfl
  | ok r =>
    obtain ⟨bs, -, hbs⟩ := (readUnsigned_eq_ok_iff hpos).1 hr
    have hlt : r.1 < 2 ^ 32 := Nat.lt_of_lt_of_le hbs.lt (Nat.pow_le_pow_right (by decide) hbits)
    have hword : r.1.toUInt64.toNat = r.1 :=
      UInt64.toNat_ofNat_of_lt' (Nat.lt_trans hlt (by decide))
    have hfits : r.1.toUInt64 < 0x100000000 := by
      rw [UInt64.lt_iff_toNat_lt, hword]
      exact hlt
    have hnarrow : r.1.toUInt64.toUInt32 = r.1.toUInt32 := by
      rw [← UInt32.toNat_inj, UInt64.toNat_toUInt32, hword, Nat.toUInt32, UInt32.toNat_ofNat']
    simp only [Except.map, commit, hfits, if_true, hnarrow]

/-- **The signed reader in 64 bits answers as `readSigned`.** -/
theorem checkedI64_eq (hpos : 0 < bits) (hbits : bits ≤ 64) (w : Window) (pos : Nat) :
    checkedI64 bits w pos =
      commit pos (fun v : Int => some (Int64.ofInt v)) (readSigned bits w pos) := by
  rw [checkedI64, signedLoop_eq_readSigned hpos hbits]
  cases readSigned bits w pos with
  | error e => rfl
  | ok r => simp only [Except.map, commit, toInt64_ofInt]

/-- **The signed reader in 32 bits answers as `readSigned`**, up to 32 bits. -/
theorem checkedI32_eq (hpos : 0 < bits) (hbits : bits ≤ 32) (w : Window) (pos : Nat) :
    checkedI32 bits w pos =
      commit pos (fun v : Int => some (Int32.ofInt v)) (readSigned bits w pos) := by
  rw [checkedI32, signedLoop_eq_readSigned hpos (by omega)]
  cases hr : readSigned bits w pos with
  | error e => rfl
  | ok r =>
    obtain ⟨bs, -, hbs⟩ := (readSigned_eq_ok_iff hpos).1 hr
    have hpow : (2 : Int) ^ (bits - 1) ≤ 2 ^ 31 := by
      have hle : 2 ^ (bits - 1) ≤ 2 ^ 31 := Nat.pow_le_pow_right (by decide) (by omega)
      exact_mod_cast hle
    have hge := hbs.ge
    have hlt := hbs.lt
    have hword : (Int64.ofInt r.1).toInt = r.1 := Int64.toInt_ofInt_of_le (by omega) (by omega)
    have hfits : -0x80000000 ≤ Int64.ofInt r.1 ∧ Int64.ofInt r.1 < 0x80000000 := by
      rw [Int64.le_iff_toInt_le, Int64.lt_iff_toInt_lt, hword]
      change -2 ^ 31 ≤ r.1 ∧ r.1 < 2 ^ 31
      omega
    simp only [Except.map, commit, toInt64_ofInt, hfits, and_self, if_true, Int64.toInt32_ofInt]

end Answers

end WasmEngine.Leb128
