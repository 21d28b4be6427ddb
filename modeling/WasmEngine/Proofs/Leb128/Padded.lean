import WasmEngine.Proofs.Leb128.Shortest

/-!
# Proofs/Leb128/Padded — the runs of a number, one for each length

A number has one run of every length that it fits (`paddedRun`): the last groups repeat its sign.
Every run in the format is the padded run of its value (`IsGroups.eq_paddedRun_unsigned`,
`IsGroups.eq_paddedRun_signed`), and none is shorter than `unsignedBytes` or `signedBytes`.
-/

namespace WasmEngine.Leb128

/-- The run of exactly `more + 1` bytes of a number, padded with zeros or with its sign. -/
def paddedRun : (more : Nat) → Int → List UInt8
  | 0, v => [UInt8.ofNat (v % 128).toNat]
  | more + 1, v => UInt8.ofNat ((v % 128).toNat + 128) :: paddedRun more (v / 128)

variable {more : Nat} {v : Int} {bs : List UInt8}

@[simp] theorem length_paddedRun : (paddedRun more v).length = more + 1 := by
  induction more generalizing v with
  | zero => rfl
  | succ more ih => rw [paddedRun, List.length_cons, ih]

/-- The last byte of a padded run announces no other. -/
theorem toNat_lastByte (v : Int) : (UInt8.ofNat (v % 128).toNat).toNat = (v % 128).toNat :=
  UInt8.toNat_ofNat_of_lt' (show _ < 256 by omega)

/-- The other bytes do. -/
theorem toNat_moreByte (v : Int) :
    (UInt8.ofNat ((v % 128).toNat + 128)).toNat = (v % 128).toNat + 128 :=
  UInt8.toNat_ofNat_of_lt' (show _ < 256 by omega)

theorem isGroups_paddedRun : IsGroups (paddedRun more v) := by
  induction more generalizing v with
  | zero =>
    have hlast : (v % 128).toNat < 128 := by omega
    rw [paddedRun, isGroups_singleton, toNat_lastByte]
    exact hlast
  | succ more ih =>
    rw [paddedRun, isGroups_cons, toNat_moreByte]
    exact .inr ⟨Nat.le_add_left .., ih⟩

/-- **A padded run writes its number**, if that has no more groups than the run. -/
theorem unsignedValue_paddedRun (hge : 0 ≤ v) (hlt : v < 128 * 128 ^ more) :
    (unsignedValue (paddedRun more v) : Int) = v := by
  induction more generalizing v with
  | zero =>
    rw [paddedRun, unsignedValue, unsignedValue, toNat_lastByte]
    omega
  | succ more ih =>
    rw [Int.pow_succ] at hlt
    have hrest := ih (v := v / 128) (by omega) (by omega)
    rw [paddedRun, unsignedValue, toNat_moreByte]
    omega

/-- **A padded run writes its number in two's complement**, if that has no more groups. -/
theorem signedValue_paddedRun (hge : -(64 * 128 ^ more) ≤ v) (hlt : v < 64 * 128 ^ more) :
    signedValue (paddedRun more v) = v := by
  induction more generalizing v with
  | zero =>
    rw [paddedRun, signedValue, toNat_lastByte, signExtend7]
    split <;> omega
  | succ more ih =>
    rw [Int.pow_succ] at hge hlt
    have hrest := ih (v := v / 128) (by omega) (by omega)
    rw [paddedRun, signedValue_cons isGroups_paddedRun.ne_nil, toNat_moreByte, hrest]
    omega

/-! ## Every run is a padded one -/

/-- A run is put together from its first byte and the padded run of the rest. -/
theorem cons_eq_paddedRun {b : UInt8} {r : Int} (h : continuation ≤ b.toNat) :
    b :: paddedRun more r = paddedRun (more + 1) ((b.toNat % 128 : Nat) + 128 * r) := by
  have hb := b.toNat_lt
  have hcont : 128 ≤ b.toNat := h
  have hlow : ((b.toNat % 128 : Nat) + 128 * r) % 128 = (b.toNat % 128 : Nat) := by omega
  have hhigh : ((b.toNat % 128 : Nat) + 128 * r) / 128 = r := by omega
  rw [paddedRun, hhigh, hlow]
  congr 1
  rw [← UInt8.toNat_inj, UInt8.toNat_ofNat_of_lt' (show _ < 256 by omega)]
  omega

theorem singleton_eq_paddedRun {b : UInt8} (h : b.toNat < continuation) (hv : v % 128 = b.toNat) :
    [b] = paddedRun 0 v := by
  have hb : b.toNat < 128 := h
  rw [paddedRun, hv, Int.toNat_natCast, UInt8.ofNat_toNat]

/-- **A run of groups is the padded run of its value.** -/
theorem IsGroups.eq_paddedRun_unsigned (hg : IsGroups bs) (hl : bs.length = more + 1) :
    bs = paddedRun more (unsignedValue bs) := by
  induction bs generalizing more with
  | nil => exact absurd rfl hg.ne_nil
  | cons b bs ih =>
    rcases isGroups_cons.1 hg with ⟨hlast, rfl⟩ | ⟨hmore, hg⟩
    · obtain rfl : more = 0 := by simpa using hl.symm
      have hb : b.toNat < 128 := hlast
      refine singleton_eq_paddedRun hlast ?_
      rw [unsignedValue, unsignedValue]
      omega
    · have hpos := List.length_pos_iff.2 hg.ne_nil
      rw [List.length_cons] at hl
      obtain ⟨more, rfl⟩ : ∃ n, more = n + 1 := ⟨more - 1, by omega⟩
      calc b :: bs = b :: paddedRun more (unsignedValue bs) := by rw [← ih hg (by omega)]
        _ = paddedRun (more + 1) (unsignedValue (b :: bs)) := by
          rw [cons_eq_paddedRun hmore, unsignedValue]
          push_cast
          rfl

/-- **A run of groups is the padded run of its value in two's complement.** -/
theorem IsGroups.eq_paddedRun_signed (hg : IsGroups bs) (hl : bs.length = more + 1) :
    bs = paddedRun more (signedValue bs) := by
  induction bs generalizing more with
  | nil => exact absurd rfl hg.ne_nil
  | cons b bs ih =>
    rcases isGroups_cons.1 hg with ⟨hlast, rfl⟩ | ⟨hmore, hg⟩
    · obtain rfl : more = 0 := by simpa using hl.symm
      have hb : b.toNat < 128 := hlast
      refine singleton_eq_paddedRun hlast ?_
      rw [signedValue, signExtend7]
      split <;> omega
    · have hpos := List.length_pos_iff.2 hg.ne_nil
      rw [List.length_cons] at hl
      obtain ⟨more, rfl⟩ : ∃ n, more = n + 1 := ⟨more - 1, by omega⟩
      calc b :: bs = b :: paddedRun more (signedValue bs) := by rw [← ih hg (by omega)]
        _ = paddedRun (more + 1) (signedValue (b :: bs)) := by
          rw [cons_eq_paddedRun hmore, signedValue_cons hg.ne_nil]

/-! ## No run is shorter than the shortest -/

/-- **No run of an unsigned number is shorter than `unsignedBytes`.** -/
theorem length_unsignedBytes_le_of_isGroups (hg : IsGroups bs) :
    (unsignedBytes more (unsignedValue bs)).length ≤ bs.length := by
  induction bs generalizing more with
  | nil => exact absurd rfl hg.ne_nil
  | cons b bs ih =>
    cases more with
    | zero => simp [unsignedBytes]
    | succ more =>
      rw [unsignedBytes]
      split
      · simp
      · next hbig =>
        rw [unsignedValue] at hbig
        rcases isGroups_cons.1 hg with ⟨-, rfl⟩ | ⟨-, hg⟩
        · rw [unsignedValue] at hbig
          omega
        · have hrest : unsignedValue (b :: bs) / 128 = unsignedValue bs := by
            rw [unsignedValue]
            omega
          rw [hrest, List.length_cons, List.length_cons]
          exact Nat.succ_le_succ (ih hg)

/-- **No run of a signed number is shorter than `signedBytes`.** -/
theorem length_signedBytes_le_of_isGroups (hg : IsGroups bs) :
    (signedBytes more (signedValue bs)).length ≤ bs.length := by
  induction bs generalizing more with
  | nil => exact absurd rfl hg.ne_nil
  | cons b bs ih =>
    cases more with
    | zero => simp [signedBytes]
    | succ more =>
      rw [signedBytes]
      split
      · simp
      · next hbig =>
        rcases isGroups_cons.1 hg with ⟨hlast, rfl⟩ | ⟨-, hg⟩
        · exact absurd (signExtend7_bounds (Nat.mod_lt b.toNat (by decide))) hbig
        · have hrest : signedValue (b :: bs) / 128 = signedValue bs := by
            rw [signedValue_cons hg.ne_nil]
            omega
          rw [hrest, List.length_cons, List.length_cons]
          exact Nat.succ_le_succ (ih hg)

end WasmEngine.Leb128
