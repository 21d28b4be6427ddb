import WasmEngine.Proofs.Leb128.Padded
import WasmEngine.Proofs.Leb128.Refusals
import WasmEngine.Proofs.Leb128.Words

/-!
# Proofs/Leb128/Exact — every answer of the checked readers

`IsExact` says what a reader of a width answers on any bytes: it succeeds on the encodings of the
numbers of its width, and every other input is `Refused` for one of three reasons, with the cursor
where it was.  `checkedReaders_isExact` states it for the widths that a module contains, of the
readers of the decoder and of those in machine words.
-/

namespace WasmEngine.Leb128

/-! ## Numbers of a width -/

/-- Whether the numbers of a width have a sign. -/
inductive Signedness where
  | unsigned
  | signed

namespace Signedness

/-- The number that groups of seven bits stand for. -/
def value : Signedness → List UInt8 → Int
  | unsigned, bs => unsignedValue bs
  | signed, bs => signedValue bs

/-- The range of a width. -/
def Holds : Signedness → (bits : Nat) → Int → Prop
  | unsigned, bits, v => 0 ≤ v ∧ v < 2 ^ bits
  | signed, bits, v => -2 ^ (bits - 1) ≤ v ∧ v < 2 ^ (bits - 1)

/-- The shortest run of a number, of at most `more + 1` bytes. -/
def shortest : Signedness → (more : Nat) → Int → List UInt8
  | unsigned, more, v => unsignedBytes more v.toNat
  | signed, more, v => signedBytes more v

/-- `bs` writes the number `v` of `bits` bits. -/
structure Encodes (s : Signedness) (bits : Nat) (v : Int) (bs : List UInt8) : Prop where
  isGroups : IsGroups bs
  length_le : bs.length ≤ maxLength bits
  value_eq : s.value bs = v
  holds : s.Holds bits v

variable {s : Signedness} {bits more : Nat} {v : Int} {bs : List UInt8}

theorem encodes_unsigned_iff {n : Nat} :
    unsigned.Encodes bits n bs ↔ EncodesUnsigned bits n bs := by
  constructor
  · rintro ⟨hg, hl, hv, -, hlt⟩
    exact ⟨hg, hl, Int.ofNat_inj.1 hv, by exact_mod_cast hlt⟩
  · rintro ⟨hg, hl, hv, hlt⟩
    exact ⟨hg, hl, congrArg Nat.cast hv, Int.natCast_nonneg n, by exact_mod_cast hlt⟩

theorem encodes_signed_iff : signed.Encodes bits v bs ↔ EncodesSigned bits v bs :=
  ⟨fun ⟨hg, hl, hv, hge, hlt⟩ => ⟨hg, hl, hv, hge, hlt⟩,
    fun ⟨hg, hl, hv, hge, hlt⟩ => ⟨hg, hl, hv, hge, hlt⟩⟩

/-- The bounds of a number of whole groups. -/
theorem two_pow_groups (more : Nat) :
    (2 : Int) ^ (7 * (more + 1)) = 128 * 128 ^ more ∧
      (2 : Int) ^ (7 * (more + 1) - 1) = 64 * 128 ^ more := by
  constructor
  · rw [Int.pow_mul, Int.pow_succ, Int.mul_comm]
    rfl
  · rw [show 7 * (more + 1) - 1 = 7 * more + 6 by omega, Int.pow_add, Int.pow_mul, Int.mul_comm]
    rfl

/-- **A padded run writes every number of its width that fits its length.** -/
theorem encodes_paddedRun (hmore : more < maxLength bits) (hv : s.Holds bits v)
    (hfits : s.Holds (7 * (more + 1)) v) : s.Encodes bits v (paddedRun more v) where
  isGroups := isGroups_paddedRun
  length_le := by
    rw [length_paddedRun]
    exact hmore
  value_eq := by
    cases s with
    | unsigned =>
      have hlt := hfits.2
      rw [(two_pow_groups more).1] at hlt
      exact unsignedValue_paddedRun hv.1 hlt
    | signed =>
      obtain ⟨hge, hlt⟩ := hfits
      rw [(two_pow_groups more).2] at hge hlt
      exact signedValue_paddedRun hge hlt
  holds := hv

/-- **A shortest run writes every number of its width.** -/
theorem encodes_shortest (hpos : 0 < bits) (hv : s.Holds bits v) :
    s.Encodes bits v (s.shortest (maxLength bits - 1) v) := by
  obtain ⟨-, -, -, hmax⟩ := bits_eq hpos
  have hmore : maxLength bits = maxLength bits - 1 + 1 := by omega
  cases s with
  | unsigned =>
    obtain ⟨n, rfl⟩ := Int.eq_ofNat_of_zero_le hv.1
    exact encodes_unsigned_iff.2 (encodesUnsigned_unsignedBytes hmore (by exact_mod_cast hv.2))
  | signed => exact encodes_signed_iff.2 (encodesSigned_signedBytes hmore hv.1 hv.2)

/-- **A number has no other encodings than its padded runs.** -/
theorem Encodes.eq_paddedRun (h : s.Encodes bits v bs) : bs = paddedRun (bs.length - 1) v := by
  have hlen := List.length_pos_iff.2 h.isGroups.ne_nil
  obtain rfl := h.value_eq
  cases s with
  | unsigned => exact h.isGroups.eq_paddedRun_unsigned (by omega)
  | signed => exact h.isGroups.eq_paddedRun_signed (by omega)

/-- **A number has no encoding below the length of the shortest.** -/
theorem Encodes.length_shortest_le (h : s.Encodes bits v bs) (more : Nat) :
    (s.shortest more v).length ≤ bs.length := by
  obtain rfl := h.value_eq
  cases s with
  | unsigned => exact length_unsignedBytes_le_of_isGroups h.isGroups
  | signed => exact length_signedBytes_le_of_isGroups h.isGroups

end Signedness

/-! ## Readers -/

/-- A reader of the numbers of a width, into a type with the values `toInt`, that accepts exactly
the format: what it answers on any bytes, and where its cursor is then. -/
structure IsExact {α : Type} (s : Signedness) (bits : Nat) (toInt : α → Int)
    (read : Window → Nat → Except Error α × Nat) : Prop where
  /-- It succeeds on the encodings of its width and moves behind them. -/
  ok_iff : ∀ w pos word next, read w pos = (.ok word, next) ↔
    ∃ bs, w.Spells pos bs next ∧ s.Encodes bits (toInt word) bs
  /-- It fails on all that is refused, gives the reason and stays where it was. -/
  error_iff : ∀ w pos e next, read w pos = (.error e, next) ↔
    next = pos ∧ ∃ cause, e = .malformed cause ∧
      Refused w (maxLength bits) (fun bs => s.Holds bits (s.value bs)) pos cause
  /-- It inverts the padded encoder of each length. -/
  padded : ∀ w pos more v next, more < maxLength bits → s.Holds bits v →
    s.Holds (7 * (more + 1)) v → w.Spells pos (paddedRun more v) next →
      ∃ word, toInt word = v ∧ read w pos = (.ok word, next)
  /-- It inverts the encoder that does not pad. -/
  shortest : ∀ w pos v next, s.Holds bits v →
    w.Spells pos (s.shortest (maxLength bits - 1) v) next →
      ∃ word, toInt word = v ∧ read w pos = (.ok word, next)
  /-- There are no other encodings, and none is shorter than those of that encoder. -/
  encodings : ∀ v bs, s.Encodes bits v bs → bs = paddedRun (bs.length - 1) v ∧
    (s.shortest (maxLength bits - 1) v).length ≤ bs.length

section Readers

variable {α β : Type} {s : Signedness} {bits : Nat}

/-- A reader that succeeds on the encodings and otherwise gives the reason is exact, in every type
that its values fit. -/
theorem isExact_commit {read : Window → Nat → Except Error (β × Nat)} {toInt : α → Int}
    {narrow : β → α} (ofRaw : β → Int) (hpos : 0 < bits)
    (hok : ∀ w pos v next, read w pos = .ok (v, next) ↔
      ∃ bs, w.Spells pos bs next ∧ s.Encodes bits (ofRaw v) bs)
    (herror : ∀ w pos e, read w pos = .error e → ∃ cause, e = .malformed cause ∧
      Refused w (maxLength bits) (fun bs => s.Holds bits (s.value bs)) pos cause)
    (hnarrow : ∀ v, s.Holds bits (ofRaw v) → toInt (narrow v) = ofRaw v)
    (hinj : ∀ x y, toInt x = toInt y → x = y)
    (hraw : ∀ v, s.Holds bits v → ∃ r, ofRaw r = v) :
    IsExact s bits toInt fun w pos => commit pos (fun v => some (narrow v)) (read w pos) := by
  have hsome {w : Window} {pos next : Nat} {word : α} :
      commit pos (fun v => some (narrow v)) (read w pos) = (.ok word, next) ↔
        ∃ bs, w.Spells pos bs next ∧ s.Encodes bits (toInt word) bs := by
    rw [commit_eq_ok_iff]
    constructor
    · rintro ⟨r, hr, rfl⟩
      obtain ⟨bs, hs, henc⟩ := (hok w pos r next).1 hr
      exact ⟨bs, hs, (hnarrow r henc.holds).symm ▸ henc⟩
    · rintro ⟨bs, hs, henc⟩
      obtain ⟨r, hr⟩ := hraw _ henc.holds
      exact ⟨r, (hok w pos r next).2 ⟨bs, hs, hr ▸ henc⟩,
        hinj _ _ ((hnarrow r (hr ▸ henc.holds)).trans hr)⟩
  have hinvert {w : Window} {pos next : Nat} {v : Int} {bs : List UInt8}
      (henc : s.Encodes bits v bs) (hs : w.Spells pos bs next) :
      ∃ word, toInt word = v ∧
        commit pos (fun v => some (narrow v)) (read w pos) = (.ok word, next) := by
    obtain ⟨r, rfl⟩ := hraw v henc.holds
    have hword := hnarrow r henc.holds
    exact ⟨narrow r, hword, hsome.2 ⟨bs, hs, hword ▸ henc⟩⟩
  refine
    { ok_iff := fun w pos word next => hsome
      error_iff := fun w pos e next => commit_eq_error_iff.trans (and_congr_right fun _ =>
        ⟨herror w pos e, ?_⟩)
      padded := fun w pos more v next hmore hv hfits => hinvert (s.encodes_paddedRun hmore hv hfits)
      shortest := fun w pos v next hv => hinvert (s.encodes_shortest hpos hv)
      encodings := fun v bs henc => ⟨henc.eq_paddedRun, henc.length_shortest_le _⟩ }
  -- What is refused is no number, and the reader gives the one reason that there is.
  rintro ⟨cause, rfl, hcause⟩
  cases hr : read w pos with
  | error e' =>
    obtain ⟨cause', rfl, hcause'⟩ := herror w pos e' hr
    rw [hcause.unique hcause']
  | ok r =>
    obtain ⟨bs, hs, henc⟩ := (hok w pos r.1 r.2).1 hr
    exact absurd (henc.value_eq.symm ▸ henc.holds)
      (hcause.not_fits hs henc.isGroups henc.length_le)

/-- What the unsigned reader yields and why it fails, in the terms of `IsExact`. -/
theorem isExact_unsigned {narrow : Nat → α} {toInt : α → Int} (hpos : 0 < bits)
    (hnarrow : ∀ n, n < 2 ^ bits → toInt (narrow n) = n)
    (hinj : ∀ x y, toInt x = toInt y → x = y) :
    IsExact .unsigned bits toInt fun w pos =>
      commit pos (fun v => some (narrow v)) (readUnsigned bits w pos) := by
  refine isExact_commit Nat.cast hpos (fun w pos v next => ?_) (fun w pos e h => ?_)
    (fun n hn => hnarrow n (by exact_mod_cast hn.2)) hinj
    fun v hv => ⟨v.toNat, Int.toNat_of_nonneg hv.1⟩
  · simp only [readUnsigned_eq_ok_iff hpos, Signedness.encodes_unsigned_iff]
  · obtain ⟨cause, he, hcause⟩ := refused_of_readUnsigned hpos h
    refine ⟨cause, he, ?_⟩
    have hiff (bs : List UInt8) : Signedness.unsigned.Holds bits (Signedness.unsigned.value bs) ↔
        unsignedValue bs < 2 ^ bits := by
      change 0 ≤ (unsignedValue bs : Int) ∧ (unsignedValue bs : Int) < 2 ^ bits ↔ _
      exact ⟨fun h => by exact_mod_cast h.2, fun h => ⟨Int.natCast_nonneg _, by exact_mod_cast h⟩⟩
    simpa only [hiff] using hcause

/-- What the signed reader yields and why it fails, in the terms of `IsExact`. -/
theorem isExact_signed {narrow : Int → α} {toInt : α → Int} (hpos : 0 < bits)
    (hnarrow : ∀ v, -2 ^ (bits - 1) ≤ v → v < 2 ^ (bits - 1) → toInt (narrow v) = v)
    (hinj : ∀ x y, toInt x = toInt y → x = y) :
    IsExact .signed bits toInt fun w pos =>
      commit pos (fun v => some (narrow v)) (readSigned bits w pos) := by
  refine isExact_commit id hpos (fun w pos v next => ?_)
    (fun w pos e h => refused_of_readSigned hpos h) (fun v hv => hnarrow v hv.1 hv.2) hinj
    fun v _ => ⟨v, rfl⟩
  simp only [readSigned_eq_ok_iff hpos, Signedness.encodes_signed_iff, id]

theorem isExact_readUnsigned (hpos : 0 < bits) :
    IsExact .unsigned bits Nat.cast fun w pos => commit pos some (readUnsigned bits w pos) :=
  isExact_unsigned hpos (fun _ _ => rfl) fun _ _ => Int.ofNat_inj.1

theorem isExact_readSigned (hpos : 0 < bits) :
    IsExact .signed bits id fun w pos => commit pos some (readSigned bits w pos) :=
  isExact_signed hpos (fun _ _ _ => rfl) fun _ _ => id

theorem isExact_checkedU32 (hpos : 0 < bits) (hbits : bits ≤ 32) :
    IsExact .unsigned bits (fun word : UInt32 => word.toNat) (checkedU32 bits) := by
  have hexact : IsExact .unsigned bits (fun word : UInt32 => word.toNat) fun w pos =>
      commit pos (fun v : Nat => some v.toUInt32) (readUnsigned bits w pos) := by
    refine isExact_unsigned hpos (fun n hn => congrArg Nat.cast ?_) fun x y h =>
      UInt32.toNat_inj.1 (Int.ofNat_inj.1 h)
    exact UInt32.toNat_ofNat_of_lt' (Nat.lt_of_lt_of_le hn (Nat.pow_le_pow_right (by decide) hbits))
  simpa only [← checkedU32_eq hpos hbits] using hexact

/-- The numbers of a width are among those of a greater one. -/
theorem two_pow_pred_le {m n : Nat} (h : m ≤ n) : (2 : Int) ^ (m - 1) ≤ 2 ^ (n - 1) := by
  have hle : 2 ^ (m - 1) ≤ 2 ^ (n - 1) := Nat.pow_le_pow_right (by decide) (by omega)
  exact_mod_cast hle

theorem isExact_checkedI32 (hpos : 0 < bits) (hbits : bits ≤ 32) :
    IsExact .signed bits Int32.toInt (checkedI32 bits) := by
  have hpow := two_pow_pred_le hbits
  have hexact : IsExact .signed bits Int32.toInt fun w pos =>
      commit pos (fun v : Int => some (Int32.ofInt v)) (readSigned bits w pos) :=
    isExact_signed hpos (fun v hge hlt => Int32.toInt_ofInt_of_le (by omega) (by omega))
      fun x y => Int32.toInt_inj.1
  simpa only [← checkedI32_eq hpos hbits] using hexact

theorem isExact_checkedI64 (hpos : 0 < bits) (hbits : bits ≤ 64) :
    IsExact .signed bits Int64.toInt (checkedI64 bits) := by
  have hpow := two_pow_pred_le hbits
  have hexact : IsExact .signed bits Int64.toInt fun w pos =>
      commit pos (fun v : Int => some (Int64.ofInt v)) (readSigned bits w pos) :=
    isExact_signed hpos (fun v hge hlt => Int64.toInt_ofInt_of_le (by omega) (by omega))
      fun x y => Int64.toInt_inj.1
  simpa only [← checkedI64_eq hpos hbits] using hexact

end Readers

/-- **The checked readers accept exactly the format**, of each width that a module contains: flags
of one bit, unsigned numbers of 32 bits and signed ones of 32, 33 and 64 bits.  It holds of the
readers of the decoder, whose numbers have no bound, and of the readers in machine words. -/
theorem checkedReaders_isExact :
    (IsExact .unsigned 1 Nat.cast fun w pos => commit pos some (readUnsigned 1 w pos)) ∧
    (IsExact .unsigned 32 Nat.cast fun w pos => commit pos some (readUnsigned 32 w pos)) ∧
    (IsExact .signed 32 id fun w pos => commit pos some (readSigned 32 w pos)) ∧
    (IsExact .signed 33 id fun w pos => commit pos some (readSigned 33 w pos)) ∧
    (IsExact .signed 64 id fun w pos => commit pos some (readSigned 64 w pos)) ∧
    IsExact .unsigned 1 (fun word : UInt32 => word.toNat) (checkedU32 1) ∧
    IsExact .unsigned 32 (fun word : UInt32 => word.toNat) (checkedU32 32) ∧
    IsExact .signed 32 Int32.toInt (checkedI32 32) ∧
    IsExact .signed 33 Int64.toInt (checkedI64 33) ∧
    IsExact .signed 64 Int64.toInt (checkedI64 64) :=
  ⟨isExact_readUnsigned (by decide), isExact_readUnsigned (by decide),
    isExact_readSigned (by decide), isExact_readSigned (by decide), isExact_readSigned (by decide),
    isExact_checkedU32 (by decide) (by decide), isExact_checkedU32 (by decide) (by decide),
    isExact_checkedI32 (by decide) (by decide), isExact_checkedI64 (by decide) (by decide),
    isExact_checkedI64 (by decide) (by decide)⟩

end WasmEngine.Leb128
