import WasmEngine.Instr.Fetch
import WasmEngine.Proofs.Leb128.Exact

/-!
# Proofs/Leb128/Agreement — both families of readers in one type

The checked and the trusted readers of a type `Agrees` where the checked one succeeds, on runs of any
length that the width allows: `trustedReaders_agree`.
-/

namespace WasmEngine.Leb128

/-! ## The trusted readers of signed numbers -/

/-- Reads a signed 64-bit integer from validated code. -/
def trustedI64 (bytes : ByteArray) (pos : Nat) : Option (Int64 × Nat) :=
  (trustedSigned bytes pos).map fun r => (r.1.toInt64, r.2)

/-- Reads a signed 32-bit integer from validated code: the low half of one of 64 bits. -/
def trustedI32 (bytes : ByteArray) (pos : Nat) : Option (Int32 × Nat) :=
  (trustedSigned bytes pos).map fun r => (r.1.toUInt32.toInt32, r.2)

/-- A word that holds a number modulo `2 ^ 64` is that number in 64 bits. -/
theorem toInt64_eq_ofInt {word : UInt64} {v : Int} (h : (word.toNat : Int) = v % 2 ^ 64) :
    word.toInt64 = Int64.ofInt v := by
  rw [← Int64.toInt_inj, toInt_toInt64, h, Int64.toInt_ofInt, show Int64.size = 2 ^ 64 from rfl]
  exact Int.emod_bmod v (2 ^ 64)

/-- The low half of a word that holds a number modulo `2 ^ 64` is that number in 32 bits. -/
theorem toInt32_eq_ofInt {word : UInt64} {v : Int} (h : (word.toNat : Int) = v % 2 ^ 64) :
    word.toUInt32.toInt32 = Int32.ofInt v := by
  have hlow : (word.toUInt32.toNat : Int) = v % (2 ^ 32 : Nat) := by
    rw [UInt64.toNat_toUInt32]
    omega
  have hint : word.toUInt32.toInt32.toInt = (word.toUInt32.toNat : Int).bmod (2 ^ 32) :=
    BitVec.toInt_eq_toNat_bmod word.toUInt32.toBitVec
  rw [← Int32.toInt_inj, hint, hlow, Int.emod_bmod, Int32.toInt_ofInt,
    show Int32.size = 2 ^ 32 from rfl]

/-! ## Agreement -/

/-- A trusted reader finds what a checked reader of `bits` bits accepts. -/
structure Agrees {α : Type} (s : Signedness) (bits : Nat) (toInt : α → Int)
    (checked : Window → Nat → Except Error α × Nat)
    (trusted : ByteArray → Nat → Option (α × Nat)) : Prop where
  /-- Where the checked reader succeeds, the trusted one yields its number and stops where it does. -/
  of_ok : ∀ w pos v next, checked w pos = (.ok v, next) → trusted w.bytes pos = some (v, next)
  /-- Both read a number from its padded runs of all lengths. -/
  padded : ∀ w pos more v next, more < maxLength bits → s.Holds bits (toInt v) →
    s.Holds (7 * (more + 1)) (toInt v) → w.Spells pos (paddedRun more (toInt v)) next →
      checked w pos = (.ok v, next) ∧ trusted w.bytes pos = some (v, next)

section Agreement

variable {α : Type} {s : Signedness} {bits : Nat} {toInt : α → Int}

/-- An exact reader accepts the padded runs. -/
theorem agrees_of_isExact {checked : Window → Nat → Except Error α × Nat}
    {trusted : ByteArray → Nat → Option (α × Nat)} (hexact : IsExact s bits toInt checked)
    (hok : ∀ w pos v next, checked w pos = (.ok v, next) → trusted w.bytes pos = some (v, next)) :
    Agrees s bits toInt checked trusted where
  of_ok := hok
  padded w pos more v next hmore hv hfits hs := by
    have hread := (hexact.ok_iff w pos v next).2 ⟨_, hs, s.encodes_paddedRun hmore hv hfits⟩
    exact ⟨hread, hok w pos v next hread⟩

theorem agrees_u32 :
    Agrees .unsigned 32 (fun word : UInt32 => word.toNat) (checkedU32 32) trustedUnsigned := by
  refine agrees_of_isExact (isExact_checkedU32 (by decide) (by decide)) fun w pos v next h => ?_
  rw [checkedU32_eq (by decide) (by decide)] at h
  obtain ⟨n, hread, rfl⟩ := commit_eq_ok_iff.1 h
  exact trustedUnsigned_of_readUnsigned hread

theorem agrees_i32 : Agrees .signed 32 Int32.toInt (checkedI32 32) trustedI32 := by
  refine agrees_of_isExact (isExact_checkedI32 (by decide) (by decide)) fun w pos v next h => ?_
  rw [checkedI32_eq (by decide) (by decide)] at h
  obtain ⟨n, hread, rfl⟩ := commit_eq_ok_iff.1 h
  obtain ⟨word, hword, hv⟩ := trustedSigned_of_readSigned (by decide) (by decide) hread
  rw [trustedI32, hword, Option.map_some, toInt32_eq_ofInt hv]

theorem agrees_i64 : Agrees .signed 64 Int64.toInt (checkedI64 64) trustedI64 := by
  refine agrees_of_isExact (isExact_checkedI64 (by decide) (by decide)) fun w pos v next h => ?_
  rw [checkedI64_eq (by decide) (by decide)] at h
  obtain ⟨n, hread, rfl⟩ := commit_eq_ok_iff.1 h
  obtain ⟨word, hword, hv⟩ := trustedSigned_of_readSigned (by decide) (by decide) hread
  rw [trustedI64, hword, Option.map_some, toInt64_eq_ofInt hv]

theorem agrees_u32_nat :
    Agrees .unsigned 32 Nat.cast (fun w pos => commit pos some (readUnsigned 32 w pos))
      Fetch.u32 := by
  refine agrees_of_isExact (isExact_readUnsigned (by decide)) fun w pos v next h => ?_
  obtain ⟨n, hread, rfl⟩ := commit_eq_ok_iff.1 h
  obtain ⟨bs, -, hbs⟩ := (readUnsigned_eq_ok_iff (by decide)).1 hread
  simp only [Fetch.u32, trustedUnsigned_of_readUnsigned hread,
    show n.toUInt32.toNat = n from UInt32.toNat_ofNat_of_lt' hbs.lt]

theorem agrees_i32_int :
    Agrees .signed 32 id (fun w pos => commit pos some (readSigned 32 w pos))
      fun bytes pos => (trustedI32 bytes pos).map fun r => (r.1.toInt, r.2) := by
  refine agrees_of_isExact (isExact_readSigned (by decide)) fun w pos v next h => ?_
  obtain ⟨n, hread, rfl⟩ := commit_eq_ok_iff.1 h
  obtain ⟨bs, -, hbs⟩ := (readSigned_eq_ok_iff (by decide)).1 hread
  obtain ⟨word, hword, hv⟩ := trustedSigned_of_readSigned (by decide) (by decide) hread
  simp only [trustedI32, hword, Option.map_some, toInt32_eq_ofInt hv,
    Int32.toInt_ofInt_of_le hbs.ge hbs.lt]

theorem agrees_i64_int :
    Agrees .signed 64 id (fun w pos => commit pos some (readSigned 64 w pos))
      fun bytes pos => (trustedI64 bytes pos).map fun r => (r.1.toInt, r.2) := by
  refine agrees_of_isExact (isExact_readSigned (by decide)) fun w pos v next h => ?_
  obtain ⟨n, hread, rfl⟩ := commit_eq_ok_iff.1 h
  obtain ⟨bs, -, hbs⟩ := (readSigned_eq_ok_iff (by decide)).1 hread
  obtain ⟨word, hword, hv⟩ := trustedSigned_of_readSigned (by decide) (by decide) hread
  simp only [trustedI64, hword, Option.map_some, toInt64_eq_ofInt hv,
    Int64.toInt_ofInt_of_le hbs.ge hbs.lt]

end Agreement

/-- **The trusted readers agree with the checked ones**, of unsigned numbers of 32 bits and of signed
ones of 32 and 64 bits: in machine words, and for the numbers that the decoder reads and the
interpreter fetches. -/
theorem trustedReaders_agree :
    Agrees .unsigned 32 (fun word : UInt32 => word.toNat) (checkedU32 32) trustedUnsigned ∧
    Agrees .signed 32 Int32.toInt (checkedI32 32) trustedI32 ∧
    Agrees .signed 64 Int64.toInt (checkedI64 64) trustedI64 ∧
    Agrees .unsigned 32 Nat.cast (fun w pos => commit pos some (readUnsigned 32 w pos)) Fetch.u32 ∧
    Agrees .signed 32 id (fun w pos => commit pos some (readSigned 32 w pos))
      (fun bytes pos => (trustedI32 bytes pos).map fun r => (r.1.toInt, r.2)) ∧
    Agrees .signed 64 id (fun w pos => commit pos some (readSigned 64 w pos))
      (fun bytes pos => (trustedI64 bytes pos).map fun r => (r.1.toInt, r.2)) :=
  ⟨agrees_u32, agrees_i32, agrees_i64, agrees_u32_nat, agrees_i32_int, agrees_i64_int⟩

end WasmEngine.Leb128
