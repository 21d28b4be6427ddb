import WasmEngine.Guest.Access
import WasmEngine.Proofs.Memory.Accesses

/-!
# Proofs/Memory/Typed — typed accesses are checked as a whole

A typed read or write checks the range of its value, in unbounded numbers, and so does a read of many
elements: `Memory.readTyped_eq`, `Memory.writeTyped_sets`, `Memory.readSlice_eq`.  Elements without
bytes are an exception, since nothing is read for them: any number of them can be read from an
address outside memory (`Memory.readSlice_outside`), where one of them cannot.
-/

namespace WasmEngine.Memory

variable {t : GuestType}

/-- The range of a value of a type whose size is a word. -/
theorem read_size (m : Memory) (ht : t.size < UInt32.size) (ptr : UInt32) :
    m.read ptr t.size.toUInt64 =
      if ptr.toNat + t.size ≤ m.size then .ok (m.data.extract ptr.toNat (ptr.toNat + t.size))
      else .error (.trap .memoryOutOfBounds) := by
  rw [read_eq m ptr (Nat.lt_trans ht (by decide))]
  by_cases hfits : ptr.toNat + t.size ≤ m.size
  · rw [if_neg (Nat.not_lt.2 hfits), if_pos hfits]
  · rw [if_pos (Nat.lt_of_not_le hfits), if_neg hfits]

/-- **A typed read** yields the value that the bytes of its range encode. -/
theorem readTyped_eq (m : Memory) (ht : t.size < UInt32.size) (p : GuestPtr t) :
    m.readTyped p =
      if p.addr.toNat + t.size ≤ m.size then
        .ok (t.decode (m.data.extract p.addr.toNat (p.addr.toNat + t.size)).toList)
      else .error (.trap .memoryOutOfBounds) := by
  rw [readTyped, read_size m ht]
  split <;> rfl

/-- **A typed write** sets the bytes of its range to those that encode the value. -/
theorem writeTyped_sets (m : Memory) (ht : t.size < UInt32.size) (p : GuestPtr t) (v : t.Value) :
    (writeTyped p v).Sets m (p.addr.toNat + t.size ≤ m.size) (.ofLength p.addr.toNat t.size)
      fun i => (t.encode v)[i - p.addr.toNat]?.getD 0 := by
  have hsize : (⟨(t.encode v).toArray⟩ : ByteArray).size = t.size := by
    rw [ByteArray.size, List.size_toArray, t.length_encode]
  have hlt : (⟨(t.encode v).toArray⟩ : ByteArray).size < 2 ^ 63 :=
    hsize.symm ▸ Nat.lt_trans ht (by decide)
  have hsets := write_sets m p.addr hlt
  have hbyte (i : Nat) : (⟨(t.encode v).toArray⟩ : ByteArray)[i]? = (t.encode v)[i]? := by
    rw [getElem?_eq_data, List.getElem?_toArray]
  simp only [hsize, hbyte] at hsets
  exact hsets

/-- **A read of many elements** yields them all, if all of them lie in memory. -/
theorem readSlice_eq (m : Memory) (ht : t.size < UInt32.size) (hne : t.size ≠ 0) (p : GuestPtr t)
    (len : UInt32) : m.readSlice p len =
      if p.addr.toNat + len.toNat * t.size ≤ m.size then
        .ok ((List.range len.toNat).map fun i => t.decode (m.data.extract
          (p.addr.toNat + i * t.size) (p.addr.toNat + (i + 1) * t.size)).toList)
      else .error (.trap .memoryOutOfBounds) := by
  -- The product of two words and a third word come to less than a double word.
  have hmul : t.size * len.toNat ≤ (UInt32.size - 1) * (UInt32.size - 1) :=
    Nat.mul_le_mul (Nat.le_pred_of_lt ht) (Nat.le_pred_of_lt len.toNat_lt)
  have hptr := p.addr.toNat_lt
  simp only [UInt32.size] at hmul
  have hwidth : (t.size * len.toNat).toUInt64.toNat = t.size * len.toNat :=
    Nat.mod_eq_of_lt (by omega)
  have hmod : (p.addr.toNat + t.size * len.toNat) % 2 ^ 64 = p.addr.toNat + t.size * len.toNat :=
    Nat.mod_eq_of_lt (by omega)
  rw [readSlice, if_neg hne, read_eq_mod, hwidth, hmod, Nat.mul_comm len.toNat]
  by_cases hfits : p.addr.toNat + t.size * len.toNat ≤ m.size
  · rw [if_pos hfits, if_pos hfits, if_pos hfits]
    refine congrArg Except.ok (List.map_congr_left fun i hi => ?_)
    have hle := Nat.mul_le_mul_right t.size (List.mem_range.1 hi)
    rw [Nat.mul_comm len.toNat] at hle
    rw [ByteArray.extract_extract, Nat.min_eq_left (Nat.add_le_add_left hle _)]
  · rw [if_neg hfits, if_neg hfits]
    rfl

/-- **Elements without bytes** are read from anywhere. -/
theorem readSlice_of_size_eq_zero (m : Memory) (h : t.size = 0) (p : GuestPtr t) (len : UInt32) :
    m.readSlice p len = .ok (List.replicate len.toNat (t.decode [])) := if_pos h

/-- **Typed accesses are exact.**  A typed read or write succeeds exactly if the range of its value
lies in memory, and a read of many elements of some size exactly if all of them do; what fails is out
of bounds and changes nothing.  In particular one element is read as a single value is.  Elements
without bytes are not checked. -/
theorem typed_accesses_exact (m : Memory) (ht : t.size < UInt32.size) (p : GuestPtr t) :
    (m.readTyped p = if p.addr.toNat + t.size ≤ m.size then
        .ok (t.decode (m.data.extract p.addr.toNat (p.addr.toNat + t.size)).toList)
      else .error (.trap .memoryOutOfBounds)) ∧
    (∀ v, (writeTyped p v).Sets m (p.addr.toNat + t.size ≤ m.size)
      (.ofLength p.addr.toNat t.size) fun i => (t.encode v)[i - p.addr.toNat]?.getD 0) ∧
    (t.size ≠ 0 → ∀ len, m.readSlice p len =
      if p.addr.toNat + len.toNat * t.size ≤ m.size then
        .ok ((List.range len.toNat).map fun i => t.decode (m.data.extract
          (p.addr.toNat + i * t.size) (p.addr.toNat + (i + 1) * t.size)).toList)
      else .error (.trap .memoryOutOfBounds)) ∧
    (t.size ≠ 0 → m.readSlice p 1 = (m.readTyped p).map ([·])) ∧
    (t.size = 0 → ∀ len, m.readSlice p len = .ok (List.replicate len.toNat (t.decode []))) := by
  refine ⟨m.readTyped_eq ht p, m.writeTyped_sets ht p, fun hne => m.readSlice_eq ht hne p,
    fun hne => ?_, fun h => m.readSlice_of_size_eq_zero h p⟩
  rw [m.readSlice_eq ht hne, m.readTyped_eq ht]
  simp only [UInt32.toNat_one, Nat.one_mul]
  split
  · simp [Except.map, List.range_succ]
  · rfl

/-- The last word of a page, and the word behind it. -/
theorem typed_accesses_exact_page : (GuestType.scalar .u32).size < UInt32.size ∧
    (Memory.new 1 1).readSlice (⟨65532⟩ : GuestPtr (.scalar .u32)) 1 =
      ((Memory.new 1 1).readTyped (⟨65532⟩ : GuestPtr (.scalar .u32))).map ([·]) ∧
    (Memory.new 1 1).readSlice (⟨65532⟩ : GuestPtr (.scalar .u32)) 2 =
      .error (.trap .memoryOutOfBounds) := by
  have hsize : (Memory.new 1 1).size = 65536 := (IsPaged.new 1 1).size
  have ht : (GuestType.scalar .u32).size < UInt32.size := by decide
  obtain ⟨-, -, hslice, hone, -⟩ :=
    typed_accesses_exact (.new 1 1) ht (⟨65532⟩ : GuestPtr (.scalar .u32))
  exact ⟨ht, hone (by decide), (hslice (by decide) 2).trans (if_neg (by rw [hsize]; decide))⟩

/-- **An array without elements is read from behind the end of memory**, if it is read as one of
many; alone it is out of bounds there. -/
theorem readSlice_outside :
    (Memory.new 1 1).size < 65537 + 1 * (GuestType.array (.scalar .u32) 0).size ∧
    (Memory.new 1 1).readTyped (⟨65537⟩ : GuestPtr (.array (.scalar .u32) 0)) =
      .error (.trap .memoryOutOfBounds) ∧
    (Memory.new 1 1).readSlice (⟨65537⟩ : GuestPtr (.array (.scalar .u32) 0)) 1 = .ok [#v[]] := by
  have hsize : (Memory.new 1 1).size = 65536 := (IsPaged.new 1 1).size
  refine ⟨by rw [hsize]; decide, ?_, rfl⟩
  rw [readTyped_eq _ (by decide), if_neg (by rw [hsize]; decide)]

end WasmEngine.Memory
