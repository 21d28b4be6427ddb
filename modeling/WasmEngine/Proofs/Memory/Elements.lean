import WasmEngine.Proofs.Memory.Typed

/-!
# Proofs/Memory/Elements — elements read together, by their pointers, and written one at a time

The address of an element is computed in three ways: a read of many elements cuts its bytes into
pieces, a pointer is moved on by a checked product and sum of words, and a typed access goes to the
address that it is given.  They come to the same address (`GuestPtr.offset?_eq_some_iff`), so that an
element read by its pointer is the one read among the others, and one written there replaces that one
alone: `Memory.elements_agree`.
-/

namespace WasmEngine

variable {t : GuestType}

/-! ## Addresses of elements -/

namespace GuestPtr

variable {p q : GuestPtr t} {i : UInt32}

/-- **The pointer `i` elements on** has their size added to its address, in unbounded numbers. -/
theorem offset?_eq_some_iff :
    p.offset? i = some q ↔ q.addr.toNat = p.addr.toNat + i.toNat * t.size := by
  have hq := q.addr.toNat_lt
  constructor
  · intro h
    rw [offset?] at h
    split at h
    next hfits =>
      obtain rfl := Option.some.inj h
      have hword : (i.toNat * t.size).toUInt32.toNat = i.toNat * t.size :=
        Nat.mod_eq_of_lt hfits.1
      rw [UInt32.toNat_add, hword]
      exact Nat.mod_eq_of_lt hfits.2
    next => cases h
  · intro h
    have hsum : p.addr.toNat + i.toNat * t.size < UInt32.size := h ▸ hq
    have hword : (i.toNat * t.size).toUInt32.toNat = i.toNat * t.size :=
      Nat.mod_eq_of_lt (Nat.lt_of_le_of_lt (Nat.le_add_left ..) hsum)
    have haddr : p.addr + (i.toNat * t.size).toUInt32 = q.addr := by
      refine UInt32.toNat_inj.1 ?_
      rw [UInt32.toNat_add, hword, h]
      exact Nat.mod_eq_of_lt hsum
    have hbytes := Nat.lt_of_le_of_lt (Nat.le_add_left (i.toNat * t.size) p.addr.toNat) hsum
    rw [offset?, if_pos ⟨hbytes, hsum⟩, haddr]

/-- There is such a pointer exactly if that address is a word. -/
theorem exists_offset?_iff :
    (∃ q, p.offset? i = some q) ↔ p.addr.toNat + i.toNat * t.size < UInt32.size :=
  ⟨fun ⟨q, hq⟩ => offset?_eq_some_iff.1 hq ▸ q.addr.toNat_lt,
    fun h => ⟨⟨.ofNatLT _ h⟩, offset?_eq_some_iff.2 UInt32.toNat_ofNatLT⟩⟩

end GuestPtr

namespace Memory

/-- The bytes of an element lie behind those of the elements before it, and before the end of all. -/
theorem element_within {len i : Nat} (start n : Nat) (hi : i < len) :
    (ByteRange.ofLength (start + i * n) n).Within (.ofLength start (len * n)) := by
  have hle := Nat.mul_le_mul_right n (Nat.succ_le_of_lt hi)
  rw [Nat.succ_mul] at hle
  simp only [ByteRange.Within, ByteRange.start_ofLength, ByteRange.stop_ofLength]
  omega

/-- Two elements share no byte. -/
theorem elements_apart {i j : Nat} (start n : Nat) (h : i ≠ j) :
    (ByteRange.ofLength (start + i * n) n).Apart (.ofLength (start + j * n) n) := by
  simp only [ByteRange.Apart, ByteRange.start_ofLength, ByteRange.stop_ofLength]
  rcases Nat.lt_or_gt_of_ne h with hlt | hlt
  all_goals
    have hle := Nat.mul_le_mul_right n (Nat.succ_le_of_lt hlt)
    rw [Nat.succ_mul] at hle
    omega

/-! ## Reading -/

variable {m m' : Memory} {p q : GuestPtr t} {len i : UInt32} {vs : List t.Value}

/-- The value that the bytes at an address encode. -/
def valueAt (m : Memory) (t : GuestType) (start : Nat) : t.Value :=
  t.decode (m.data.extract start (start + t.size)).toList

theorem readTyped_eq_ok_of_le (ht : t.size < UInt32.size) (h : q.addr.toNat + t.size ≤ m.size) :
    m.readTyped q = .ok (m.valueAt t q.addr.toNat) := by
  rw [readTyped_eq m ht, if_pos h]
  rfl

/-- **Many elements are read** exactly if all of them lie in memory, one value for each. -/
theorem readSlice_eq_ok_iff (ht : t.size < UInt32.size) (hne : t.size ≠ 0) :
    m.readSlice p len = .ok vs ↔ p.addr.toNat + len.toNat * t.size ≤ m.size ∧
      vs = (List.range len.toNat).map fun i => m.valueAt t (p.addr.toNat + i * t.size) := by
  have hpiece (i : Nat) : p.addr.toNat + (i + 1) * t.size = p.addr.toNat + i * t.size + t.size := by
    rw [Nat.succ_mul, Nat.add_assoc]
  simp only [readSlice_eq m ht hne, hpiece]
  by_cases hfits : p.addr.toNat + len.toNat * t.size ≤ m.size
  · simp only [hfits, if_true, true_and, Except.ok.injEq]
    exact eq_comm
  · simp only [hfits, if_false, false_and, reduceCtorEq]

/-! ## Writing -/

/-- A value is the same where no byte of it has changed. -/
theorem valueAt_of_changesOnly {r : ByteRange} {start : Nat} (h : ChangesOnly [r] m m')
    (hfits : start + t.size ≤ m.size) (hr : (ByteRange.ofLength start t.size).Apart r) :
    m'.valueAt t start = m.valueAt t start := by
  have hsame : SameOn (.ofLength start t.size) m m' :=
    h.sameOn fun s hs => List.mem_singleton.1 hs ▸ hr
  have hpiece : m'.data.extract start (start + t.size) = m.data.extract start (start + t.size) :=
    extract_congr hfits (Nat.le_trans hfits (Nat.le_of_eq h.size.symm)) fun i hi hi' =>
      hsame i ⟨hi, hi'⟩
  rw [valueAt, valueAt, hpiece]

/-- **Writing one element** replaces its value among those of all elements. -/
theorem readSlice_of_written (ht : t.size < UInt32.size) (hne : t.size ≠ 0)
    (h : m.readSlice p len = .ok vs) (hi : i < len)
    (hq : q.addr.toNat = p.addr.toNat + i.toNat * t.size) {v : t.Value}
    (hchanges : ChangesOnly [.ofLength q.addr.toNat t.size] m m') (hv : m'.readTyped q = .ok v) :
    m'.readSlice p len = .ok (vs.set i.toNat v) := by
  obtain ⟨hfits, rfl⟩ := (readSlice_eq_ok_iff ht hne).1 h
  refine (readSlice_eq_ok_iff ht hne).2 ⟨hchanges.size.symm ▸ hfits, ?_⟩
  have hle {j : Nat} (hj : j < len.toNat) : p.addr.toNat + j * t.size + t.size ≤ m.size :=
    Nat.le_trans (element_within p.addr.toNat t.size hj).2 hfits
  have hwritten : m'.valueAt t q.addr.toNat = v := by
    have hread := readTyped_eq_ok_of_le (m := m') (q := q) ht
      (hchanges.size.symm ▸ hq ▸ hle (UInt32.lt_iff_toNat_lt.1 hi))
    exact Except.ok.inj (hread.symm.trans hv)
  refine List.ext_getElem (by simp) fun j hj hj' => ?_
  have hlt : j < len.toNat := by simpa using hj'
  simp only [List.getElem_set, List.getElem_map, List.getElem_range]
  split
  next heq => rw [← heq, ← hq, hwritten]
  next hother =>
    exact (valueAt_of_changesOnly hchanges (hle hlt)
      (hq ▸ elements_apart _ _ (Ne.symm hother))).symm

/-! ## Agreement -/

/-- **Elements agree.**  Of many elements that were read, each is at the sum of the address and the sizes
of the elements before it, and has a pointer exactly if that sum is a word; in a memory of at most 65536
pages it always is, in a larger one it may not be (`elements_beyond_words`).  A typed read at the pointer
yields the element, and a typed write there succeeds, replaces the element among all of them and changes
no byte outside of it. -/
theorem elements_agree (m : Memory) (ht : t.size < UInt32.size) (hne : t.size ≠ 0) (p : GuestPtr t)
    (len : UInt32) {vs : List t.Value} (h : m.readSlice p len = .ok vs) :
    vs.length = len.toNat ∧ ∀ i < len,
      ((∃ q, p.offset? i = some q) ↔ p.addr.toNat + i.toNat * t.size < UInt32.size) ∧
      (m.size ≤ maxPages * pageSize → ∃ q, p.offset? i = some q) ∧
      ∀ q, p.offset? i = some q →
        q.addr.toNat = p.addr.toNat + i.toNat * t.size ∧
        (∃ v, vs[i.toNat]? = some v ∧ m.readTyped q = .ok v) ∧
        ∀ v, ∃ m', writeTyped q v m = .ok () m' ∧ m'.readSlice p len = .ok (vs.set i.toNat v) ∧
          ChangesOnly [.ofLength q.addr.toNat t.size] m m' := by
  obtain ⟨hfits, hvs⟩ := (readSlice_eq_ok_iff ht hne).1 h
  refine ⟨by rw [hvs, List.length_map, List.length_range], fun i hi => ?_⟩
  have hlt : i.toNat < len.toNat := UInt32.lt_iff_toNat_lt.1 hi
  have hwithin : p.addr.toNat + i.toNat * t.size + t.size ≤ m.size :=
    Nat.le_trans (element_within p.addr.toNat t.size hlt).2 hfits
  refine ⟨GuestPtr.exists_offset?_iff, fun hsize => ?_, fun q hq => ?_⟩
  · refine GuestPtr.exists_offset?_iff.2 (Nat.lt_of_lt_of_le ?_ (Nat.le_trans hwithin hsize))
    exact Nat.lt_add_of_pos_right (Nat.pos_of_ne_zero hne)
  · have haddr := GuestPtr.offset?_eq_some_iff.1 hq
    rw [← haddr] at hwithin
    refine ⟨haddr, ⟨_, ?_, readTyped_eq_ok_of_le ht hwithin⟩, fun v => ?_⟩
    · rw [hvs, List.getElem?_map, List.getElem?_range hlt, Option.map_some, haddr]
    · obtain ⟨m', hwrite, hchanges, hread⟩ :=
        exists_writeTyped v (Nat.lt_trans ht (by decide)) hwithin
      exact ⟨m', hwrite, readSlice_of_written ht hne h hi haddr hchanges hread, hchanges⟩

/-- The last two structures of a page, the second of which is written. -/
theorem elements_agree_page : ∃ vs : List (GuestType.array (.scalar .u16) 3).Value,
    (Memory.new 1 1).readSlice ⟨65524⟩ 2 = .ok vs ∧ vs.length = 2 ∧
    ∃ q, GuestPtr.offset? (⟨65524⟩ : GuestPtr (.array (.scalar .u16) 3)) 1 = some q ∧
      ∀ v, ∃ m', writeTyped q v (Memory.new 1 1) = .ok () m' ∧
        m'.readSlice ⟨65524⟩ 2 = .ok (vs.set 1 v) := by
  have hsize : (Memory.new 1 1).size = 65536 := (IsPaged.new 1 1).size
  have ht : (GuestType.array (.scalar .u16) 3).size < UInt32.size := by decide
  have hne : (GuestType.array (.scalar .u16) 3).size ≠ 0 := by decide
  have hread : (Memory.new 1 1).readSlice (⟨65524⟩ : GuestPtr (.array (.scalar .u16) 3)) 2 = .ok _ :=
    (readSlice_eq_ok_iff ht hne).2 ⟨by rw [hsize]; decide, rfl⟩
  obtain ⟨hlength, hall⟩ := elements_agree _ ht hne _ _ hread
  obtain ⟨-, hoffset, hagree⟩ := hall 1 (by decide)
  obtain ⟨q, hq⟩ := hoffset (by rw [hsize]; decide)
  refine ⟨_, hread, hlength, q, hq, fun v => ?_⟩
  obtain ⟨m', hwrite, hslice, -⟩ := (hagree q hq).2.2 v
  exact ⟨m', hwrite, hslice⟩

/-- **In a memory of more than 65536 pages** elements are read together where the second one has no
pointer. -/
theorem elements_beyond_words :
    (∃ vs, (Memory.new 65537 65536).readSlice (⟨0xffffffff⟩ : GuestPtr (.scalar .u8)) 2 = .ok vs ∧
      vs.length = 2) ∧
    GuestPtr.offset? (⟨0xffffffff⟩ : GuestPtr (.scalar .u8)) 1 = none := by
  have hsize : (Memory.new 65537 65536).size = 65537 * 65536 := (IsPaged.new 65537 65536).size
  have ht : (GuestType.scalar .u8).size < UInt32.size := by decide
  refine ⟨⟨_, (readSlice_eq_ok_iff ht (by decide)).2 ⟨?_, rfl⟩, List.length_map ..⟩, by decide⟩
  rw [hsize]
  decide

end Memory

end WasmEngine
