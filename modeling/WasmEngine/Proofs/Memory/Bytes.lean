import WasmEngine.Guest.Access
import WasmEngine.Module.Basic
import WasmEngine.Proofs.Guest.Codec

/-!
# Proofs/Memory/Bytes — what an access reads and what it changes

An access is described by a range of bytes.  A read depends on its range alone, and what is stored
in a range is read back from it: `Memory.exists_store`, `Memory.exists_writeTyped`.  All other bytes
stay as they are, which `Memory.ChangesOnly` says of a write and `Memory.SameOn` of one range.
-/

namespace WasmEngine

/-! ## Ranges -/

namespace ByteRange

/-- The `n` positions from `start` on. -/
def ofLength (start n : Nat) : ByteRange := ⟨start, start + n⟩

instance : Membership Nat ByteRange := ⟨fun r i => r.start ≤ i ∧ i < r.stop⟩

@[simp] theorem mem_iff {r : ByteRange} {i : Nat} : i ∈ r ↔ r.start ≤ i ∧ i < r.stop := Iff.rfl

@[simp] theorem start_ofLength (start n : Nat) : (ofLength start n).start = start := rfl

@[simp] theorem stop_ofLength (start n : Nat) : (ofLength start n).stop = start + n := rfl

/-- One range lies inside another. -/
def Within (r s : ByteRange) : Prop := s.start ≤ r.start ∧ r.stop ≤ s.stop

/-- One range ends before the other starts. -/
def Apart (r s : ByteRange) : Prop := r.stop ≤ s.start ∨ s.stop ≤ r.start

instance (r s : ByteRange) : Decidable (r.Within s) := inferInstanceAs (Decidable (_ ∧ _))

instance (r s : ByteRange) : Decidable (r.Apart s) := inferInstanceAs (Decidable (_ ∨ _))

variable {r s t : ByteRange} {i : Nat}

theorem Within.refl (r : ByteRange) : r.Within r := ⟨Nat.le_refl _, Nat.le_refl _⟩

theorem Within.trans (h : r.Within s) (h' : s.Within t) : r.Within t :=
  ⟨Nat.le_trans h'.1 h.1, Nat.le_trans h.2 h'.2⟩

/-- What is in a part is in the whole. -/
theorem Within.mem (h : r.Within s) (hi : i ∈ r) : i ∈ s :=
  ⟨Nat.le_trans h.1 hi.1, Nat.lt_of_lt_of_le hi.2 h.2⟩

theorem Apart.symm (h : r.Apart s) : s.Apart r := Or.symm h

/-- Parts of ranges that are apart are apart. -/
theorem Apart.within_left (h : s.Apart t) (hr : r.Within s) : r.Apart t := by
  unfold Apart Within at *
  omega

theorem Apart.within_right (h : t.Apart s) (hr : r.Within s) : t.Apart r :=
  (h.symm.within_left hr).symm

/-- Ranges that are apart share no byte. -/
theorem Apart.not_mem (h : r.Apart s) (hi : i ∈ r) : i ∉ s := by
  simp only [Apart, mem_iff] at *
  omega

end ByteRange

namespace Memory

variable {m m₁ m₂ m₃ : Memory} {r s : ByteRange}

/-! ## What stays -/

/-- The bytes of a range are those of the other memory. -/
def SameOn (r : ByteRange) (m₁ m₂ : Memory) : Prop := ∀ i ∈ r, m₂.data[i]? = m₁.data[i]?

theorem SameOn.refl (r : ByteRange) (m : Memory) : SameOn r m m := fun _ _ => rfl

theorem SameOn.trans (h : SameOn r m₁ m₂) (h' : SameOn r m₂ m₃) : SameOn r m₁ m₃ :=
  fun i hi => (h' i hi).trans (h i hi)

/-- What is the same on a range is so on each part. -/
theorem SameOn.within (h : SameOn s m₁ m₂) (hr : r.Within s) : SameOn r m₁ m₂ :=
  fun i hi => h i (hr.mem hi)

/-- A memory of the same size and limits whose bytes outside of the ranges are the same. -/
structure ChangesOnly (rs : List ByteRange) (m₁ m₂ : Memory) : Prop where
  size : m₂.size = m₁.size
  pages : m₂.pages = m₁.pages
  maximum : m₂.maximum = m₁.maximum
  same : ∀ i, (∀ r ∈ rs, i ∉ r) → m₂.data[i]? = m₁.data[i]?

theorem ChangesOnly.refl (rs : List ByteRange) (m : Memory) : ChangesOnly rs m m :=
  ⟨rfl, rfl, rfl, fun _ _ => rfl⟩

variable {rs ss : List ByteRange}

/-- Changes of some ranges, one after the other, are changes of these ranges. -/
theorem ChangesOnly.trans (h : ChangesOnly rs m₁ m₂) (h' : ChangesOnly rs m₂ m₃) :
    ChangesOnly rs m₁ m₃ where
  size := h'.size.trans h.size
  pages := h'.pages.trans h.pages
  maximum := h'.maximum.trans h.maximum
  same := fun i hi => (h'.same i hi).trans (h.same i hi)

/-- The ranges may be larger than need be. -/
theorem ChangesOnly.mono (h : ChangesOnly rs m₁ m₂) (hrs : ∀ r ∈ rs, ∃ s ∈ ss, r.Within s) :
    ChangesOnly ss m₁ m₂ where
  size := h.size
  pages := h.pages
  maximum := h.maximum
  same := by
    intro i hi
    refine h.same i fun r hr hmem => ?_
    obtain ⟨s, hs, hwithin⟩ := hrs r hr
    exact hi s hs (hwithin.mem hmem)

theorem ChangesOnly.of_within (h : ChangesOnly [r] m₁ m₂) (hr : r.Within s) (hs : s ∈ ss) :
    ChangesOnly ss m₁ m₂ :=
  h.mono fun _ hr' => ⟨s, hs, List.mem_singleton.1 hr' ▸ hr⟩

/-- Two changes, one after the other. -/
theorem ChangesOnly.trans_pair (h : ChangesOnly [r] m₁ m₂) (h' : ChangesOnly [s] m₂ m₃) :
    ChangesOnly [r, s] m₁ m₃ :=
  (h.of_within (.refl r) List.mem_cons_self).trans
    (h'.of_within (.refl s) (List.mem_cons_of_mem _ List.mem_cons_self))

/-- Apart from the ranges nothing changes. -/
theorem ChangesOnly.sameOn (h : ChangesOnly rs m₁ m₂)
    (hr : ∀ s ∈ rs, r.Apart s) : SameOn r m₁ m₂ :=
  fun i hi => h.same i fun s hs => (hr s hs).not_mem hi

/-! ## Numbers in byte arrays -/

theorem getElem?_eq_data (bytes : ByteArray) (i : Nat) : bytes[i]? = bytes.data[i]? := rfl

theorem getElem?_set (bytes : ByteArray) (pos : Nat) (b : UInt8) (h : pos < bytes.size) (i : Nat) :
    (bytes.set pos b h)[i]? = if pos = i then some b else bytes[i]? :=
  Array.getElem?_set h

/-- Encoding a number leaves the bytes before and behind it. -/
theorem getElem?_encodeLE (bytes : ByteArray) {pos v n i : Nat} (h : i < pos ∨ pos + n ≤ i) :
    (encodeLE bytes pos v n)[i]? = bytes[i]? := by
  induction n generalizing bytes pos v with
  | zero => rfl
  | succ n ih =>
    rw [encodeLE, ih _ (by omega)]
    split
    · rw [getElem?_set, if_neg (by omega)]
    · rfl

/-- A number depends on its bytes alone. -/
theorem decodeLE_congr {bytes bytes' : ByteArray} {pos n : Nat}
    (h : ∀ i, pos ≤ i → i < pos + n → bytes'[i]? = bytes[i]?) :
    decodeLE bytes' pos n = decodeLE bytes pos n := by
  induction n generalizing pos with
  | zero => rfl
  | succ n ih =>
    rw [decodeLE, decodeLE, h pos (Nat.le_refl _) (by omega),
      ih fun i hi hi' => h i (by omega) (by omega)]

/-- **What is encoded is decoded again**, up to the bytes that it does not fit in. -/
theorem decodeLE_encodeLE (bytes : ByteArray) {pos n : Nat} (v : Nat) (h : pos + n ≤ bytes.size) :
    decodeLE (encodeLE bytes pos v n) pos n = v % 256 ^ n := by
  induction n generalizing bytes pos v with
  | zero => rw [decodeLE, Nat.pow_zero, Nat.mod_one]
  | succ n ih =>
    have hlt : pos < bytes.size := by omega
    rw [encodeLE, dif_pos hlt, decodeLE, getElem?_encodeLE _ (Or.inl (Nat.lt_succ_self _)),
      getElem?_set, if_pos rfl, ih _ _ (by rw [size_set]; omega), Nat.pow_succ,
      Nat.mul_comm (256 ^ n), Nat.mod_mul]
    simp

/-- Zeros encode zero. -/
theorem decodeLE_eq_zero {bytes : ByteArray} {pos n : Nat}
    (h : ∀ i : Nat, bytes[i]?.getD 0 = 0) :
    decodeLE bytes pos n = 0 := by
  induction n generalizing pos with
  | zero => rfl
  | succ n ih => rw [decodeLE, h, ih, UInt8.toNat_zero]

/-! ## Ranges of byte arrays -/

/-- Copying a whole array into another replaces one piece of that. -/
theorem copySlice_eq (src dst : ByteArray) (pos : Nat) :
    src.copySlice 0 dst pos src.size =
      dst.extract 0 pos ++ src ++ dst.extract (pos + src.size) dst.size := by
  rw [ByteArray.copySlice_eq_append, Nat.zero_add, ByteArray.extract_zero_size, Nat.sub_zero]
  exact congrArg (fun n => dst.extract 0 pos ++ src ++ dst.extract (pos + n) dst.size)
    (Nat.min_self _)

/-- A slice that fits is copied without a change of size. -/
theorem size_copySlice {src dst : ByteArray} {pos : Nat} (h : pos + src.size ≤ dst.size) :
    (src.copySlice 0 dst pos src.size).size = dst.size := by
  rw [copySlice_eq, ByteArray.size_append, ByteArray.size_append, ByteArray.size_extract,
    ByteArray.size_extract]
  omega

/-- The copied piece is the copied array. -/
theorem extract_copySlice {src dst : ByteArray} {pos : Nat} (h : pos + src.size ≤ dst.size) :
    (src.copySlice 0 dst pos src.size).extract pos (pos + src.size) = src := by
  have hpos : (dst.extract 0 pos).size = pos := by
    rw [ByteArray.size_extract]
    omega
  have hpiece := ByteArray.extract_append_size_add' (a := dst.extract 0 pos)
    (b := src ++ dst.extract (pos + src.size) dst.size) (i := 0) (j := src.size) hpos.symm
  rw [copySlice_eq, ByteArray.append_assoc]
  exact hpiece.trans (ByteArray.extract_append_eq_left rfl)

/-- Outside of it the bytes stay. -/
theorem getElem?_copySlice {src dst : ByteArray} {pos i : Nat} (h : pos + src.size ≤ dst.size)
    (hi : i < pos ∨ pos + src.size ≤ i) :
    (src.copySlice 0 dst pos src.size)[i]? = dst[i]? := by
  have hsize : src.data.size = src.size := rfl
  have hsize' : dst.data.size = dst.size := rfl
  rw [copySlice_eq, getElem?_eq_data, getElem?_eq_data, ByteArray.data_append,
    ByteArray.data_append, ByteArray.data_extract, ByteArray.data_extract]
  simp only [Array.getElem?_append, Array.getElem?_extract, Array.size_append,
    Array.size_extract, hsize, hsize']
  rcases hi with hi | hi
  · simp (disch := omega) only [if_pos]
    rw [Nat.zero_add]
  · have hi' : pos + src.size + (i - (min pos dst.size - 0 + src.size)) = i := by omega
    simp (disch := omega) only [if_neg]
    rw [hi']
    split
    · rfl
    · exact (Array.getElem?_eq_none (by omega)).symm

/-- Inside the copied piece stands the copied array. -/
theorem getElem?_copySlice_add {src dst : ByteArray} {pos i : Nat}
    (h : pos + src.size ≤ dst.size) (hi : i < src.size) :
    (src.copySlice 0 dst pos src.size)[pos + i]? = src[i]? := by
  have hsize : src.data.size = src.size := rfl
  have hsize' : dst.data.size = dst.size := rfl
  rw [copySlice_eq, getElem?_eq_data, getElem?_eq_data, ByteArray.data_append,
    ByteArray.data_append, ByteArray.data_extract, ByteArray.data_extract]
  simp only [Array.getElem?_append, Array.size_append, Array.size_extract, hsize, hsize']
  rw [if_pos (by omega), if_neg (by omega)]
  exact congrArg (src.data[·]?) (by omega)

/-- A piece of an array depends on its bytes alone. -/
theorem extract_congr {bytes bytes' : ByteArray} {start stop : Nat} (hsize : stop ≤ bytes.size)
    (hsize' : stop ≤ bytes'.size)
    (h : ∀ i, start ≤ i → i < stop → bytes'[i]? = bytes[i]?) :
    bytes'.extract start stop = bytes.extract start stop := by
  apply ByteArray.ext_getElem
  · rw [ByteArray.size_extract, ByteArray.size_extract, Nat.min_eq_left hsize,
      Nat.min_eq_left hsize']
  · intro i hi hi'
    rw [ByteArray.size_extract, Nat.min_eq_left hsize'] at hi
    have hbyte := h (start + i) (Nat.le_add_right ..) (by omega)
    rw [getElem?_pos bytes' (start + i) (by omega), getElem?_pos bytes (start + i) (by omega)]
      at hbyte
    rw [ByteArray.getElem_extract, ByteArray.getElem_extract]
    exact Option.some.inj hbyte

/-! ## Accesses -/

/-- The bounds check, in unbounded numbers. -/
theorem effective_eq (m : Memory) (ptr offset : UInt32) {n : Nat} (hn : n < 2 ^ 63) :
    m.effective ptr offset n.toUInt64 =
      if m.size < ptr.toNat + offset.toNat + n then .error (.trap .memoryOutOfBounds)
      else .ok (ptr.toNat + offset.toNat) := by
  have hptr := ptr.toNat_lt
  have hoffset := offset.toNat_lt
  have hwidth : n.toUInt64.toNat = n := Nat.mod_eq_of_lt (Nat.lt_trans hn (by decide))
  have hsum : (ptr.toUInt64 + offset.toUInt64).toNat = ptr.toNat + offset.toNat := by
    rw [UInt64.toNat_add, UInt32.toNat_toUInt64, UInt32.toNat_toUInt64]
    omega
  have hstop : (ptr.toUInt64 + offset.toUInt64 + n.toUInt64).toNat =
      ptr.toNat + offset.toNat + n := by
    rw [UInt64.toNat_add, hsum, hwidth]
    omega
  simp only [effective, hsum, hstop]

theorem effective_eq_ok {ptr offset : UInt32} {n : Nat} (hn : n < 2 ^ 63)
    (h : ptr.toNat + offset.toNat + n ≤ m.size) :
    m.effective ptr offset n.toUInt64 = .ok (ptr.toNat + offset.toNat) := by
  rw [effective_eq m ptr offset hn, if_neg (Nat.not_lt.2 h)]

/-- A load succeeds exactly on bytes of the memory, and yields their number. -/
theorem load_eq_ok_iff {n v : Nat} {ptr offset : UInt32} (hn : n < 2 ^ 63) :
    m.load n ptr offset = .ok v ↔
      ptr.toNat + offset.toNat + n ≤ m.size ∧
        v = decodeLE m.data (ptr.toNat + offset.toNat) n := by
  by_cases hle : ptr.toNat + offset.toNat + n ≤ m.size
  · simp only [load, effective_eq_ok hn hle, Except.ok.injEq, hle, true_and]
    exact eq_comm
  · simp only [load, effective_eq m ptr offset hn, if_pos (Nat.lt_of_not_le hle), hle]
    simp

/-- A load depends on its range alone. -/
theorem load_of_sameOn {n v : Nat} {ptr offset : UInt32} (hn : n < 2 ^ 63)
    (h : m₁.load n ptr offset = .ok v) (hsize : m₁.size ≤ m₂.size)
    (hsame : SameOn (.ofLength (ptr.toNat + offset.toNat) n) m₁ m₂) :
    m₂.load n ptr offset = .ok v := by
  rw [load_eq_ok_iff hn] at h ⊢
  refine ⟨Nat.le_trans h.1 hsize, h.2.trans (decodeLE_congr fun i hi hi' => ?_).symm⟩
  exact hsame i ⟨hi, hi'⟩

/-- **A store within bounds** changes its range, from which the number is loaded again. -/
theorem exists_store {n : Nat} (ptr offset : UInt32) (v : Nat) (hn : n < 2 ^ 63)
    (h : ptr.toNat + offset.toNat + n ≤ m.size) :
    ∃ m', store n ptr offset v m = .ok () m' ∧
      ChangesOnly [.ofLength (ptr.toNat + offset.toNat) n] m m' ∧
      m'.load n ptr offset = .ok (v % 256 ^ n) := by
  refine ⟨{ m with data := encodeLE m.data (ptr.toNat + offset.toNat) v n }, ?_, ?_, ?_⟩
  · rw [store, effective_eq_ok hn h]
  · refine ⟨size_encodeLE .., rfl, rfl, fun i hi => getElem?_encodeLE _ ?_⟩
    have hout := hi _ List.mem_cons_self
    simp only [ByteRange.mem_iff, ByteRange.start_ofLength, ByteRange.stop_ofLength] at hout
    omega
  · rw [load_eq_ok_iff hn]
    exact ⟨Nat.le_trans h (Nat.le_of_eq (size_encodeLE ..).symm), (decodeLE_encodeLE _ v h).symm⟩

/-- So does a read, which yields the bytes. -/
theorem read_eq (m : Memory) (ptr : UInt32) {n : Nat} (hn : n < 2 ^ 63) :
    m.read ptr n.toUInt64 =
      if m.size < ptr.toNat + n then .error (.trap .memoryOutOfBounds)
      else .ok (m.data.extract ptr.toNat (ptr.toNat + n)) := by
  have hwidth : n.toUInt64.toNat = n := Nat.mod_eq_of_lt (Nat.lt_trans hn (by decide))
  have haddr : m.effective ptr 0 n.toUInt64 =
      if m.size < ptr.toNat + n then .error (.trap .memoryOutOfBounds) else .ok ptr.toNat :=
    effective_eq m ptr 0 hn
  rw [read, haddr, hwidth]
  by_cases hlt : m.size < ptr.toNat + n
  · simp only [if_pos hlt]
  · simp only [if_neg hlt, if_pos (Nat.le_of_not_lt hlt)]

/-- A read depends on its range alone. -/
theorem read_of_sameOn {ptr : UInt32} {n : Nat} {bytes : ByteArray} (hn : n < 2 ^ 63)
    (h : m₁.read ptr n.toUInt64 = .ok bytes) (hsize : m₁.size ≤ m₂.size)
    (hsame : SameOn (.ofLength ptr.toNat n) m₁ m₂) : m₂.read ptr n.toUInt64 = .ok bytes := by
  rw [read_eq _ _ hn] at h ⊢
  split at h
  · cases h
  · rename_i hle
    have hle₁ := Nat.le_of_not_lt hle
    have hle₂ := Nat.le_trans hle₁ hsize
    have hpiece := extract_congr hle₁ hle₂ fun i hi hi' => hsame i ⟨hi, hi'⟩
    rw [if_neg (Nat.not_lt.2 hle₂), ← h]
    exact congrArg Except.ok hpiece

theorem write_eq_ok {ptr : UInt32} {bytes : ByteArray} (hn : bytes.size < 2 ^ 63)
    (h : ptr.toNat + bytes.size ≤ m.size) :
    write ptr bytes m =
      .ok () { m with data := bytes.copySlice 0 m.data ptr.toNat bytes.size } := by
  have haddr : m.effective ptr 0 bytes.size.toUInt64 = .ok ptr.toNat :=
    effective_eq m ptr 0 hn |>.trans (if_neg (Nat.not_lt.2 h))
  rw [write, haddr]

/-- **A write within bounds** changes its range, from which the bytes are read again. -/
theorem exists_write (ptr : UInt32) (bytes : ByteArray) (hn : bytes.size < 2 ^ 63)
    (h : ptr.toNat + bytes.size ≤ m.size) :
    ∃ m', write ptr bytes m = .ok () m' ∧
      ChangesOnly [.ofLength ptr.toNat bytes.size] m m' ∧
      m'.read ptr bytes.size.toUInt64 = .ok bytes := by
  have hsize : (bytes.copySlice 0 m.data ptr.toNat bytes.size).size = m.size := size_copySlice h
  refine ⟨{ m with data := bytes.copySlice 0 m.data ptr.toNat bytes.size }, write_eq_ok hn h,
    ?_, ?_⟩
  · refine ⟨hsize, rfl, rfl, fun i hi => getElem?_copySlice h ?_⟩
    have hout := hi _ List.mem_cons_self
    simp only [ByteRange.mem_iff, ByteRange.start_ofLength, ByteRange.stop_ofLength] at hout
    omega
  · have hle : ¬(bytes.copySlice 0 m.data ptr.toNat bytes.size).size <
        ptr.toNat + bytes.size := hsize ▸ Nat.not_lt.2 h
    rw [read_eq _ _ hn, size, if_neg hle, extract_copySlice h]

/-! ## Growth -/

theorem getElem?_addPages (data : ByteArray) (n : Nat) {i : Nat} (h : i < data.size) :
    (addPages data n)[i]? = data[i]? := by
  induction n generalizing data with
  | zero => rfl
  | succ n ih =>
    have hle : i < (data ++ zeroPage).size := by
      rw [ByteArray.size_append]
      omega
    rw [addPages, ih _ hle, getElem?_pos _ i hle, getElem?_pos _ i h,
      ByteArray.getElem_append_left h]

/-- New pages read as zeros. -/
theorem getD_addPages (data : ByteArray) (n i : Nat) :
    (addPages data n)[i]?.getD 0 = data[i]?.getD 0 := by
  induction n generalizing data with
  | zero => rfl
  | succ n ih =>
    rw [addPages, ih, getElem?_eq_data, getElem?_eq_data, ByteArray.data_append,
      Array.getElem?_append]
    split
    · rfl
    · rename_i hge
      rw [Array.getElem?_eq_none (Nat.le_of_not_lt hge), zeroPage, Array.getElem?_replicate]
      split <;> rfl

/-- Growth adds bytes behind the old ones. -/
theorem sameOn_grow (m : Memory) (delta : Nat) (h : r.stop ≤ m.size) :
    SameOn r m (m.grow delta).2 := by
  intro i hi
  unfold grow
  split
  · rfl
  · split
    · rfl
    · exact getElem?_addPages _ _ (Nat.lt_of_lt_of_le hi.2 h)

theorem size_le_size_grow (m : Memory) (delta : Nat) : m.size ≤ (m.grow delta).2.size := by
  cases hold : (m.grow delta).1 with
  | none => exact Nat.le_of_eq (congrArg size (grow_of_none hold)).symm
  | some old =>
    rw [size_grow_of_some hold]
    exact Nat.le_add_right ..

theorem pages_grow_of_some {delta old : Nat} (h : (m.grow delta).1 = some old) :
    old = m.pages ∧ (m.grow delta).2.pages = m.pages + delta := by
  unfold grow at h ⊢
  by_cases hdelta : delta = 0
  · rw [if_pos hdelta] at h ⊢
    exact ⟨(Option.some.inj h).symm, by rw [hdelta, Nat.add_zero]⟩
  · rw [if_neg hdelta] at h ⊢
    by_cases hmaximum : m.maximum - m.pages < delta
    · rw [if_pos hmaximum] at h
      cases h
    · rw [if_neg hmaximum] at h ⊢
      exact ⟨(Option.some.inj h).symm, rfl⟩

theorem grow_of_le {delta : Nat} (h : delta ≤ m.maximum - m.pages) :
    (m.grow delta).1 = some m.pages := by
  unfold grow
  split
  · rfl
  · rw [if_neg (Nat.not_lt.2 h)]

theorem maximum_grow (m : Memory) (delta : Nat) : (m.grow delta).2.maximum = m.maximum := by
  unfold grow
  split
  · rfl
  · split <;> rfl

/-- Growth that adds pages stays below the maximum. -/
theorem le_maximum_of_grow {delta old : Nat} (h : (m.grow delta).1 = some old)
    (hdelta : 0 < delta) : m.pages + delta ≤ m.maximum := by
  unfold grow at h
  split at h
  · omega
  · split at h
    · cases h
    · omega

/-- A memory of whole pages that addresses of 32 bits reach once it has grown. -/
structure IsPaged (m : Memory) : Prop where
  size : m.size = m.pages * pageSize
  maximum : m.maximum ≤ maxPages

theorem IsPaged.new (initial maximum : Nat) : (Memory.new initial maximum).IsPaged where
  size := by
    have h := size_addPages .empty initial
    rwa [ByteArray.size_empty, Nat.zero_add] at h
  maximum := Nat.min_le_right ..

theorem IsPaged.grow (h : m.IsPaged) (delta : Nat) : (m.grow delta).2.IsPaged where
  size := by
    cases hold : (m.grow delta).1 with
    | none =>
      rw [grow_of_none hold]
      exact h.size
    | some old =>
      rw [size_grow_of_some hold, (pages_grow_of_some hold).2, h.size, Nat.add_mul]
  maximum := Nat.le_trans (Nat.le_of_eq (maximum_grow m delta)) h.maximum

theorem IsPaged.of_eq (h : m₁.IsPaged) (hsize : m₂.size = m₁.size) (hpages : m₂.pages = m₁.pages)
    (hmaximum : m₂.maximum = m₁.maximum) : m₂.IsPaged where
  size := by rw [hsize, hpages, h.size]
  maximum := hmaximum ▸ h.maximum

/-! ## Typed accesses -/

variable {t : GuestType} {p : GuestPtr t} {v : t.Value}

theorem readTyped_eq_ok_iff :
    m.readTyped p = .ok v ↔
      ∃ bytes, m.read p.addr t.size.toUInt64 = .ok bytes ∧ t.decode bytes.toList = v := by
  rw [readTyped]
  cases m.read p.addr t.size.toUInt64 <;> simp [Except.map]

/-- A typed read depends on its range alone. -/
theorem readTyped_of_sameOn (ht : t.size < 2 ^ 63) (h : m₁.readTyped p = .ok v)
    (hsize : m₁.size ≤ m₂.size) (hsame : SameOn (.ofLength p.addr.toNat t.size) m₁ m₂) :
    m₂.readTyped p = .ok v := by
  rw [readTyped_eq_ok_iff] at h ⊢
  obtain ⟨bytes, hbytes, hv⟩ := h
  exact ⟨bytes, read_of_sameOn ht hbytes hsize hsame, hv⟩

/-- **A typed write within bounds** changes its range, from which the value is read again. -/
theorem exists_writeTyped (v : t.Value) (ht : t.size < 2 ^ 63)
    (h : p.addr.toNat + t.size ≤ m.size) :
    ∃ m', writeTyped p v m = .ok () m' ∧
      ChangesOnly [.ofLength p.addr.toNat t.size] m m' ∧ m'.readTyped p = .ok v := by
  let bytes : ByteArray := ⟨(t.encode v).toArray⟩
  have hlen : bytes.size = t.size := by
    rw [ByteArray.size, List.size_toArray, t.length_encode]
  have hbytes : bytes.toList = t.encode v := by
    rw [toList_eq_data, List.toList_toArray]
  obtain ⟨m', hwrite, hchanges, hread⟩ := exists_write p.addr bytes
    (by rw [hlen]; exact ht) (by rw [hlen]; exact h)
  refine ⟨m', hwrite, hlen ▸ hchanges, readTyped_eq_ok_iff.2 ⟨bytes, hlen ▸ hread, ?_⟩⟩
  have hdecode := t.decode_encode_append v []
  rwa [List.append_nil, ← hbytes] at hdecode

end Memory

end WasmEngine
