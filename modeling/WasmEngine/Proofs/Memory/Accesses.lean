import Mathlib.Data.Nat.Digits.Defs
import WasmEngine.Machine.Access
import WasmEngine.Proofs.Memory.Bytes

/-!
# Proofs/Memory/Accesses — accesses are all or nothing

Memory is an array of bytes.  A load that fits yields the little-endian number of its bytes, an update
that fits sets the bytes of its range and no other (`Memory.Update.Sets`), and whatever does not fit
is out of bounds and changes nothing: `Memory.access_all_or_nothing`.  What fits is decided in
unbounded numbers as long as the sum of address and width is a word.  A wider read can get past the
check: `Memory.read_exact`.
-/

namespace WasmEngine

instance (r : ByteRange) (i : Nat) : Decidable (i ∈ r) :=
  inferInstanceAs (Decidable (r.start ≤ i ∧ i < r.stop))

/-! ## Numbers -/

namespace LoadOp

/-- The number that a load makes of the bytes it reads: a signed load reads two's complement. -/
def number (op : LoadOp) (n : Nat) : Int :=
  if op.signed then (n : Int).bmod (256 ^ (1 <<< op.logWidth)) else n

/-- The number of bits of the result of a load. -/
def bits (op : LoadOp) : Nat :=
  match op.type with
  | .i32 | .f32 => 32
  | .i64 | .f64 => 64

theorem pow_width (op : LoadOp) : 256 ^ (1 <<< op.logWidth) = 2 ^ (8 <<< op.logWidth) := by
  rw [Nat.shiftLeft_eq, Nat.shiftLeft_eq, Nat.one_mul, Nat.pow_mul]

/-- No load reads more bits than its result has. -/
theorem width_le_bits : ∀ op ∈ all, 8 <<< op.logWidth ≤ op.bits := by decide

theorem toNat_signExtend_ofNat {n w : Nat} (bits : Nat) (h : n < 2 ^ w) :
    (((BitVec.ofNat w n).signExtend bits).toNat : Int) = (n : Int).bmod (2 ^ w) % 2 ^ bits := by
  have hpos : (0 : Int) ≤ (n : Int).bmod (2 ^ w) % ((2 ^ bits : Nat) : Int) :=
    Int.emod_nonneg _ (by positivity)
  rw [BitVec.signExtend, BitVec.toNat_ofInt, BitVec.toInt_eq_toNat_bmod, BitVec.toNat_ofNat,
    Nat.mod_eq_of_lt h, Int.toNat_of_nonneg hpos, Nat.cast_pow, Nat.cast_ofNat]

/-- **A number that is loaded is extended to the width of the result**, with zeros above. -/
theorem toNat_extend {op : LoadOp} (h : op ∈ all) {n : Nat} (hn : n < 256 ^ (1 <<< op.logWidth)) :
    ((op.extend n).toNat : Int) = op.number n % 2 ^ op.bits := by
  rw [pow_width] at hn
  have hle : 2 ^ (8 <<< op.logWidth) ≤ 2 ^ op.bits :=
    Nat.pow_le_pow_right Nat.two_pos (width_le_bits op h)
  cases hs : op.signed with
  | true =>
    rw [number, if_pos hs, pow_width, ← toNat_signExtend_ofNat op.bits hn]
    simp only [extend, hs, if_true, bits]
    cases op.type <;> simp only [UInt32.toNat_toUInt64] <;> rfl
  | false =>
    have hbits : 2 ^ op.bits ≤ 2 ^ 64 :=
      Nat.pow_le_pow_right Nat.two_pos (by unfold bits; cases op.type <;> decide)
    have hslot : n.toUInt64.toNat = n := Nat.mod_eq_of_lt (by omega)
    simp only [number, extend, hs, Bool.false_eq_true, if_false, hslot]
    exact (Int.emod_eq_of_lt (Int.natCast_nonneg n) (by exact_mod_cast Nat.lt_of_lt_of_le hn hle)).symm

end LoadOp

namespace Memory

variable {m m' : Memory}

/-- The byte at a position, zero behind the end. -/
def byte (m : Memory) (i : Nat) : UInt8 := m.data[i]?.getD 0

/-- The little-endian number of the `n` bytes from a position on. -/
def numberAt (bytes : Nat → UInt8) (start n : Nat) : Nat :=
  Nat.ofDigits 256 ((List.range n).map fun i => (bytes (start + i)).toNat)

/-- A byte of a number, counted from the lowest. -/
def digit (v place : Nat) : UInt8 := (v / 256 ^ place).toUInt8

theorem numberAt_succ (bytes : Nat → UInt8) (start n : Nat) :
    numberAt bytes start (n + 1) = (bytes start).toNat + 256 * numberAt bytes (start + 1) n := by
  have hrest : (fun i => (bytes (start + (i + 1))).toNat) =
      fun i => (bytes (start + 1 + i)).toNat := by
    funext i
    rw [Nat.add_assoc, Nat.add_comm 1 i]
  rw [numberAt, List.range_succ_eq_map, List.map_cons, List.map_map, Nat.ofDigits_cons, numberAt,
    ← hrest]
  rfl

theorem numberAt_lt (bytes : Nat → UInt8) (start n : Nat) : numberAt bytes start n < 256 ^ n := by
  induction n generalizing start with
  | zero => exact Nat.one_pos
  | succ n ih =>
    have hbyte := (bytes start).toNat_lt
    have hrest := ih (start + 1)
    rw [numberAt_succ, Nat.pow_succ]
    omega

/-- **What is decoded is the little-endian number.** -/
theorem decodeLE_eq_numberAt (m : Memory) (pos n : Nat) :
    decodeLE m.data pos n = numberAt m.byte pos n := by
  induction n generalizing pos with
  | zero => rfl
  | succ n ih => rw [decodeLE, ih, numberAt_succ, byte]

theorem digit_succ (v place : Nat) : digit v (place + 1) = digit (v / 256) place := by
  rw [digit, digit, Nat.div_div_eq_div_mul, Nat.pow_succ, Nat.mul_comm]

/-- The bytes of a number make the number again, as far as they go. -/
theorem numberAt_digit (v start n : Nat) :
    numberAt (fun i => digit v (i - start)) start n = v % 256 ^ n := by
  induction n generalizing v start with
  | zero => exact (Nat.mod_one v).symm
  | succ n ih =>
    have hrest : numberAt (fun i => digit v (i - start)) (start + 1) n =
        numberAt (fun i => digit (v / 256) (i - (start + 1))) (start + 1) n := by
      refine congrArg (Nat.ofDigits 256) (List.map_congr_left fun i _ => ?_)
      simp only
      rw [show start + 1 + i - start = i + 1 by omega, digit_succ, Nat.add_sub_cancel_left]
    rw [numberAt_succ, hrest, ih, Nat.sub_self, digit, Nat.pow_zero, Nat.div_one, Nat.pow_succ,
      Nat.mul_comm (256 ^ n), Nat.mod_mul]
    simp

theorem numberAt_congr {bytes bytes' : Nat → UInt8} {start n : Nat}
    (h : ∀ i, start ≤ i → i < start + n → bytes' i = bytes i) :
    numberAt bytes' start n = numberAt bytes start n := by
  refine congrArg (Nat.ofDigits 256) (List.map_congr_left fun i hi => ?_)
  rw [h _ (Nat.le_add_right ..) (Nat.add_lt_add_left (List.mem_range.1 hi) _)]

/-! ## Updates of byte arrays, byte by byte -/

theorem getElem?_encodeLE_eq {bytes : ByteArray} {pos n : Nat} (v : Nat) (h : pos + n ≤ bytes.size)
    (i : Nat) : (encodeLE bytes pos v n)[i]? =
      if i ∈ ByteRange.ofLength pos n then some (digit v (i - pos)) else bytes[i]? := by
  induction n generalizing bytes pos v with
  | zero =>
    rw [if_neg fun hi => Nat.not_lt.2 hi.1 hi.2]
    rfl
  | succ n ih =>
    have hlt : pos < bytes.size := by omega
    rw [encodeLE, dif_pos hlt, ih _ (by rw [size_set]; omega), getElem?_set]
    simp only [ByteRange.mem_iff, ByteRange.start_ofLength, ByteRange.stop_ofLength]
    by_cases hi : pos = i
    · subst hi
      rw [if_neg (by omega), if_pos rfl, if_pos (by omega), Nat.sub_self, digit, Nat.pow_zero,
        Nat.div_one]
    · rw [if_neg hi]
      by_cases hin : pos + 1 ≤ i ∧ i < pos + 1 + n
      · rw [if_pos hin, if_pos (by omega), ← digit_succ]
        congr 2
        omega
      · rw [if_neg hin, if_neg (by omega)]

theorem getElem?_fillFrom {bytes : ByteArray} {pos n : Nat} (value : UInt8)
    (h : pos + n ≤ bytes.size) (i : Nat) : (fillFrom bytes pos value n)[i]? =
      if i ∈ ByteRange.ofLength pos n then some value else bytes[i]? := by
  induction n generalizing bytes pos with
  | zero =>
    rw [if_neg fun hi => Nat.not_lt.2 hi.1 hi.2]
    rfl
  | succ n ih =>
    have hlt : pos < bytes.size := by omega
    rw [fillFrom, dif_pos hlt, ih (by rw [size_set]; omega), getElem?_set]
    simp only [ByteRange.mem_iff, ByteRange.start_ofLength, ByteRange.stop_ofLength]
    by_cases hi : pos = i
    · subst hi
      rw [if_neg (by omega), if_pos rfl, if_pos (by omega)]
    · rw [if_neg hi]
      by_cases hin : pos + 1 ≤ i ∧ i < pos + 1 + n
      · rw [if_pos hin, if_pos (by omega)]
      · rw [if_neg hin, if_neg (by omega)]

theorem getElem?_copySlice_eq {src dst : ByteArray} {pos : Nat} (h : pos + src.size ≤ dst.size)
    (i : Nat) : (src.copySlice 0 dst pos src.size)[i]? =
      if i ∈ ByteRange.ofLength pos src.size then src[i - pos]? else dst[i]? := by
  simp only [ByteRange.mem_iff, ByteRange.start_ofLength, ByteRange.stop_ofLength]
  by_cases hi : pos ≤ i ∧ i < pos + src.size
  · obtain ⟨k, rfl⟩ := Nat.exists_eq_add_of_le hi.1
    rw [if_pos hi, Nat.add_sub_cancel_left]
    exact getElem?_copySlice_add h (by omega)
  · rw [if_neg hi]
    exact getElem?_copySlice h (by omega)

/-! ## Accesses -/

/-- An update is all or nothing: if it fits, it sets the bytes of a range and changes nothing else; if
it does not, it is out of bounds and changes nothing. -/
structure Update.Sets (op : Update Unit) (m : Memory) (fits : Prop) (r : ByteRange)
    (new : Nat → UInt8) : Prop where
  done : fits → ∃ m', op m = .ok () m' ∧
    m'.size = m.size ∧ m'.pages = m.pages ∧ m'.maximum = m.maximum ∧
      ∀ i, m'.data[i]? = if i ∈ r then some (new i) else m.data[i]?
  refused : ¬fits → op m = .error (.trap .memoryOutOfBounds) m

theorem effective_eq_error {ptr offset : UInt32} {n : Nat} (hn : n < 2 ^ 63)
    (h : ¬ptr.toNat + offset.toNat + n ≤ m.size) :
    m.effective ptr offset n.toUInt64 = .error (.trap .memoryOutOfBounds) := by
  rw [effective_eq m ptr offset hn, if_pos (Nat.lt_of_not_le h)]

/-- **A load** yields the number of its bytes. -/
theorem load_eq (m : Memory) {n : Nat} (ptr offset : UInt32) (hn : n < 2 ^ 63) :
    m.load n ptr offset =
      if ptr.toNat + offset.toNat + n ≤ m.size then
        .ok (numberAt m.byte (ptr.toNat + offset.toNat) n)
      else .error (.trap .memoryOutOfBounds) := by
  split
  · next h =>
    rw [← decodeLE_eq_numberAt, load, effective_eq_ok hn h]
  · next h => rw [load, effective_eq_error hn h]

theorem lt_of_load_eq_ok {n v : Nat} {ptr offset : UInt32} (hn : n < 2 ^ 63)
    (h : m.load n ptr offset = .ok v) : v < 256 ^ n := by
  rw [load_eq m ptr offset hn] at h
  split at h
  · cases h
    exact numberAt_lt ..
  · cases h

/-- A word that holds what its bytes make loses nothing of it. -/
theorem map_load {α : Type} {n : Nat} {ofNat : Nat → α} {toNat : α → Nat} (hn : n < 2 ^ 63)
    (h : ∀ v < 256 ^ n, toNat (ofNat v) = v) (ptr offset : UInt32) :
    ((m.load n ptr offset).map ofNat).map toNat = m.load n ptr offset := by
  cases hload : m.load n ptr offset with
  | error e => rfl
  | ok v => exact congrArg Except.ok (h v (lt_of_load_eq_ok hn hload))

/-- **A store** sets its bytes to those of the number. -/
theorem store_sets (m : Memory) {n : Nat} (ptr offset : UInt32) (v : Nat) (hn : n < 2 ^ 63) :
    (store n ptr offset v).Sets m (ptr.toNat + offset.toNat + n ≤ m.size)
      (.ofLength (ptr.toNat + offset.toNat) n) fun i => digit v (i - (ptr.toNat + offset.toNat)) where
  done h := by
    refine ⟨{ m with data := encodeLE m.data (ptr.toNat + offset.toNat) v n }, ?_,
      size_encodeLE .., rfl, rfl, getElem?_encodeLE_eq v h⟩
    rw [store, effective_eq_ok hn h]
  refused h := by rw [store, effective_eq_error hn h]

/-- **A write** sets its bytes to those that are written. -/
theorem write_sets (m : Memory) (ptr : UInt32) {bytes : ByteArray} (hn : bytes.size < 2 ^ 63) :
    (write ptr bytes).Sets m (ptr.toNat + bytes.size ≤ m.size) (.ofLength ptr.toNat bytes.size)
      fun i => bytes[i - ptr.toNat]?.getD 0 where
  done h := by
    refine ⟨_, write_eq_ok hn h, size_copySlice h, rfl, rfl, fun i => ?_⟩
    rw [getElem?_copySlice_eq h]
    split
    · next hi =>
      simp only [ByteRange.mem_iff, ByteRange.start_ofLength, ByteRange.stop_ofLength] at hi
      rw [getElem?_pos bytes (i - ptr.toNat) (by omega), Option.getD_some]
    · rfl
  refused h := by
    have haddr : m.effective ptr 0 bytes.size.toUInt64 = .error (.trap .memoryOutOfBounds) :=
      effective_eq_error hn h
    rw [write, haddr]

/-- The bounds check of a range of a 32-bit length. -/
theorem effective_length (m : Memory) (ptr len : UInt32) :
    m.effective ptr 0 len.toUInt64 =
      if ptr.toNat + len.toNat ≤ m.size then .ok ptr.toNat
      else .error (.trap .memoryOutOfBounds) := by
  have hlen : len.toUInt64 = len.toNat.toUInt64 := (UInt64.ofNat_uInt32ToNat len).symm
  have hlt : len.toNat < 2 ^ 63 := Nat.lt_trans len.toNat_lt (by decide)
  rw [hlen]
  split
  · next h => exact effective_eq_ok hlt h
  · next h => exact effective_eq_error hlt h

/-- **A fill** sets its bytes to one value. -/
theorem fill_sets (m : Memory) (ptr : UInt32) (value : UInt8) (len : UInt32) :
    (fill ptr value len).Sets m (ptr.toNat + len.toNat ≤ m.size) (.ofLength ptr.toNat len.toNat)
      fun _ => value where
  done h := by
    refine ⟨{ m with data := fillFrom m.data ptr.toNat value len.toNat }, ?_, size_fillFrom ..,
      rfl, rfl, getElem?_fillFrom value h⟩
    rw [fill, effective_length, if_pos h]
  refused h := by rw [fill, effective_length, if_neg h]

/-- **A copy** sets its bytes to what the source had before, wherever the two ranges lie. -/
theorem copy_sets (m : Memory) (dst src len : UInt32) :
    (copy dst src len).Sets m
      (src.toNat + len.toNat ≤ m.size ∧ dst.toNat + len.toNat ≤ m.size)
      (.ofLength dst.toNat len.toNat) fun i => m.byte (src.toNat + (i - dst.toNat)) where
  done h := by
    obtain ⟨hsrc, hdst⟩ := h
    let moved := m.data.extract src.toNat (src.toNat + len.toNat)
    have hmoved : moved.size = len.toNat := by
      rw [ByteArray.size_extract, Nat.min_eq_left (show _ ≤ m.data.size from hsrc),
        Nat.add_sub_cancel_left]
    have hfits : dst.toNat + moved.size ≤ m.data.size := hmoved ▸ hdst
    have hop : copy dst src len m =
        .ok () { m with data := moved.copySlice 0 m.data dst.toNat moved.size } := by
      rw [copy, effective_length, if_pos hsrc, effective_length, if_pos hdst, hmoved]
    refine ⟨_, hop, size_copySlice hfits, rfl, rfl, fun i => ?_⟩
    rw [getElem?_copySlice_eq hfits, hmoved]
    split
    · next hi =>
      simp only [ByteRange.mem_iff, ByteRange.start_ofLength, ByteRange.stop_ofLength] at hi
      have hi' : src.toNat + (i - dst.toNat) < m.data.size := by
        have hsize : m.data.size = m.size := rfl
        omega
      rw [byte, getElem?_pos m.data _ hi', getElem?_pos moved (i - dst.toNat) (by omega),
        ByteArray.getElem_extract, Option.getD_some]
    · rfl
  refused h := by
    rw [copy, effective_length]
    split
    · next heq =>
      split at heq
      · cases heq
      · cases heq
        rfl
    · next heq =>
      split at heq
      · next hsrc => rw [effective_length, if_neg fun hdst => h ⟨hsrc, hdst⟩]
      · cases heq

/-- What an update has set is read back, and the rest is what it was. -/
theorem byte_eq_of_sets {r : ByteRange} {new : Nat → UInt8}
    (h : ∀ i, m'.data[i]? = if i ∈ r then some (new i) else m.data[i]?) :
    m'.byte = fun i => if i ∈ r then new i else m.byte i := by
  funext i
  rw [byte, h]
  split <;> rfl

/-- **Accesses are all or nothing.**  A load that fits, in unbounded numbers, yields the little-endian
number of its bytes, and a load instruction extends it by its sign or by zeros.  A store, a write or a fill
that fits sets its bytes; so does a copy of which both ranges fit, to what the source had before.  What
does not fit is out of bounds and changes nothing.  After a store, a load of the same bytes yields what
was stored, and any other the mixture of the stored bytes and the old ones. -/
theorem access_all_or_nothing (m : Memory) :
    (∀ n ptr offset, n < 2 ^ 63 → m.load n ptr offset =
      if ptr.toNat + offset.toNat + n ≤ m.size then
        .ok (numberAt m.byte (ptr.toNat + offset.toNat) n)
      else .error (.trap .memoryOutOfBounds)) ∧
    (∀ ptr offset, (m.load8 ptr offset).map UInt8.toNat = m.load 1 ptr offset ∧
      (m.load16 ptr offset).map UInt16.toNat = m.load 2 ptr offset ∧
      (m.load32 ptr offset).map UInt32.toNat = m.load 4 ptr offset ∧
      (m.load64 ptr offset).map UInt64.toNat = m.load 8 ptr offset) ∧
    (∀ op ∈ LoadOp.all, ∀ ptr offset n, m.load (1 <<< op.logWidth) ptr offset = .ok n →
      ((op.extend n).toNat : Int) = op.number n % 2 ^ op.bits) ∧
    (∀ n ptr offset v, n < 2 ^ 63 → (store n ptr offset v).Sets m
      (ptr.toNat + offset.toNat + n ≤ m.size) (.ofLength (ptr.toNat + offset.toNat) n)
      fun i => digit v (i - (ptr.toNat + offset.toNat))) ∧
    (∀ ptr bytes, bytes.size < 2 ^ 63 → (write ptr bytes).Sets m
      (ptr.toNat + bytes.size ≤ m.size) (.ofLength ptr.toNat bytes.size)
      fun i => bytes[i - ptr.toNat]?.getD 0) ∧
    (∀ ptr value len, (fill ptr value len).Sets m
      (ptr.toNat + len.toNat ≤ m.size) (.ofLength ptr.toNat len.toNat) fun _ => value) ∧
    (∀ dst src len, (copy dst src len).Sets m
      (src.toNat + len.toNat ≤ m.size ∧ dst.toNat + len.toNat ≤ m.size)
      (.ofLength dst.toNat len.toNat) fun i => m.byte (src.toNat + (i - dst.toNat))) ∧
    ∀ n ptr offset v m', n < 2 ^ 63 → store n ptr offset v m = .ok () m' →
      m'.load n ptr offset = .ok (v % 256 ^ n) ∧
      ∀ k ptr' offset', k < 2 ^ 63 → m'.load k ptr' offset' =
        if ptr'.toNat + offset'.toNat + k ≤ m.size then
          .ok (numberAt (fun i => if i ∈ ByteRange.ofLength (ptr.toNat + offset.toNat) n then
            digit v (i - (ptr.toNat + offset.toNat)) else m.byte i) (ptr'.toNat + offset'.toNat) k)
        else .error (.trap .memoryOutOfBounds) := by
  refine ⟨fun n ptr offset hn => load_eq m ptr offset hn, fun ptr offset => ?_, ?_,
    fun n ptr offset v hn => store_sets m ptr offset v hn,
    fun ptr bytes hn => write_sets m ptr hn, fill_sets m, copy_sets m, ?_⟩
  · exact ⟨map_load (by decide) (fun _ h => Nat.mod_eq_of_lt h) ptr offset,
      map_load (by decide) (fun _ h => Nat.mod_eq_of_lt h) ptr offset,
      map_load (by decide) (fun _ h => Nat.mod_eq_of_lt h) ptr offset,
      map_load (by decide) (fun _ h => Nat.mod_eq_of_lt h) ptr offset⟩
  · intro op hop ptr offset n hload
    have hwidth : ∀ op ∈ LoadOp.all, 1 <<< op.logWidth < 2 ^ 63 := by decide
    exact LoadOp.toNat_extend hop (lt_of_load_eq_ok (hwidth op hop) hload)
  · intro n ptr offset v m' hn hstore
    have hsets := store_sets m ptr offset v hn
    by_cases hfits : ptr.toNat + offset.toNat + n ≤ m.size
    · obtain ⟨m₁, hdone, hsize, -, -, hbytes⟩ := hsets.done hfits
      cases hstore.symm.trans hdone
      have hload (k : Nat) (ptr' offset' : UInt32) (hk : k < 2 ^ 63) :=
        load_eq m' ptr' offset' hk
      simp only [byte_eq_of_sets hbytes, hsize] at hload
      refine ⟨?_, hload⟩
      rw [hload n ptr offset hn, if_pos hfits, ← numberAt_digit v (ptr.toNat + offset.toNat) n]
      exact congrArg Except.ok (numberAt_congr fun i hi hi' => if_pos ⟨hi, hi'⟩)
    · cases hstore.symm.trans (hsets.refused hfits)

/-- Four bytes of a page are stored and read back, all of them and two of them; at the end of the page none
is stored. -/
theorem access_all_or_nothing_sample : ∃ m',
    store 4 8 0 0x84030201 (.new 1 1) = .ok () m' ∧ m'.load 4 8 0 = .ok 0x84030201 ∧
      m'.load 2 10 0 = .ok 0x8403 ∧
      store 4 65534 0 0x84030201 (.new 1 1) = .error (.trap .memoryOutOfBounds) (.new 1 1) := by
  have hsize : (Memory.new 1 1).size = 65536 := (IsPaged.new 1 1).size
  obtain ⟨-, -, -, hstores, -, -, -, hloads⟩ := access_all_or_nothing (.new 1 1)
  obtain ⟨m', hstore, -⟩ := (hstores 4 8 0 0x84030201 (by decide)).done (by rw [hsize]; decide)
  obtain ⟨hsame, hmixed⟩ := hloads 4 8 0 0x84030201 m' (by decide) hstore
  refine ⟨m', hstore, hsame, ?_, ?_⟩
  · rw [hmixed 2 10 0 (by decide), if_pos (by rw [hsize]; decide)]
    rfl
  · exact (hstores 4 65534 0 0x84030201 (by decide)).refused (by rw [hsize]; decide)

/-! ## Wide reads -/

/-- The bounds check of a read sees the sum of address and width modulo the size of words. -/
theorem read_eq_mod (m : Memory) (ptr : UInt32) (width : UInt64) :
    m.read ptr width =
      if (ptr.toNat + width.toNat) % 2 ^ 64 ≤ m.size then
        if ptr.toNat + width.toNat ≤ m.size then
          .ok (m.data.extract ptr.toNat (ptr.toNat + width.toNat))
        else .error (.fault .invalidRange)
      else .error (.trap .memoryOutOfBounds) := by
  have hstart : (ptr.toUInt64 + (0 : UInt32).toUInt64).toNat = ptr.toNat := by
    rw [UInt64.toNat_add, UInt32.toNat_toUInt64, UInt32.toNat_toUInt64]
    exact Nat.mod_eq_of_lt (Nat.lt_trans ptr.toNat_lt (by decide))
  have heff : m.effective ptr 0 width = if m.size < (ptr.toNat + width.toNat) % 2 ^ 64 then
      .error (.trap .memoryOutOfBounds) else .ok ptr.toNat := by
    simp only [effective, UInt64.toNat_add _ width, hstart]
  rw [read, heff]
  by_cases h : (ptr.toNat + width.toNat) % 2 ^ 64 ≤ m.size
  · rw [if_neg (Nat.not_lt.2 h), if_pos h]
  · rw [if_pos (Nat.lt_of_not_le h), if_neg h]

/-- **A read is exact** if the sum of address and width is a word: it yields the bytes of its range if
they lie in memory, and is out of bounds if not.  Otherwise the check sees the sum without its carry. -/
theorem read_exact (m : Memory) (ptr : UInt32) (width : UInt64) :
    (ptr.toNat + width.toNat < 2 ^ 64 → m.read ptr width =
      if ptr.toNat + width.toNat ≤ m.size then
        .ok (m.data.extract ptr.toNat (ptr.toNat + width.toNat))
      else .error (.trap .memoryOutOfBounds)) ∧
    (2 ^ 64 ≤ ptr.toNat + width.toNat → m.size < 2 ^ 64 → m.read ptr width =
      if ptr.toNat + width.toNat - 2 ^ 64 ≤ m.size then .error (.fault .invalidRange)
      else .error (.trap .memoryOutOfBounds)) := by
  have hwidth := width.toNat_lt
  have hptr := ptr.toNat_lt
  rw [read_eq_mod]
  refine ⟨fun hlt => ?_, fun hle hsize => ?_⟩
  · rw [Nat.mod_eq_of_lt hlt]
    by_cases hfits : ptr.toNat + width.toNat ≤ m.size
    · rw [if_pos hfits, if_pos hfits, if_pos hfits]
    · rw [if_neg hfits, if_neg hfits]
  · have hmod : (ptr.toNat + width.toNat) % 2 ^ 64 = ptr.toNat + width.toNat - 2 ^ 64 := by omega
    have hbeyond : ¬ptr.toNat + width.toNat ≤ m.size := by omega
    rw [hmod, if_neg hbeyond]

/-- From the last address on, the sum of address and width is the last word, or one more. -/
theorem read_exact_sample :
    (Memory.new 1 1).read 4294967295 18446744069414584320 = .error (.trap .memoryOutOfBounds) ∧
      (Memory.new 1 1).read 4294967295 18446744069414584321 = .error (.fault .invalidRange) := by
  have hsize : (Memory.new 1 1).size = 65536 := (IsPaged.new 1 1).size
  have hnarrow := (read_exact (.new 1 1) 4294967295 18446744069414584320).1 (by decide)
  have hwide := (read_exact (.new 1 1) 4294967295 18446744069414584321).2 (by decide)
    (by rw [hsize]; decide)
  exact ⟨hnarrow.trans (if_neg (by rw [hsize]; decide)),
    hwide.trans (if_pos (by rw [hsize]; decide))⟩

/-- **A read of nearly all words** from address 1 on gets past the check and leaves the memory. -/
theorem read_past_check : (Memory.new 1 1).size < 1 + (2 ^ 64 - 1) ∧
    (Memory.new 1 1).read 1 18446744073709551615 = .error (.fault .invalidRange) := by
  have hsize : (Memory.new 1 1).size = 65536 := (IsPaged.new 1 1).size
  refine ⟨by rw [hsize]; decide, ?_⟩
  rw [read_eq_mod, hsize]
  rfl

end Memory

end WasmEngine
