import WasmEngine.Proofs.Heap.Accounting
import WasmEngine.Proofs.Heap.Refusal
import WasmEngine.Proofs.Memory.Typed
import WasmEngine.Proofs.Numeric.Arithmetic

/-!
# Proofs/Heap/Corruption — a lost word of a header is noticed

The check word is a sum of the other three words, one of them rotated, so no two sound headers differ
in a single word (`BlockHeader.eq_of_isSound`).  A walk that succeeds has read a chain of sound
headers (`Memory.exists_hasBlocks_of_walkHeap`).  If one word of one of them is changed, the headers
in front of it still lead to it, and it is reported instead of being followed:
`Memory.changed_word_detected`.
-/

namespace WasmEngine

/-! ## Check words -/

namespace BlockHeader

/-- The words of a header in the order in which they lie in memory. -/
def word (h : BlockHeader) : Fin 4 → UInt32
  | 0 => h.size
  | 1 => h.next
  | 2 => h.free
  | 3 => h.check

theorem ext_word {h h' : BlockHeader} (hword : ∀ k, h'.word k = h.word k) : h' = h := by
  obtain ⟨size, next, free, check⟩ := h
  obtain ⟨size', next', free', check'⟩ := h'
  cases (hword 0 : size' = size)
  cases (hword 1 : next' = next)
  cases (hword 2 : free' = free)
  cases (hword 3 : check' = check)
  rfl

theorem toNat_rotate (w : UInt32) :
    (w <<< 7 ||| w >>> 25).toNat = w.toNat % 2 ^ 25 * 2 ^ 7 + w.toNat / 2 ^ 25 :=
  (IntBinOp.toNat_rotateLeft w.toBitVec (by decide : 7 < 32)).trans
    (congrArg (· + w.toNat / 2 ^ 25) (Nat.mul_mod_mul_right (2 ^ 7) w.toNat (2 ^ 25)))

theorem rotate_inj {x y : UInt32} (h : x <<< 7 ||| x >>> 25 = y <<< 7 ||| y >>> 25) : x = y := by
  have hnat := congrArg UInt32.toNat h
  have hx := x.toNat_lt
  have hy := y.toNat_lt
  rw [toNat_rotate, toNat_rotate] at hnat
  exact UInt32.toNat.inj (by omega)

/-- **No two sound headers differ in a single word.** -/
theorem eq_of_isSound {h h' : BlockHeader} (hsound : h.IsSound) (hsound' : h'.IsSound) (k : Fin 4)
    (hword : ∀ j, j ≠ k → h'.word j = h.word j) : h' = h := by
  obtain ⟨size, next, free, check⟩ := h
  obtain ⟨size', next', free', check'⟩ := h'
  have hcheck : check = checkWord size next free := hsound.2.2
  have hcheck' : check' = checkWord size' next' free' := hsound'.2.2
  have hsize (hk : (0 : Fin 4) ≠ k) : size' = size := hword 0 hk
  have hnext (hk : (1 : Fin 4) ≠ k) : next' = next := hword 1 hk
  have hfree (hk : (2 : Fin 4) ≠ k) : free' = free := hword 2 hk
  have hlast (hk : (3 : Fin 4) ≠ k) : check' = check := hword 3 hk
  -- The three words that agree cancel out of the equation between the check words.
  match k with
  | 0 =>
    cases hnext (by decide)
    cases hfree (by decide)
    rw [hcheck', hcheck, checkWord, checkWord, UInt32.xor_left_inj, UInt32.xor_left_inj,
      UInt32.xor_left_inj] at hlast
    cases hlast (by decide)
    rw [hcheck, hcheck']
  | 1 =>
    cases hsize (by decide)
    cases hfree (by decide)
    rw [hcheck', hcheck, checkWord, checkWord, UInt32.xor_left_inj, UInt32.xor_left_inj,
      UInt32.xor_right_inj] at hlast
    cases rotate_inj (hlast (by decide))
    rw [hcheck, hcheck']
  | 2 =>
    cases hsize (by decide)
    cases hnext (by decide)
    rw [hcheck', hcheck, checkWord, checkWord, UInt32.xor_left_inj, UInt32.xor_right_inj] at hlast
    cases hlast (by decide)
    rw [hcheck, hcheck']
  | 3 =>
    cases hsize (by decide)
    cases hnext (by decide)
    cases hfree (by decide)
    rw [hcheck, hcheck']

end BlockHeader

/-! ## The words of a header -/

namespace HeapBlock

/-- The bytes of one word of the header. -/
def wordRange (b : HeapBlock) (k : Fin 4) : ByteRange := .ofLength (b.addr.toNat + 4 * k) 4

theorem wordRange_within (b : HeapBlock) (k : Fin 4) : (b.wordRange k).Within b.headerRange := by
  have hk := k.isLt
  simp only [wordRange, headerRange, ByteRange.Within, ByteRange.start_ofLength,
    ByteRange.stop_ofLength, BlockHeader.bytes]
  omega

theorem wordRange_apart (b : HeapBlock) {j k : Fin 4} (h : j ≠ k) :
    (b.wordRange j).Apart (b.wordRange k) := by
  have hne := Fin.val_ne_of_ne h
  simp only [wordRange, ByteRange.Apart, ByteRange.start_ofLength, ByteRange.stop_ofLength]
  omega

end HeapBlock

namespace Memory

variable {m m' : Memory} {addr cell size : UInt32} {b : HeapBlock} {k : Fin 4}
  {before after blocks : List HeapBlock}

/-- A number inside a piece of an array stands in the array. -/
theorem natOfBytes_extract {bytes : ByteArray} {start stop k n : Nat} (h : start + k + n ≤ stop)
    (hstop : stop ≤ bytes.size) :
    natOfBytes (((bytes.extract start stop).toList.drop k).take n) =
      decodeLE bytes (start + k) n := by
  induction n generalizing k with
  | zero => rfl
  | succ n ih =>
    have hsize : bytes.data.size = bytes.size := rfl
    have hlt : k < (bytes.extract start stop).toList.length := by
      rw [toList_eq_data, Array.length_toList, ByteArray.data_extract, Array.size_extract]
      omega
    have hbyte : (bytes.extract start stop).toList[k]? = bytes[start + k]? := by
      rw [toList_eq_data, Array.getElem?_toList, ByteArray.data_extract, Array.getElem?_extract,
        if_pos (by omega), getElem?_eq_data]
    rw [List.drop_eq_getElem_cons hlt, List.take_succ_cons, natOfBytes, ih (by omega), decodeLE,
      ← hbyte, List.getElem?_eq_getElem hlt, Option.getD_some, Nat.add_assoc]

/-- The header that the four words from an address on make. -/
def headerAt (m : Memory) (addr : UInt32) : BlockHeader :=
  let word (k : Fin 4) := (decodeLE m.data (addr.toNat + 4 * k) 4).toUInt32
  ⟨word 0, word 1, word 2, word 3⟩

theorem word_headerAt (m : Memory) (addr : UInt32) (k : Fin 4) :
    (m.headerAt addr).word k = (decodeLE m.data (addr.toNat + 4 * k) 4).toUInt32 := by
  match k with
  | 0 | 1 | 2 | 3 => rfl

/-- A header is decoded word by word. -/
theorem ofValue_decode (h : addr.toNat + BlockHeader.bytes ≤ m.size) :
    BlockHeader.ofValue (BlockHeader.layout.decode
      (m.data.extract addr.toNat (addr.toNat + BlockHeader.bytes)).toList) = m.headerAt addr := by
  refine BlockHeader.ext_word fun k => ?_
  have hk : addr.toNat + 4 * k + 4 ≤ addr.toNat + BlockHeader.bytes := by
    rw [BlockHeader.bytes]
    omega
  rw [word_headerAt, ← natOfBytes_extract hk h]
  match k with
  | 0 | 1 | 2 | 3 => rfl

/-- **A header that lies in memory** is what its words make, if that is sound. -/
theorem readHeader_eq (h : addr.toNat + BlockHeader.bytes ≤ m.size) :
    m.readHeader addr =
      if (m.headerAt addr).IsSound then .ok (m.headerAt addr)
      else .error (Heap.corruption addr) := by
  have hread := readTyped_eq m (by decide) (⟨addr⟩ : GuestPtr BlockHeader.layout)
  simp only [BlockHeader.layout_size, if_pos h] at hread
  simp only [readHeader, hread, ofValue_decode h]

theorem headerAt_of_readHeader {h : BlockHeader} (hread : m.readHeader addr = .ok h) :
    m.headerAt addr = h ∧ h.IsSound := by
  obtain ⟨hsound, hle⟩ := isSound_of_readHeader hread
  rw [readHeader_eq hle] at hread
  split at hread
  · exact ⟨Except.ok.inj hread, hsound⟩
  · cases hread

/-! ## A changed word -/

/-- One word of the header of a block has another value, and nothing else has changed. -/
structure ChangesWord (b : HeapBlock) (k : Fin 4) (m m' : Memory) : Prop where
  changes : ChangesOnly [b.wordRange k] m m'
  differs : (m'.headerAt b.addr).word k ≠ (m.headerAt b.addr).word k

theorem ChangesWord.word_eq (h : m.ChangesWord b k m') {j : Fin 4} (hj : j ≠ k) :
    (m'.headerAt b.addr).word j = (m.headerAt b.addr).word j := by
  have hsame : SameOn (b.wordRange j) m m' := h.changes.sameOn (by simp [b.wordRange_apart hj])
  have hword : decodeLE m'.data (b.addr.toNat + 4 * j) 4 = decodeLE m.data (b.addr.toNat + 4 * j) 4 :=
    decodeLE_congr fun i hi hi' => hsame i ⟨hi, hi'⟩
  rw [word_headerAt, word_headerAt, hword]

/-- **A header with a changed word** is not read any more. -/
theorem ChangesWord.readHeader_eq_error (h : m.ChangesWord b k m')
    (hread : m.readHeader b.addr = .ok b.header) :
    m'.readHeader b.addr = .error (Heap.corruption b.addr) := by
  obtain ⟨hheader, hsound⟩ := headerAt_of_readHeader hread
  have hle := (isSound_of_readHeader hread).2
  rw [← h.changes.size] at hle
  rw [readHeader_eq hle, if_neg]
  intro hsound'
  refine h.differs ?_
  rw [BlockHeader.eq_of_isSound (hheader.symm ▸ hsound) hsound' k fun j hj => h.word_eq hj]

/-! ## Ways through the list -/

/-- **A walk that succeeds** has visited every block of the list. -/
theorem exists_chain_of_walkFrom {left : Nat} {usage usage' : HeapUsage}
    (h : m.walkFrom left addr usage = .ok usage') :
    ∃ blocks, m.Chain addr blocks 0 ∧ blocks.length ≤ left := by
  induction left generalizing addr usage with
  | zero =>
    unfold walkFrom at h
    split at h
    · next hnull => exact ⟨[], hnull, Nat.le_refl _⟩
    · cases h
  | succ left ih =>
    unfold walkFrom at h
    split at h
    · next hnull => exact ⟨[], hnull, Nat.zero_le _⟩
    · next hne =>
      cases hread : m.readHeader addr with
      | error e => simp only [hread, reduceCtorEq] at h
      | ok header =>
        simp only [hread] at h
        obtain ⟨blocks, hchain, hle⟩ := ih h
        exact ⟨⟨addr, header⟩ :: blocks, ⟨hne, rfl, hread, hchain⟩, Nat.succ_le_succ hle⟩

theorem exists_hasBlocks_of_walkHeap {usage : HeapUsage} (h : m.walkHeap cell = .ok usage) :
    ∃ blocks, m.HasBlocks cell blocks ∧ blocks.length ≤ Heap.maxBlocks m.size ∧
      usage.blocks = blocks.length := by
  unfold walkHeap at h
  cases hhead : m.heapHead cell with
  | error e => simp only [hhead, reduceCtorEq] at h
  | ok head =>
    simp only [hhead] at h
    obtain ⟨blocks, hchain, hle⟩ := exists_chain_of_walkFrom h
    rw [hchain.walkFrom_eq hle] at h
    cases h
    exact ⟨blocks, ⟨head, hhead, hchain⟩, hle, Nat.zero_add _⟩

section Stuck

variable {a b : UInt32} {e : Error} {left : Nat}

/-- A walk that gets to a header that cannot be read ends there. -/
theorem Chain.walkFrom_eq_error (h : m.Chain a before b) (hne : b ≠ 0)
    (hread : m.readHeader b = .error e) (hlt : before.length < left) (usage : HeapUsage) :
    m.walkFrom left a usage = .error e := by
  induction before generalizing a left usage with
  | nil =>
    cases (h : a = b)
    obtain ⟨left, rfl⟩ := Nat.exists_eq_add_one_of_ne_zero (Nat.ne_of_gt hlt)
    unfold walkFrom
    simp only [if_neg hne, hread]
  | cons block before ih =>
    obtain ⟨hne', rfl, hread', hchain⟩ := h
    obtain ⟨left, rfl⟩ := Nat.exists_eq_add_one_of_ne_zero (Nat.ne_of_gt (Nat.zero_lt_of_lt hlt))
    unfold walkFrom
    simp only [if_neg hne', hread']
    exact ih hchain (Nat.lt_of_succ_lt_succ hlt) _

/-- So does a search, if no block before it serves. -/
theorem Chain.findFree_eq_error (h : m.Chain a before b) (hne : b ≠ 0)
    (hread : m.readHeader b = .error e) (hlt : before.length < left)
    (hserves : ∀ c ∈ before, ¬c.Serves size) : m.findFree size left a = .error e := by
  induction before generalizing a left with
  | nil =>
    cases (h : a = b)
    obtain ⟨left, rfl⟩ := Nat.exists_eq_add_one_of_ne_zero (Nat.ne_of_gt hlt)
    unfold findFree
    simp only [if_neg hne, hread]
  | cons block before ih =>
    obtain ⟨hne', rfl, hread', hchain⟩ := h
    obtain ⟨left, rfl⟩ := Nat.exists_eq_add_one_of_ne_zero (Nat.ne_of_gt (Nat.zero_lt_of_lt hlt))
    obtain ⟨hblock, hbefore⟩ := List.forall_mem_cons.1 hserves
    unfold findFree
    simp only [if_neg hne', hread']
    exact (if_neg hblock).trans (ih hchain (Nat.lt_of_succ_lt_succ hlt) hbefore)

end Stuck

end Memory

namespace Heap

variable {m m' : Memory} {cell size : UInt32} {b : HeapBlock} {k : Fin 4}
  {before after : List HeapBlock}

/-- The list still leads to the block whose header has changed. -/
theorem exists_chain_of_changesWord (hblocks : m.HasBlocks cell (before ++ b :: after))
    (hapart : ∀ c ∈ before, c.headerRange.Apart b.headerRange)
    (hcell : (Memory.cellRange cell).Apart b.headerRange) (h : m.ChangesWord b k m') :
    ∃ head, m'.heapHead cell = .ok head ∧ m'.Chain head before b.addr ∧ b.addr ≠ 0 ∧
      m'.readHeader b.addr = .error (corruption b.addr) := by
  obtain ⟨head, hhead, hchain⟩ := hblocks
  obtain ⟨a, hbefore, hne, rfl, hread, -⟩ := Memory.chain_append.1 hchain
  have hsize : m.size ≤ m'.size := Nat.le_of_eq h.changes.size.symm
  have hsame {r : ByteRange} (hr : r.Apart b.headerRange) : m.SameOn r m' :=
    h.changes.sameOn (List.forall_mem_singleton.2 (hr.within_right (b.wordRange_within k)))
  exact ⟨head, Memory.heapHead_of_sameOn hhead hsize (hsame hcell),
    hbefore.of_sameOn hsize fun c hc => hsame (hapart c hc), hne, h.readHeader_eq_error hread⟩

/-- **A changed word of a header is detected.**  Where the walk succeeds, it has visited a list of
blocks.  If their headers are apart from each other and from the cell, and one word of one of them
gets another value, the walk reports that block; and so does every request that fits into no block
before it, unless it is too large anyway. -/
theorem changed_word_detected {usage : HeapUsage} (hwalk : m.walkHeap cell = .ok usage) :
    ∃ blocks, m.HasBlocks cell blocks ∧ usage.blocks = blocks.length ∧
      (blocks.Pairwise (fun b c => b.headerRange.Apart c.headerRange) →
        (∀ b ∈ blocks, b.headerRange.Apart (Memory.cellRange cell)) →
        ∀ before b after, blocks = before ++ b :: after → ∀ k m', m.ChangesWord b k m' →
          m'.walkHeap cell = .error (corruption b.addr) ∧
          ∀ size stats, (∀ c ∈ before, ¬c.Fits (alignUp size.toNat alignment)) →
            alloc cell size ⟨m', stats⟩ =
              if maxRequest < size then .error outOfMemory ⟨m', stats⟩
              else .error (corruption b.addr) ⟨m', counted stats size⟩) := by
  obtain ⟨blocks, hblocks, hle, hcount⟩ := Memory.exists_hasBlocks_of_walkHeap hwalk
  refine ⟨blocks, hblocks, hcount, fun hapart hcell before b after hsplit k m' h => ?_⟩
  subst hsplit
  obtain ⟨-, -, hapart⟩ := List.pairwise_append.1 hapart
  obtain ⟨head, hhead, hchain, hne, hread⟩ := exists_chain_of_changesWord hblocks
    (fun c hc => hapart c hc b List.mem_cons_self) (hcell b (by simp)).symm h
  have hlt : before.length < maxBlocks m'.size := by
    rw [List.length_append, List.length_cons] at hle
    rw [h.changes.size]
    omega
  refine ⟨?_, fun size stats hfits => ?_⟩
  · simp only [Memory.walkHeap, hhead]
    exact hchain.walkFrom_eq_error hne hread hlt _
  · rcases UInt32.lt_or_le maxRequest size with hlarge | hsize
    · rw [alloc_of_lt hlarge, if_pos hlarge]
    · have hserves (c : HeapBlock) (hc : c ∈ before) : ¬c.Serves (rounded size) := by
        have hheader := (hchain.isSound c hc).2.1
        rw [← HeapBlock.fits_iff hheader, toNat_rounded hsize]
        exact hfits c hc
      rw [alloc_eq_search hsize hhead, if_neg (UInt32.not_lt.2 hsize)]
      exact ofMemory_bind_error (hchain.findFree_eq_error hne hread hlt hserves)

/-- A guest with one page writes a free block and later loses the link of its header. -/
theorem changed_word_detected_link : ∃ m m' : Memory, ∃ usage,
    m.walkHeap 1024 = .ok usage ∧ m.readHeader 2048 = .ok (.new 64 0 true) ∧
      m.ChangesWord ⟨2048, .new 64 0 true⟩ 1 m' ∧
      m'.walkHeap 1024 = .error (corruption 2048) ∧
      alloc 1024 8 ⟨m', {}⟩ = .error (corruption 2048) ⟨m', ⟨1, 8, 0⟩⟩ := by
  obtain ⟨m, -, hsize, hhead, hread⟩ :=
    exists_memory_of_header (h := .new 64 0 true) (by decide)
  let b : HeapBlock := ⟨2048, .new 64 0 true⟩
  have hchain : m.Chain 2048 [b] 0 := ⟨by decide, rfl, hread, rfl⟩
  have hblocks : m.HasBlocks 1024 [b] := ⟨2048, hhead, hchain⟩
  have hwalk : m.walkHeap 1024 = .ok ⟨1, 0, 48⟩ := by
    simp only [Memory.walkHeap, hhead]
    exact hchain.walkFrom_eq (Nat.succ_pos _) _
  obtain ⟨m', -, hchanges, hload⟩ := Memory.exists_store (m := m) 2052 0 4096
    (by decide : 4 < 2 ^ 63) (by rw [hsize]; decide)
  have hword : m.ChangesWord b 1 m' := by
    refine ⟨hchanges, ?_⟩
    have hvalue := ((Memory.load_eq_ok_iff (by decide)).1 hload).2
    have hold : (m.headerAt b.addr).word 1 = 0 := by
      rw [(Memory.headerAt_of_readHeader hread).1]
      rfl
    have hnew : (m'.headerAt b.addr).word 1 = 4096 := by
      rw [Memory.word_headerAt]
      exact congrArg Nat.toUInt32 hvalue.symm
    rw [hold, hnew]
    decide
  obtain ⟨blocks, hblocks', -, hdetected⟩ := changed_word_detected hwalk
  obtain rfl := hblocks'.unique hblocks
  obtain ⟨hwalk', halloc⟩ := hdetected (List.pairwise_singleton ..) (by decide) [] b [] rfl 1 m' hword
  exact ⟨m, m', _, hwalk, hread, hword, hwalk', halloc 8 {} (by simp)⟩

end Heap

end WasmEngine
