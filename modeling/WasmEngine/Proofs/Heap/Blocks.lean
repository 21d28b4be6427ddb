import WasmEngine.Heap
import WasmEngine.Proofs.Memory.Bytes

/-!
# Proofs/Heap/Blocks — the block list in memory

`Memory.Chain m a blocks b` says that following the headers from `a` on meets the blocks and ends
at `b`; the list of a heap is the chain from the address in its cell to zero, `Memory.HasBlocks`.
A chain depends on the headers of its blocks alone, `Memory.Chain.of_sameOn`, and the search for a
free block is a search through its blocks, `Memory.Chain.findFree_eq`.
-/

namespace WasmEngine

/-- A header and where it stands. -/
structure HeapBlock where
  addr : UInt32
  header : BlockHeader
deriving DecidableEq, Repr

namespace HeapBlock

variable (b : HeapBlock)

/-- The end of the block. -/
def stop : Nat := b.addr.toNat + b.header.size.toNat

/-- All bytes of the block. -/
def range : ByteRange := ⟨b.addr.toNat, b.stop⟩

/-- The bytes of the header. -/
def headerRange : ByteRange := .ofLength b.addr.toNat BlockHeader.bytes

/-- The bytes behind the header. -/
def payloadRange : ByteRange := ⟨b.addr.toNat + BlockHeader.bytes, b.stop⟩

/-- Whether the block is free and holds a payload of `size` bytes. -/
def Serves (size : UInt32) : Prop := b.header.IsFree ∧ size ≤ b.header.payload

instance (size : UInt32) : Decidable (b.Serves size) := inferInstanceAs (Decidable (_ ∧ _))

/-- The shape of the allocator's blocks: a header fits in, address and size are aligned, and the
block ends below the last unit of alignment. -/
structure IsTidy : Prop where
  header_le : BlockHeader.bytes ≤ b.header.size.toNat
  aligned : Heap.alignment ∣ b.addr.toNat
  aligned_size : Heap.alignment ∣ b.header.size.toNat
  stop_le : b.stop ≤ UInt32.size - Heap.alignment

variable {b}

theorem IsTidy.header_within (h : b.IsTidy) : b.headerRange.Within b.range :=
  ⟨Nat.le_refl _, Nat.add_le_add_left h.header_le _⟩

theorem IsTidy.toNat_payloadAddr (h : b.IsTidy) :
    (Heap.payloadAddr b.addr).toNat = b.addr.toNat + BlockHeader.bytes := by
  obtain ⟨hheader, -, -, hstop⟩ := h
  have h16 : (16 : UInt32).toNat = 16 := rfl
  simp only [stop, BlockHeader.bytes, Heap.alignment, UInt32.size] at hheader hstop ⊢
  rw [Heap.payloadAddr, UInt32.toNat_add]
  omega

theorem payloadRange_within : b.payloadRange.Within b.range :=
  ⟨Nat.le_add_right .., Nat.le_refl _⟩

theorem header_apart_payload : b.headerRange.Apart b.payloadRange := .inl (Nat.le_refl _)

end HeapBlock

namespace BlockHeader

@[simp] theorem ofValue_toValue (h : BlockHeader) : ofValue h.toValue = h := rfl

theorem layout_size : layout.size = bytes := by decide

theorem isSound_new {size : UInt32} (next : UInt32) (isFree : Bool) (h : bytes ≤ size.toNat) :
    (new size next isFree).IsSound := by
  cases isFree
  · exact ⟨(by decide : (0 : UInt32) ≤ 1), h, rfl⟩
  · exact ⟨(by decide : (1 : UInt32) ≤ 1), h, rfl⟩

@[simp] theorem size_new (size next : UInt32) (isFree : Bool) :
    (new size next isFree).size = size := rfl

@[simp] theorem next_new (size next : UInt32) (isFree : Bool) :
    (new size next isFree).next = next := rfl

@[simp] theorem isFree_new (size next : UInt32) (isFree : Bool) :
    (new size next isFree).IsFree ↔ isFree = true := by
  cases isFree
  · exact iff_of_false (by decide : ¬(0 : UInt32) = 1) Bool.false_ne_true
  · exact iff_of_true (by decide : (1 : UInt32) = 1) rfl

theorem toNat_payload {h : BlockHeader} (hsize : bytes ≤ h.size.toNat) :
    h.payload.toNat = h.size.toNat - bytes :=
  UInt32.toNat_sub_of_le _ _ (UInt32.le_iff_toNat_le.2 hsize)

end BlockHeader

namespace Memory

variable {m m' : Memory} {addr : UInt32} {h : BlockHeader}

/-! ## Headers -/

theorem readHeader_eq_ok_iff :
    m.readHeader addr = .ok h ↔
      ∃ v, m.readTyped (⟨addr⟩ : GuestPtr BlockHeader.layout) = .ok v ∧
        BlockHeader.ofValue v = h ∧ h.IsSound := by
  unfold readHeader
  cases m.readTyped (⟨addr⟩ : GuestPtr BlockHeader.layout) with
  | error e => simp
  | ok v =>
    by_cases hsound : (BlockHeader.ofValue v).IsSound
    · simp only [if_pos hsound, Except.ok.injEq]
      constructor
      · rintro rfl
        exact ⟨v, rfl, rfl, hsound⟩
      · rintro ⟨w, rfl, rfl, -⟩
        rfl
    · simp only [if_neg hsound, Except.ok.injEq, reduceCtorEq, false_iff]
      rintro ⟨w, rfl, rfl, hsound'⟩
      exact hsound hsound'

/-- A header that is read is sound and lies in memory. -/
theorem isSound_of_readHeader (hread : m.readHeader addr = .ok h) :
    h.IsSound ∧ addr.toNat + BlockHeader.bytes ≤ m.size := by
  obtain ⟨v, hv, -, hsound⟩ := readHeader_eq_ok_iff.1 hread
  obtain ⟨bytes, hbytes, -⟩ := readTyped_eq_ok_iff.1 hv
  rw [read_eq m addr (n := BlockHeader.layout.size) (by decide), BlockHeader.layout_size] at hbytes
  split at hbytes
  · cases hbytes
  · next hle => exact ⟨hsound, Nat.le_of_not_lt hle⟩

/-- A header depends on its bytes alone. -/
theorem readHeader_of_sameOn (hread : m.readHeader addr = .ok h) (hsize : m.size ≤ m'.size)
    (hsame : SameOn (.ofLength addr.toNat BlockHeader.bytes) m m') :
    m'.readHeader addr = .ok h := by
  rw [readHeader_eq_ok_iff] at hread ⊢
  obtain ⟨v, hv, hh⟩ := hread
  exact ⟨v, readTyped_of_sameOn (by decide) hv hsize hsame, hh⟩

/-- **A header written within bounds is read again.** -/
theorem exists_writeHeader (hsound : h.IsSound) (hle : addr.toNat + BlockHeader.bytes ≤ m.size) :
    ∃ m', writeHeader addr h m = .ok () m' ∧
      ChangesOnly [.ofLength addr.toNat BlockHeader.bytes] m m' ∧
      m'.readHeader addr = .ok h := by
  obtain ⟨m', hwrite, hchanges, hread⟩ :=
    exists_writeTyped (m := m) (p := (⟨addr⟩ : GuestPtr BlockHeader.layout)) h.toValue
      (by decide) hle
  exact ⟨m', hwrite, hchanges, readHeader_eq_ok_iff.2 ⟨_, hread, rfl, hsound⟩⟩

/-- A header that does not fit in is not written. -/
theorem writeHeader_of_lt (h : BlockHeader) (hlt : m.size < addr.toNat + BlockHeader.bytes) :
    writeHeader addr h m = .error (.trap .memoryOutOfBounds) m := by
  have hsize : (⟨(BlockHeader.layout.encode h.toValue).toArray⟩ : ByteArray).size =
      BlockHeader.bytes := by
    rw [ByteArray.size, List.size_toArray, BlockHeader.layout.length_encode,
      BlockHeader.layout_size]
  have heffective : m.effective addr 0 BlockHeader.bytes.toUInt64 =
      .error (.trap .memoryOutOfBounds) :=
    (effective_eq m addr 0 (by decide)).trans (if_pos hlt)
  rw [writeHeader, writeTyped, write, hsize, heffective]

/-! ## The cell -/

/-- The bytes of the cell. -/
def cellRange (cell : UInt32) : ByteRange := .ofLength cell.toNat 4

theorem load32_eq_ok_iff {ptr offset w : UInt32} :
    m.load32 ptr offset = .ok w ↔ ∃ v, m.load 4 ptr offset = .ok v ∧ v.toUInt32 = w := by
  unfold load32
  cases m.load 4 ptr offset <;> simp [Except.map]

/-- The head of the list depends on the cell alone. -/
theorem heapHead_of_sameOn {cell head : UInt32} (hhead : m.heapHead cell = .ok head)
    (hsize : m.size ≤ m'.size) (hsame : SameOn (cellRange cell) m m') :
    m'.heapHead cell = .ok head := by
  rw [heapHead, load32_eq_ok_iff] at hhead ⊢
  obtain ⟨v, hv, hw⟩ := hhead
  exact ⟨v, load_of_sameOn (by decide) hv hsize hsame, hw⟩

theorem cell_le_of_heapHead {cell head : UInt32} (hhead : m.heapHead cell = .ok head) :
    cell.toNat + 4 ≤ m.size := by
  rw [heapHead, load32_eq_ok_iff] at hhead
  obtain ⟨v, hv, -⟩ := hhead
  exact ((load_eq_ok_iff (by decide)).1 hv).1

/-- In a new memory every cell holds the empty heap. -/
theorem heapHead_new {initial maximum : Nat} {cell : UInt32}
    (h : cell.toNat + 4 ≤ initial * pageSize) :
    (Memory.new initial maximum).heapHead cell = .ok 0 := by
  have hsize := (IsPaged.new initial maximum).size
  refine load32_eq_ok_iff.2 ⟨0, (load_eq_ok_iff (by decide)).2 ⟨?_, ?_⟩, rfl⟩
  · rw [hsize]
    exact h
  · exact (decodeLE_eq_zero fun i => getD_addPages .empty initial i).symm

/-- An address that is stored in the cell is the head of the list. -/
theorem exists_storeHead {cell : UInt32} {head : Nat} (hhead : head < UInt32.size)
    (hle : cell.toNat + 4 ≤ m.size) :
    ∃ m', store 4 cell 0 head m = .ok () m' ∧ ChangesOnly [cellRange cell] m m' ∧
      m'.heapHead cell = .ok head.toUInt32 := by
  obtain ⟨m', hstore, hchanges, hload⟩ := exists_store (m := m) cell 0 head (by decide) hle
  have hmod : head % 256 ^ 4 = head := Nat.mod_eq_of_lt hhead
  exact ⟨m', hstore, hchanges, load32_eq_ok_iff.2 ⟨_, hload, congrArg Nat.toUInt32 hmod⟩⟩

/-! ## Chains -/

/-- The headers from `a` on are those of the blocks, and the last one leads to `b`. -/
def Chain (m : Memory) (a : UInt32) : List HeapBlock → UInt32 → Prop
  | [], b => a = b
  | block :: blocks, b =>
    a ≠ 0 ∧ block.addr = a ∧ m.readHeader a = .ok block.header ∧ m.Chain block.header.next blocks b

/-- The list of the heap whose first header's address is in the cell. -/
def HasBlocks (m : Memory) (cell : UInt32) (blocks : List HeapBlock) : Prop :=
  ∃ head, m.heapHead cell = .ok head ∧ m.Chain head blocks 0

variable {a b c : UInt32} {xs ys blocks : List HeapBlock}

@[simp] theorem chain_nil : m.Chain a [] b ↔ a = b := Iff.rfl

@[simp] theorem chain_cons {block : HeapBlock} :
    m.Chain a (block :: blocks) b ↔
      a ≠ 0 ∧ block.addr = a ∧ m.readHeader a = .ok block.header ∧
        m.Chain block.header.next blocks b := Iff.rfl

theorem chain_append : m.Chain a (xs ++ ys) c ↔ ∃ b, m.Chain a xs b ∧ m.Chain b ys c := by
  induction xs generalizing a with
  | nil => simp
  | cons x xs ih => simp [ih, and_assoc]

/-- **A chain depends on the headers of its blocks alone.** -/
theorem Chain.of_sameOn (h : m.Chain a blocks b) (hsize : m.size ≤ m'.size)
    (hsame : ∀ block ∈ blocks, SameOn block.headerRange m m') : m'.Chain a blocks b := by
  induction blocks generalizing a with
  | nil => exact h
  | cons block blocks ih =>
    obtain ⟨hne, rfl, hread, hchain⟩ := h
    have hread' := readHeader_of_sameOn hread hsize (hsame _ List.mem_cons_self)
    exact ⟨hne, rfl, hread', ih hchain fun c hc => hsame c (List.mem_cons_of_mem _ hc)⟩

/-- A chain from an address to the end is the only one. -/
theorem Chain.unique (h : m.Chain a xs 0) (h' : m.Chain a ys 0) : xs = ys := by
  induction xs generalizing a ys with
  | nil =>
    cases ys with
    | nil => rfl
    | cons y ys => exact absurd h h'.1
  | cons x xs ih =>
    cases ys with
    | nil => exact absurd h' h.1
    | cons y ys =>
      obtain ⟨-, hx, hread, hchain⟩ := h
      obtain ⟨-, hy, hread', hchain'⟩ := h'
      have heq : x = y := by
        cases x
        cases y
        simp_all
      rw [heq, ih (heq ▸ hchain) hchain']

theorem HasBlocks.unique {cell : UInt32} (h : m.HasBlocks cell xs) (h' : m.HasBlocks cell ys) :
    xs = ys := by
  obtain ⟨head, hhead, hchain⟩ := h
  obtain ⟨head', hhead', hchain'⟩ := h'
  cases hhead.symm.trans hhead'
  exact hchain.unique hchain'

/-- The list depends on the cell and on its headers. -/
theorem HasBlocks.of_sameOn {cell : UInt32} (h : m.HasBlocks cell blocks) (hsize : m.size ≤ m'.size)
    (hcell : SameOn (cellRange cell) m m')
    (hsame : ∀ block ∈ blocks, SameOn block.headerRange m m') : m'.HasBlocks cell blocks := by
  obtain ⟨head, hhead, hchain⟩ := h
  exact ⟨head, heapHead_of_sameOn hhead hsize hcell, hchain.of_sameOn hsize hsame⟩

/-- **The search meets the blocks of the chain in order** and yields the first that serves. -/
theorem Chain.findFree_eq {size : UInt32} {left : Nat} {found : Option (UInt32 × BlockHeader)}
    (h : m.Chain a blocks 0) (hfind : m.findFree size left a = .ok found) :
    found = (blocks.find? (·.Serves size)).map fun b => (b.addr, b.header) := by
  induction blocks generalizing a left with
  | nil =>
    cases (h : a = 0)
    unfold findFree at hfind
    rw [if_pos rfl] at hfind
    exact (Except.ok.inj hfind).symm
  | cons block blocks ih =>
    obtain ⟨hne, rfl, hread, hchain⟩ := h
    unfold findFree at hfind
    rw [if_neg hne] at hfind
    cases left with
    | zero => cases hfind
    | succ left =>
      simp only [hread] at hfind
      by_cases hserves : block.header.IsFree ∧ size ≤ block.header.payload
      · rw [if_pos hserves] at hfind
        have hblock : decide (block.Serves size) = true := decide_eq_true hserves
        rw [List.find?_cons, hblock]
        exact (Except.ok.inj hfind).symm
      · rw [if_neg hserves] at hfind
        have hblock : decide (block.Serves size) = false := decide_eq_false hserves
        rw [List.find?_cons, hblock]
        exact ih hchain hfind

end Memory

end WasmEngine
