import WasmEngine.Proofs.Heap.FirstFit

/-!
# Proofs/Heap/Refusal — what a request that fails leaves behind

Memory may hold anything here: a list that ends in garbage or not at all, and headers that the guest
has made up.  A request that fails has been counted if its size and its cell could be read, and it
has written nothing (`Heap.alloc_error_keeps`), but for one case: a block that is to be split may
claim more bytes than memory has, and then its header is gone before that of its tail is refused.
-/

namespace WasmEngine

namespace HeapBlock

variable {b : HeapBlock} {size : UInt32}

/-- A block that is to be split for `n` bytes claims so many that memory has no room for the header
of its tail. -/
structure Overreaches (b : HeapBlock) (m : Memory) (n : Nat) : Prop where
  splits : n + BlockHeader.bytes + Heap.alignment ≤ b.payloadSize
  addressable : b.stop < UInt32.size + (n + BlockHeader.bytes)
  outside : m.size < b.stop - n

/-- Where a block that is split has its tail. -/
theorem toNat_tail (hb : BlockHeader.bytes ≤ b.header.size.toNat) (hserves : b.Serves size)
    (h : 24 ≤ b.header.payload - size)
    (hlt : ¬UInt32.size ≤ b.addr.toNat + (b.header.size - (size + 16)).toNat) :
    (b.tail size).addr.toNat + BlockHeader.bytes = b.stop - size.toNat ∧
      b.stop < UInt32.size + (size.toNat + BlockHeader.bytes) := by
  obtain ⟨-, hfront⟩ := toNat_split hb hserves h
  have hrest := (le_payload_sub_iff hb hserves).1 h
  rw [hfront] at hlt
  rw [tail, UInt32.toNat_add, hfront]
  simp only [payloadSize, BlockHeader.bytes, Heap.alignment, UInt32.size, stop] at *
  omega

end HeapBlock

/-! ## The search through any memory -/

namespace Memory

variable {m : Memory} {a addr size : UInt32} {h : BlockHeader}

/-- **What a search finds** is a block that serves, at the end of a chain of blocks that do not. -/
theorem exists_chain_of_findFree {left : Nat}
    (hfind : m.findFree size left a = .ok (some (addr, h))) :
    ∃ before, m.Chain a before addr ∧ (∀ b ∈ before, ¬b.Serves size) ∧
      m.readHeader addr = .ok h ∧ (⟨addr, h⟩ : HeapBlock).Serves size := by
  induction left generalizing a with
  | zero =>
    unfold findFree at hfind
    split at hfind <;> cases hfind
  | succ left ih =>
    unfold findFree at hfind
    split at hfind
    · cases hfind
    · next hne =>
      cases hread : m.readHeader a with
      | error e => simp only [hread, reduceCtorEq] at hfind
      | ok block =>
        simp only [hread] at hfind
        split at hfind
        · next hserves =>
          cases hfind
          exact ⟨[], rfl, by simp, hread, hserves⟩
        · next hserves =>
          obtain ⟨before, hchain, hbefore, hfound⟩ := ih hfind
          exact ⟨⟨a, block⟩ :: before, ⟨hne, rfl, hread, hchain⟩,
            List.forall_mem_cons.2 ⟨hserves, hbefore⟩, hfound⟩

/-- Every block of a chain has a sound header. -/
theorem Chain.isSound {blocks : List HeapBlock} (hchain : m.Chain a blocks addr) :
    ∀ b ∈ blocks, b.header.IsSound := by
  induction blocks generalizing a with
  | nil => simp
  | cons block blocks ih =>
    obtain ⟨-, -, hread, hrest⟩ := hchain
    exact List.forall_mem_cons.2 ⟨(isSound_of_readHeader hread).1, ih hrest⟩

/-- The first block on the list into which `n` bytes fit. -/
def HasFirstFit (m : Memory) (cell : UInt32) (n : Nat) (b : HeapBlock) : Prop :=
  ∃ head before, m.heapHead cell = .ok head ∧ m.Chain head before b.addr ∧
    (∀ c ∈ before, ¬c.Fits n) ∧ m.readHeader b.addr = .ok b.header ∧ b.Fits n

end Memory

namespace Heap

variable {m : Memory} {stats : HeapStats} {cell size : UInt32} {heap' : Heap} {e : Error}

theorem onMemory_bind_error {α β : Type} {op : Memory.Update α} {f : α → HeapM β} {m' : Memory}
    (h : op m = .error e m') : (onMemory op >>= f) ⟨m, stats⟩ = .error e ⟨m', stats⟩ := by
  simp only [bind, EStateM.bind, onMemory, h]

/-- The header of the front is written wherever that of the block was read. -/
theorem exists_writeFront {b : HeapBlock} (hread : m.readHeader b.addr = .ok b.header)
    (hserves : b.Serves size) (h : 24 ≤ b.header.payload - size) :
    ∃ m', Memory.writeHeader b.addr (b.front size).header m = .ok () m' ∧
      m.ChangesOnly [b.headerRange] m' ∧ m'.readHeader b.addr = .ok (b.front size).header := by
  obtain ⟨hsound, hle⟩ := Memory.isSound_of_readHeader hread
  obtain ⟨-, hfront⟩ := HeapBlock.toNat_split hsound.2.1 hserves h
  have hrest := (HeapBlock.le_payload_sub_iff hsound.2.1 hserves).1 h
  refine Memory.exists_writeHeader (BlockHeader.isSound_new _ _ ?_) hle
  simp only [HeapBlock.payloadSize, BlockHeader.bytes, alignment] at *
  omega

/-- **Splitting a block that overreaches** replaces its header and then traps. -/
theorem exists_take_of_overreaches {b : HeapBlock} (stats : HeapStats)
    (hread : m.readHeader b.addr = .ok b.header) (hserves : b.Serves size)
    (h : b.Overreaches m size.toNat) :
    ∃ m', take b.addr b.header size ⟨m, stats⟩ =
        .error (.trap .memoryOutOfBounds) ⟨m', stats⟩ ∧
      m.ChangesOnly [b.headerRange] m' ∧ m'.readHeader b.addr = .ok (b.front size).header := by
  obtain ⟨hsplits, haddressable, houtside⟩ := h
  have hb := (Memory.isSound_of_readHeader hread).1.2.1
  have h24 := (HeapBlock.le_payload_sub_iff hb hserves).2 hsplits
  obtain ⟨m', hwrite, hchanges, hread'⟩ := exists_writeFront hread hserves h24
  have hbound : ¬UInt32.size ≤ b.addr.toNat + (b.header.size - (size + 16)).toNat := by
    rw [(HeapBlock.toNat_split hb hserves h24).2]
    simp only [HeapBlock.stop, HeapBlock.payloadSize, BlockHeader.bytes, alignment, UInt32.size]
      at *
    omega
  have hlt : m'.size < (b.tail size).addr.toNat + BlockHeader.bytes := by
    rwa [(HeapBlock.toNat_tail hb hserves h24 hbound).1, hchanges.size]
  refine ⟨m', ?_, hchanges, hread'⟩
  simp only [take, if_pos h24, if_neg hbound]
  exact (onMemory_bind hwrite).trans (onMemory_bind_error (Memory.writeHeader_of_lt _ hlt))

/-- **Taking storage out of any block** fails without a change, or because the block overreaches. -/
theorem take_eq_error {b : HeapBlock} (hread : m.readHeader b.addr = .ok b.header)
    (hserves : b.Serves size) (h : take b.addr b.header size ⟨m, stats⟩ = .error e heap') :
    heap' = ⟨m, stats⟩ ∨ b.Overreaches m size.toNat ∧ ∃ m', heap' = ⟨m', stats⟩ ∧
      m.ChangesOnly [b.headerRange] m' := by
  obtain ⟨hsound, hle⟩ := Memory.isSound_of_readHeader hread
  have hb := hsound.2.1
  by_cases h24 : 24 ≤ b.header.payload - size
  · by_cases hbound : UInt32.size ≤ b.addr.toNat + (b.header.size - (size + 16)).toNat
    · simp only [take, if_pos h24, if_pos hbound] at h
      cases h
      exact .inl rfl
    · obtain ⟨htail, haddressable⟩ := HeapBlock.toNat_tail hb hserves h24 hbound
      by_cases hlt : m.size < b.stop - size.toNat
      · have hover : b.Overreaches m size.toNat :=
          ⟨(HeapBlock.le_payload_sub_iff hb hserves).1 h24, haddressable, hlt⟩
        obtain ⟨m', htake, hchanges, -⟩ := exists_take_of_overreaches stats hread hserves hover
        cases htake.symm.trans h
        exact .inr ⟨hover, m', rfl, hchanges⟩
      · -- Both headers fit in, so that splitting does not fail.
        obtain ⟨m₁, hwrite, hchanges, -⟩ := exists_writeFront hread hserves h24
        have hused : BlockHeader.bytes ≤ (size + 16).toNat := by
          rw [(HeapBlock.toNat_split hb hserves h24).1]
          exact Nat.le_add_left ..
        obtain ⟨m₂, hwrite', -⟩ := Memory.exists_writeHeader (m := m₁)
          (BlockHeader.isSound_new b.header.next false hused)
          (htail ▸ hchanges.size ▸ Nat.le_of_not_lt hlt)
        simp only [take, if_pos h24, if_neg hbound] at h
        cases h.symm.trans ((onMemory_bind hwrite).trans (onMemory_bind hwrite'))
  · obtain ⟨m', hwrite, -⟩ := Memory.exists_writeHeader
      (BlockHeader.isSound_new b.header.next false hb) hle
    simp only [take, if_neg h24] at h
    cases h.symm.trans (onMemory_bind hwrite)

/-- Growth that succeeds is followed by nothing that fails. -/
theorem growAndCarve_eq_error {head : UInt32} (hpaged : m.IsPaged)
    (hhead : m.heapHead cell = .ok head) (hsize : alignment ∣ size.toNat)
    (h : growAndCarve cell head size ⟨m, stats⟩ = .error e heap') : heap' = ⟨m, stats⟩ := by
  cases hgrow : (m.grow (pagesFor size)).1 with
  | none =>
    cases (growAndCarve_of_none hgrow).symm.trans h
    rfl
  | some old =>
    obtain ⟨m', p, stats', head', hcarve, -⟩ := exists_carve_grown stats hpaged hhead hsize hgrow
    cases h.symm.trans hcarve

/-- A request whose cell cannot be read fails at once. -/
theorem alloc_of_heapHead_error (h : size ≤ maxRequest) (hhead : m.heapHead cell = .error e) :
    alloc cell size ⟨m, stats⟩ = .error e ⟨m, stats⟩ := by
  unfold alloc
  rw [if_neg (UInt32.not_lt.2 h)]
  exact ofMemory_bind_error hhead

/-- What a request that fails leaves behind. -/
structure Leaves (cell size : UInt32) (heap heap' : Heap) : Prop where
  /-- A request that is too large or whose cell cannot be read changes nothing. -/
  uncounted : maxRequest < size ∨ (∀ head, heap.memory.heapHead cell ≠ .ok head) → heap' = heap
  /-- Any other request has been counted, and no pages have. -/
  counted : size ≤ maxRequest → ∀ head, heap.memory.heapHead cell = .ok head →
    heap'.stats = { heap.stats with
      allocations := heap.stats.allocations + 1
      bytesRequested := heap.stats.bytesRequested + (alignUp size.toNat alignment).toUInt64 }
  /-- Memory does not grow. -/
  pages : heap'.memory.pages = heap.memory.pages
  /-- Memory is as before, but perhaps for the header of a block that overreaches. -/
  memory : heap'.memory = heap.memory ∨
    ∃ b, heap.memory.HasFirstFit cell (alignUp size.toNat alignment) b ∧
      b.Overreaches heap.memory (alignUp size.toNat alignment) ∧
      heap.memory.ChangesOnly [b.headerRange] heap'.memory

theorem leaves_refl {heap : Heap}
    (h : maxRequest < size ∨ ∀ head, heap.memory.heapHead cell ≠ .ok head) :
    Leaves cell size heap heap where
  uncounted _ := rfl
  counted hsize head hhead := by
    rcases h with hlt | hne
    · exact absurd hsize (UInt32.not_le.2 hlt)
    · exact absurd hhead (hne head)
  pages := rfl
  memory := .inl rfl

/-- A request that has been counted leaves its count and the memory that serving it has left. -/
theorem leaves_counted {m' : Memory} {head : UInt32} (hsize : size ≤ maxRequest)
    (hhead : m.heapHead cell = .ok head)
    (h : m' = m ∨ ∃ b, m.HasFirstFit cell (alignUp size.toNat alignment) b ∧
      b.Overreaches m (alignUp size.toNat alignment) ∧ m.ChangesOnly [b.headerRange] m') :
    Leaves cell size ⟨m, stats⟩ ⟨m', counted stats size⟩ where
  uncounted hun := by
    rcases hun with hlt | hne
    · exact absurd hsize (UInt32.not_le.2 hlt)
    · exact absurd hhead (hne head)
  counted _ _ _ := by
    have hwide : (rounded size).toUInt64 = (rounded size).toNat.toUInt64 :=
      (UInt64.ofNat_uInt32ToNat _).symm
    rw [← toNat_rounded hsize, Heap.counted, hwide]
  pages := by
    rcases h with rfl | ⟨b, -, -, hchanges⟩
    · rfl
    · exact hchanges.pages
  memory := h

/-- What the search finds is the first block that fits. -/
theorem hasFirstFit_of_findFree {head addr : UInt32} {h : BlockHeader} {left : Nat}
    (hhead : m.heapHead cell = .ok head)
    (hfind : m.findFree size left head = .ok (some (addr, h))) :
    m.HasFirstFit cell size.toNat ⟨addr, h⟩ := by
  obtain ⟨before, hchain, hbefore, hread, hserves⟩ := Memory.exists_chain_of_findFree hfind
  have hb := (Memory.isSound_of_readHeader hread).1.2.1
  refine ⟨head, before, hhead, hchain, fun c hc hfits => ?_, hread,
    (HeapBlock.fits_iff hb).2 hserves⟩
  exact hbefore c hc ((HeapBlock.fits_iff (hchain.isSound c hc).2.1).1 hfits)

/-- **A request that fails writes nothing**, whatever memory holds, and if its size and its cell can
be read it is counted; only the header of a first fit that overreaches may be lost. -/
theorem alloc_error_keeps {heap : Heap} (hpaged : heap.memory.IsPaged)
    (halloc : alloc cell size heap = .error e heap') : Leaves cell size heap heap' := by
  obtain ⟨m, stats⟩ := heap
  rcases UInt32.lt_or_le maxRequest size with hlt | hsize
  · cases (alloc_of_lt hlt).symm.trans halloc
    exact leaves_refl (.inl hlt)
  cases hhead : m.heapHead cell with
  | error e =>
    cases (alloc_of_heapHead_error hsize hhead).symm.trans halloc
    refine leaves_refl (.inr fun head hok => ?_)
    cases hhead.symm.trans hok
  | ok head =>
    rw [alloc_eq_search hsize hhead] at halloc
    cases hfind : m.findFree (rounded size) (maxBlocks m.size) head with
    | error e =>
      cases (ofMemory_bind_error hfind).symm.trans halloc
      exact leaves_counted hsize hhead (.inl rfl)
    | ok found =>
      rw [ofMemory_bind hfind] at halloc
      cases found with
      | none =>
        obtain rfl := growAndCarve_eq_error hpaged hhead (rounded_spec hsize).1 halloc
        exact leaves_counted hsize hhead (.inl rfl)
      | some found =>
        obtain ⟨addr, h⟩ := found
        have hfirst := hasFirstFit_of_findFree hhead hfind
        obtain ⟨_, -, -, hread, hserves⟩ := Memory.exists_chain_of_findFree hfind
        have htake : take addr h (rounded size) ⟨m, counted stats size⟩ = .error e heap' := halloc
        obtain rfl | ⟨hover, m', rfl, hchanges⟩ :=
          take_eq_error (b := ⟨addr, h⟩) hread hserves htake
        · exact leaves_counted hsize hhead (.inl rfl)
        · rw [toNat_rounded hsize] at hfirst hover
          exact leaves_counted hsize hhead (.inr ⟨_, hfirst, hover, hchanges⟩)

/-- A guest whose one page is all it may have asks for eight bytes. -/
theorem alloc_error_keeps_exhausted :
    alloc 1024 8 ⟨.new 1 1, {}⟩ = .error outOfMemory ⟨.new 1 1, ⟨1, 8, 0⟩⟩ ∧
      Leaves 1024 8 ⟨.new 1 1, {}⟩ ⟨.new 1 1, ⟨1, 8, 0⟩⟩ := by
  have hhead : (Memory.new 1 1).heapHead 1024 = .ok 0 := Memory.heapHead_new (by decide)
  have halloc : alloc 1024 8 ⟨.new 1 1, {}⟩ = .error outOfMemory ⟨.new 1 1, ⟨1, 8, 0⟩⟩ :=
    (isTidy_nil (.new 1 1) hhead).alloc_exhausted {} (by decide) rfl (by decide)
  exact ⟨halloc, alloc_error_keeps (.new 1 1) halloc⟩

/-! ## A header that is lost -/

/-- If the first block on the list overreaches, a request traps once its header is replaced. -/
theorem exists_alloc_of_overreaches {b : HeapBlock} (stats : HeapStats) (hsize : size ≤ maxRequest)
    (hhead : m.heapHead cell = .ok b.addr) (hne : b.addr ≠ 0)
    (hread : m.readHeader b.addr = .ok b.header) (hserves : b.Serves (rounded size))
    (hover : b.Overreaches m (rounded size).toNat) :
    ∃ m', alloc cell size ⟨m, stats⟩ =
        .error (.trap .memoryOutOfBounds) ⟨m', counted stats size⟩ ∧
      m'.readHeader b.addr = .ok (b.front (rounded size)).header := by
  have hfind : m.findFree (rounded size) (maxBlocks m.size) b.addr =
      .ok (some (b.addr, b.header)) := by
    unfold Memory.findFree maxBlocks
    simp only [if_neg hne, hread]
    exact if_pos hserves
  obtain ⟨m', htake, -, hread'⟩ :=
    exists_take_of_overreaches (counted stats size) hread hserves hover
  refine ⟨m', ?_, hread'⟩
  rw [alloc_eq_search hsize hhead, ofMemory_bind hfind]
  exact htake

/-- A guest with one page can write any header into it, and make it the first one. -/
theorem exists_memory_of_header {h : BlockHeader} (hsound : h.IsSound) : ∃ m : Memory,
    m.IsPaged ∧ m.size = 65536 ∧ m.heapHead 1024 = .ok 2048 ∧ m.readHeader 2048 = .ok h := by
  have hpaged := Memory.IsPaged.new 1 1
  have hsize : (Memory.new 1 1).size = 65536 := hpaged.size
  have hle : (2048 : UInt32).toNat + BlockHeader.bytes ≤ (Memory.new 1 1).size := by
    rw [hsize]
    decide
  obtain ⟨m₁, -, hchanges, hread⟩ := Memory.exists_writeHeader hsound hle
  have hcell : (1024 : UInt32).toNat + 4 ≤ m₁.size := by
    rw [hchanges.size, hsize]
    decide
  obtain ⟨m₂, -, hchanges', hhead⟩ :=
    Memory.exists_storeHead (by decide : 2048 < UInt32.size) hcell
  have hpaged₁ := hpaged.of_eq hchanges.size hchanges.pages hchanges.maximum
  refine ⟨m₂, hpaged₁.of_eq hchanges'.size hchanges'.pages hchanges'.maximum,
    hchanges'.size.trans (hchanges.size.trans hsize), hhead, ?_⟩
  exact Memory.readHeader_of_sameOn hread (Nat.le_of_eq hchanges'.size.symm)
    (hchanges'.sameOn (by decide))

/-- A guest can write a header that claims more bytes than its page has left. -/
theorem exists_forged : ∃ m : Memory, m.IsPaged ∧ m.size = 65536 ∧
    m.heapHead 1024 = .ok 2048 ∧ m.readHeader 2048 = .ok (.new 65536 0 true) :=
  exists_memory_of_header (by decide)

/-- **A request that fails leaves traces.**  A guest with one page asks for eight bytes.  If it has
no heap, the request is counted; and if its first header claims more bytes than the page has left,
the request traps, after which the header claims fewer. -/
theorem alloc_error_changes :
    alloc 1024 8 ⟨.new 1 1, {}⟩ = .error outOfMemory ⟨.new 1 1, ⟨1, 8, 0⟩⟩ ∧
    ∃ m m' : Memory, m.IsPaged ∧ m.heapHead 1024 = .ok 2048 ∧
      m.readHeader 2048 = .ok (.new 65536 0 true) ∧
      alloc 1024 8 ⟨m, {}⟩ = .error (.trap .memoryOutOfBounds) ⟨m', ⟨1, 8, 0⟩⟩ ∧
      m'.readHeader 2048 = .ok (.new 65512 67560 true) := by
  constructor
  · have hhead : (Memory.new 1 1).heapHead 1024 = .ok 0 := Memory.heapHead_new (by decide)
    exact (isTidy_nil (.new 1 1) hhead).alloc_exhausted {} (by decide) rfl (by decide)
  · obtain ⟨m, hpaged, hsize, hhead, hread⟩ := exists_forged
    let b : HeapBlock := ⟨2048, .new 65536 0 true⟩
    have hover : b.Overreaches m (rounded 8).toNat := by
      refine ⟨by decide, by decide, ?_⟩
      rw [hsize]
      decide
    obtain ⟨m', halloc, hread'⟩ := exists_alloc_of_overreaches (b := b) {} (by decide) hhead
      (by decide) hread (by decide) hover
    have hfront : (b.front (rounded 8)).header = .new 65512 67560 true := by decide
    exact ⟨m, m', hpaged, hhead, hread, halloc, hfront ▸ hread'⟩

end Heap

end WasmEngine
