import WasmEngine.Proofs.Heap.History

/-!
# Proofs/Heap/Accounting — no byte of a heap is lost

The walk adds up the blocks of the list (`Memory.Chain.walkFrom_eq`).  Every served request puts
blocks on the list that come to the room they divide, one of them used (`Heap.IsPortion`), so that
the sums over the list always balance with what has been requested and grown
(`Heap.History.balances`), and so does what the walk reports: `Heap.walkHeap_accounts`.
-/

namespace WasmEngine

namespace HeapBlock

/-- Whether the block is used. -/
def IsUsed (b : HeapBlock) : Prop := ¬b.header.IsFree

instance (b : HeapBlock) : Decidable b.IsUsed := inferInstanceAs (Decidable (¬_))

/-- The size of the block, header included. -/
def size (b : HeapBlock) : Nat := b.header.size.toNat

/-- The payload that the block adds to the used bytes. -/
def usedBytes (b : HeapBlock) : Nat := if b.header.IsFree then 0 else b.payloadSize

/-- The payload that the block adds to the free bytes. -/
def freeBytes (b : HeapBlock) : Nat := if b.header.IsFree then b.payloadSize else 0

variable {b : HeapBlock}

theorem usedBytes_of_isFree (h : b.header.IsFree) : b.usedBytes = 0 := if_pos h

theorem usedBytes_of_isUsed (h : b.IsUsed) : b.usedBytes = b.payloadSize := if_neg h

theorem payloadSize_add (hb : BlockHeader.bytes ≤ b.size) :
    b.usedBytes + b.freeBytes + BlockHeader.bytes = b.size := by
  have hpayload : b.payloadSize = b.size - BlockHeader.bytes := rfl
  unfold usedBytes freeBytes
  split <;> omega

end HeapBlock

/-! ## The walk -/

namespace Memory

variable {m : Memory} {a : UInt32} {blocks : List HeapBlock}

/-- **A walk that may visit every block** adds up the list. -/
theorem Chain.walkFrom_eq {left : Nat} (h : m.Chain a blocks 0) (hle : blocks.length ≤ left)
    (usage : HeapUsage) :
    m.walkFrom left a usage =
      .ok ⟨usage.blocks + blocks.length, usage.usedBytes + (blocks.map HeapBlock.usedBytes).sum,
        usage.freeBytes + (blocks.map HeapBlock.freeBytes).sum⟩ := by
  induction blocks generalizing a left usage with
  | nil =>
    cases (h : a = 0)
    unfold walkFrom
    exact if_pos rfl
  | cons block blocks ih =>
    obtain ⟨hne, rfl, hread, hchain⟩ := h
    cases left with
    | zero => exact absurd hle (Nat.not_succ_le_zero _)
    | succ left =>
      have hpayload : block.header.payload.toNat = block.payloadSize :=
        BlockHeader.toNat_payload (isSound_of_readHeader hread).1.2.1
      unfold walkFrom
      simp only [if_neg hne, hread, ih hchain (Nat.le_of_succ_le_succ hle), hpayload,
        List.length_cons, List.map_cons, List.sum_cons]
      by_cases hfree : block.header.IsFree
      · simp only [if_pos hfree, HeapBlock.usedBytes, HeapBlock.freeBytes, Except.ok.injEq,
          HeapUsage.mk.injEq]
        omega
      · simp only [if_neg hfree, HeapBlock.usedBytes, HeapBlock.freeBytes, Except.ok.injEq,
          HeapUsage.mk.injEq]
        omega

end Memory

namespace Heap

variable {m m' : Memory} {cell size p : UInt32} {blocks blocks' : List HeapBlock} {n : Nat}

/-- On a tidy heap the walk succeeds. -/
theorem IsTidy.walkHeap_eq (h : IsTidy cell m blocks) :
    m.walkHeap cell = .ok ⟨blocks.length, (blocks.map HeapBlock.usedBytes).sum,
      (blocks.map HeapBlock.freeBytes).sum⟩ := by
  obtain ⟨head, hhead, hchain⟩ := h.hasBlocks
  simp only [Memory.walkHeap, hhead, hchain.walkFrom_eq h.length_le, Nat.zero_add]

/-- Payloads and headers come to the sizes of the blocks. -/
theorem IsTidy.sum_payloads (h : IsTidy cell m blocks) :
    (blocks.map HeapBlock.usedBytes).sum + (blocks.map HeapBlock.freeBytes).sum +
      BlockHeader.bytes * blocks.length = (blocks.map HeapBlock.size).sum := by
  have hblocks := h.tidy
  clear h
  induction blocks with
  | nil => rfl
  | cons b blocks ih =>
    have hb := HeapBlock.payloadSize_add (hblocks b List.mem_cons_self).header_le
    have hrest := ih fun c hc => hblocks c (List.mem_cons_of_mem _ hc)
    simp only [List.map_cons, List.sum_cons, List.length_cons, Nat.mul_succ] at hrest ⊢
    omega

/-! ## What a request puts on the list -/

/-- Blocks of `total` bytes that hand out `n` bytes of payload, or few more. -/
structure IsPortion (n total : Nat) (pieces : List HeapBlock) : Prop where
  used : pieces.countP (·.IsUsed) = 1
  enough : n ≤ (pieces.map HeapBlock.usedBytes).sum
  not_much_more : (pieces.map HeapBlock.usedBytes).sum ≤ n + 16
  total : (pieces.map HeapBlock.size).sum = total

theorem isPortion_singleton {used : HeapBlock} {total : Nat} (hused : used.IsUsed)
    (hsize : used.size = total) (hle : n ≤ used.payloadSize) (hclose : used.payloadSize ≤ n + 16) :
    IsPortion n total [used] where
  used := by simp [hused]
  enough := by simpa [HeapBlock.usedBytes_of_isUsed hused]
  not_much_more := by simpa [HeapBlock.usedBytes_of_isUsed hused]
  total := by simpa

theorem isPortion_pair {free used : HeapBlock} {total : Nat} (hfree : free.header.IsFree)
    (hused : used.IsUsed) (hsize : free.size + used.size = total) (hn : used.payloadSize = n) :
    IsPortion n total [free, used] where
  used := by
    have hfree' : ¬free.IsUsed := not_not_intro hfree
    simp [hused, hfree']
  enough := by
    simp [HeapBlock.usedBytes_of_isFree hfree, HeapBlock.usedBytes_of_isUsed hused, hn]
  not_much_more := by
    simp [HeapBlock.usedBytes_of_isFree hfree, HeapBlock.usedBytes_of_isUsed hused, hn]
  total := by simpa

/-- The parts of a block that serves are all of it. -/
theorem isPortion_of_yields {b : HeapBlock} {pieces : List HeapBlock}
    (h : b.Yields n p pieces) (hfits : b.Fits n) (hb : alignment ∣ b.size) (hn : alignment ∣ n) :
    IsPortion n b.size pieces := by
  have hpayload : b.payloadSize = b.size - BlockHeader.bytes := rfl
  cases h with
  | @tail front used hrest hstart hfree hmeet hused hstop hp hend =>
    simp only [HeapBlock.stop, hstart] at hmeet hstop hend
    refine isPortion_pair hfree hused ?_ ?_ <;>
      simp only [HeapBlock.payloadSize, HeapBlock.size] <;> omega
  | @whole used hrest hrange hused hp =>
    have hsize : used.size = b.size := by
      have hlength := congrArg ByteRange.length hrange
      rwa [used.length_range, b.length_range] at hlength
    have hused' : used.payloadSize = b.payloadSize := congrArg (· - BlockHeader.bytes) hsize
    have hle := hfits.2
    refine isPortion_singleton hused hsize (hused' ▸ hle) ?_
    simp only [alignment, BlockHeader.bytes] at *
    omega

/-- What new room is carved into is all of it. -/
theorem isPortion_carved {room : ByteRange} (head : UInt32) (h : IsRoomFor room size.toNat)
    (hsize : alignment ∣ size.toNat) :
    IsPortion size.toNat room.length (carved head size room) := by
  have hfits := h.fits
  have hused : alignment ∣ BlockHeader.bytes + size.toNat := Nat.dvd_add (by decide) hsize
  by_cases hrest : room.start + (BlockHeader.bytes + size.toNat) + BlockHeader.bytes + alignment ≤
      room.stop
  · obtain ⟨-, -, hfree⟩ :=
      restBlock_spec h (Nat.dvd_add h.aligned hused) (Nat.le_of_add_right_le hrest)
    obtain ⟨-, -, hn⟩ := usedBlock_spec head h hused (Nat.le_add_right ..) (by omega)
    simp only [carved, if_pos hrest]
    refine isPortion_pair (by simp [restBlock]) (by simp [usedBlock, HeapBlock.IsUsed]) ?_ ?_
    · simp only [HeapBlock.size, hfree, hn, ByteRange.length]
      omega
    · rw [HeapBlock.payloadSize, hn, Nat.add_sub_cancel_left]
  · have hroom : alignment ∣ room.stop - room.start := Nat.dvd_sub h.aligned_stop h.aligned
    obtain ⟨-, -, hn⟩ := usedBlock_spec head h hroom (by omega) (by omega)
    simp only [carved, if_neg hrest]
    refine isPortion_singleton (by simp [usedBlock, HeapBlock.IsUsed]) hn ?_ ?_ <;>
      rw [HeapBlock.payloadSize, hn] <;> simp only [alignment, BlockHeader.bytes] at * <;> omega

/-! ## The log and the list -/

namespace Log

/-- The bytes that have been returned, each request rounded up. -/
def requested (log : Log) : Nat := (log.returned.map ByteRange.length).sum

/-- The pages that the allocator has grown. -/
def pagesGrown (log : Log) : Nat := (log.grown.map fun r => r.length / Memory.pageSize).sum

@[simp] theorem requested_returning (log : Log) (r : ByteRange) :
    (log.returning r).requested = r.length + log.requested := by
  simp [requested]

@[simp] theorem pagesGrown_returning (log : Log) (r : ByteRange) :
    (log.returning r).pagesGrown = log.pagesGrown := rfl

@[simp] theorem requested_grew (log : Log) (m m' : Memory) :
    (log.grew m m').requested = log.requested := by
  rw [requested, returned_grew, requested]

theorem pagesGrown_grew (log : Log) {pages : Nat} (h : m'.size = m.size + pages * Memory.pageSize) :
    (log.grew m m').pagesGrown = log.pagesGrown + pages := by
  have hlength : (⟨m.size, m'.size⟩ : ByteRange).length / Memory.pageSize = pages := by
    rw [ByteRange.length, h, Nat.add_sub_cancel_left, Nat.mul_div_cancel _ (by decide)]
  unfold grew
  split
  · have hpages : pages * Memory.pageSize = 0 := by omega
    rw [(Nat.mul_eq_zero.1 hpages).resolve_right (by decide), Nat.add_zero]
  · simp [pagesGrown, hlength]

end Log

theorem length_storage (p size : UInt32) :
    (storage p size).length = alignUp size.toNat alignment :=
  Nat.add_sub_cancel_left ..

/-- The blocks on the list come to what has been returned and grown. -/
structure Balances (log : Log) (blocks : List HeapBlock) : Prop where
  used : blocks.countP (·.IsUsed) = log.returned.length
  enough : log.requested ≤ (blocks.map HeapBlock.usedBytes).sum
  not_much_more : (blocks.map HeapBlock.usedBytes).sum ≤ log.requested + 16 * log.returned.length
  total : (blocks.map HeapBlock.size).sum = log.pagesGrown * Memory.pageSize

/-- **A portion in the place of free blocks** keeps the balance. -/
theorem Balances.replace {log log' : Log} {before taken pieces after : List HeapBlock}
    {r : ByteRange} {total : Nat} (h : Balances log (before ++ taken ++ after))
    (hpieces : IsPortion r.length total pieces) (hfree : ∀ b ∈ taken, b.header.IsFree)
    (hreturned : log'.returned = r :: log.returned)
    (htotal : log'.pagesGrown * Memory.pageSize + (taken.map HeapBlock.size).sum =
      log.pagesGrown * Memory.pageSize + total) :
    Balances log' (before ++ pieces ++ after) := by
  have hcount : taken.countP (·.IsUsed) = 0 :=
    List.countP_eq_zero.2 fun b hb hused => of_decide_eq_true hused (hfree b hb)
  have hbytes : (taken.map HeapBlock.usedBytes).sum = 0 := by
    refine List.sum_eq_zero fun n hn => ?_
    obtain ⟨b, hb, rfl⟩ := List.mem_map.1 hn
    exact HeapBlock.usedBytes_of_isFree (hfree b hb)
  have hrequested : log'.requested = r.length + log.requested := by
    rw [Log.requested, hreturned, List.map_cons, List.sum_cons, Log.requested]
  have hlength : log'.returned.length = log.returned.length + 1 := by
    rw [hreturned, List.length_cons]
  obtain ⟨hused, henough, hclose, hsum⟩ := h
  obtain ⟨hused', henough', hclose', hsum'⟩ := hpieces
  simp only [List.countP_append, List.map_append, List.sum_append] at hused henough hclose hsum
  constructor <;> simp only [List.countP_append, List.map_append, List.sum_append] <;> omega

/-- New pages below the last one that addresses reach are carved as a whole. -/
theorem length_freshRoom {old pages : Nat} (hold : 0 < old)
    (hmax : old + pages < Memory.maxPages) :
    (freshRoom old pages).length = pages * Memory.pageSize := by
  simp only [freshRoom, ByteRange.length, Memory.pageSize, Memory.maxPages, alignment,
    UInt32.size] at *
  omega

/-- **Serving a request** keeps the balance. -/
theorem Serves.balances {log : Log} (h : Serves cell (rounded size) m m' p blocks blocks')
    (ht : IsTidy cell m blocks) (hmax : m.maximum < Memory.maxPages) (hsize : size ≤ maxRequest)
    (hbalances : Balances log blocks) :
    Balances ((log.grew m m').returning (storage p size)) blocks' := by
  have hdvd := (rounded_spec hsize).1
  have hlength : (storage p size).length = (rounded size).toNat := by
    rw [length_storage, toNat_rounded hsize]
  cases h with
  | @cut before after b hfirst hserves hchanges hdivides =>
    have hb := ht.tidy b (by simp)
    have hportion := isPortion_of_yields (HeapBlock.yields_cut hb hserves hdivides)
      ((HeapBlock.fits_iff hb.header_le).2 hserves) hb.aligned_size hdvd
    have hlog : log.grew m m' = log := if_pos hchanges.size
    rw [List.append_cons] at hbalances
    refine hbalances.replace (hlength ▸ hportion) (List.forall_mem_singleton.2 hserves.1)
      (by simp) ?_
    simp [hlog]
  | @grow _ head room hnone hgrown hroom hchanges hdivides =>
    obtain ⟨-, hold⟩ := ht.freshRoom_start (pagesFor (rounded size))
    have hle := Memory.le_maximum_of_grow hgrown (pagesFor_pos _)
    have hportion := isPortion_carved head
      (isRoomFor_freshRoom hold (Nat.le_trans hle ht.paged.maximum)) hdvd
    rw [length_freshRoom hold (Nat.lt_of_le_of_lt hle hmax), ← hlength] at hportion
    have hgrew := log.pagesGrown_grew (hchanges.size.trans (Memory.size_grow_of_some hgrown))
    show Balances _ ([] ++ carved head (rounded size) room ++ blocks)
    have hbalances' : Balances log ([] ++ [] ++ blocks) := hbalances
    refine hbalances'.replace (hroom ▸ hportion) (by simp) (by simp) ?_
    simp [hgrew, Nat.add_mul]

/-- **Every history balances.** -/
theorem History.balances {heap : Heap} {log : Log} (h : History cell heap log)
    (hmax : heap.memory.maximum < Memory.maxPages) :
    ∃ blocks, heap.memory.HasBlocks cell blocks ∧ Balances log blocks := by
  induction h with
  | start hpaged hhead => exact ⟨[], ⟨0, hhead, rfl⟩, by constructor <;> rfl⟩
  | @served heap heap' log size p h halloc ih =>
    obtain ⟨blocks, hkeeps⟩ := h.keeps
    obtain ⟨hsize, blocks', hserves, hblocks'⟩ := hkeeps.tidy.exists_serves halloc
    have hmax' : heap.memory.maximum < Memory.maxPages := hserves.maximum ▸ hmax
    obtain ⟨blocks₀, hblocks, hbalances⟩ := ih hmax'
    obtain rfl := hblocks.unique hkeeps.tidy.hasBlocks
    exact ⟨blocks', hblocks', hserves.balances hkeeps.tidy hmax' hsize hbalances⟩
  | @failed heap heap' log size e h halloc ih =>
    obtain ⟨blocks, hkeeps⟩ := h.keeps
    rw [hkeeps.tidy.memory_of_error halloc] at hmax ⊢
    rw [Log.grew, if_pos rfl]
    exact ih hmax
  | grow delta h ih =>
    rw [Memory.maximum_grow] at hmax
    obtain ⟨blocks, hblocks, hbalances⟩ := ih hmax
    obtain ⟨blocks₀, hkeeps⟩ := h.keeps
    obtain rfl := hblocks.unique hkeeps.tidy.hasBlocks
    exact ⟨_, (hkeeps.grow delta).tidy.hasBlocks, hbalances⟩
  | write h hwrite ih =>
    obtain ⟨blocks, hblocks, hbalances⟩ := ih (hwrite.maximum ▸ hmax)
    obtain ⟨blocks₀, hkeeps⟩ := h.keeps
    obtain rfl := hblocks.unique hkeeps.tidy.hasBlocks
    exact ⟨_, (hkeeps.write hwrite).tidy.hasBlocks, hbalances⟩

/-- **The walk accounts for every byte.**  Whatever has happened since the cell held zero, in a
memory that may not grow to its last page: the walk succeeds and visits one used block for each
request that was served; the used bytes are what has been requested, up to sixteen bytes for each
block; and payloads and headers come to the pages that the allocator has grown. -/
theorem walkHeap_accounts {heap : Heap} {log : Log} (h : History cell heap log)
    (hmax : heap.memory.maximum < Memory.maxPages) :
    ∃ usage blocks, heap.memory.walkHeap cell = .ok usage ∧
      heap.memory.HasBlocks cell blocks ∧ usage.blocks = blocks.length ∧
      blocks.countP (·.IsUsed) = log.returned.length ∧
      log.requested ≤ usage.usedBytes ∧
      usage.usedBytes ≤ log.requested + 16 * log.returned.length ∧
      usage.usedBytes + usage.freeBytes + BlockHeader.bytes * usage.blocks =
        Memory.pageSize * log.pagesGrown := by
  obtain ⟨blocks, hblocks, hbalances⟩ := h.balances hmax
  obtain ⟨blocks₀, hkeeps⟩ := h.keeps
  obtain rfl := hblocks.unique hkeeps.tidy.hasBlocks
  have hsum := hkeeps.tidy.sum_payloads.trans hbalances.total
  exact ⟨_, blocks, hkeeps.tidy.walkHeap_eq, hblocks, rfl, hbalances.used, hbalances.enough,
    hbalances.not_much_more, hsum.trans (Nat.mul_comm ..)⟩

/-- A guest with one page that may grow to four asks for twelve bytes; the walk finds them, and all
of the page that has been grown. -/
theorem walkHeap_accounts_first : ∃ p heap log, alloc 1024 12 ⟨.new 1 4, {}⟩ = .ok p heap ∧
    History 1024 heap log ∧ heap.memory.maximum < Memory.maxPages ∧
    ∃ usage, heap.memory.walkHeap 1024 = .ok usage ∧
      16 ≤ usage.usedBytes ∧ usage.usedBytes ≤ 32 ∧
      usage.usedBytes + usage.freeBytes + 16 * usage.blocks = 65536 := by
  have hhead : (Memory.new 1 4).heapHead 1024 = .ok 0 := Memory.heapHead_new (by decide)
  have hstart : History 1024 ⟨.new 1 4, {}⟩ {} := .start (.new 1 4) hhead
  have htidy := isTidy_nil (.new 1 4) hhead
  obtain ⟨p, heap, halloc, hpages⟩ := htidy.alloc_grows {} (by decide : 12 ≤ maxRequest) rfl
    (by decide)
  obtain ⟨-, blocks', hserves, -⟩ := htidy.exists_serves halloc
  have hmax : heap.memory.maximum < Memory.maxPages :=
    hserves.maximum ▸ (by decide : 4 < Memory.maxPages)
  have hserved := hstart.served halloc
  have hsize : heap.memory.size = (Memory.new 1 4).size + 1 * Memory.pageSize := by
    rw [(hserves.isPaged (.new 1 4)).size, hpages, (Memory.IsPaged.new 1 4).size]
    rfl
  obtain ⟨usage, blocks, hwalk, -, -, -, henough, hclose, htotal⟩ :=
    walkHeap_accounts hserved hmax
  simp only [Log.requested_returning, Log.requested_grew, Log.returned_returning,
    Log.returned_grew, length_storage, Log.pagesGrown_returning, Log.pagesGrown_grew _ hsize]
    at henough hclose htotal
  exact ⟨p, heap, _, halloc, hserved, hmax, usage, hwalk, henough, hclose, htotal⟩

end Heap

end WasmEngine
