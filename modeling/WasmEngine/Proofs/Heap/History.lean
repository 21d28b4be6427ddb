import Mathlib.Data.List.Pairwise
import WasmEngine.Proofs.Heap.FirstFit

/-!
# Proofs/Heap/History — a heap and its guest, request after request

A history starts from a cell that holds zero and goes on with requests, growth and writes of the
guest, which leaves the cell and the headers alone.  The log remembers what the allocator has grown
and returned.  `Heap.Keeps` is what every history keeps, and from it follows that storage never
overlaps (`Heap.alloc_apart`) and that requests are first fit (`Heap.alloc_firstFit`).
-/

namespace WasmEngine.Heap

variable {m m' : Memory} {stats : HeapStats} {cell size p : UInt32}
  {blocks blocks' : List HeapBlock}

/-- What an allocator has done: the ranges by which it has grown memory, the first one first, and
the storage it has returned. -/
structure Log where
  grown : List ByteRange := []
  returned : List ByteRange := []

namespace Log

/-- The size of memory when the allocator first grew it; until then, its size. -/
def base (log : Log) (m : Memory) : Nat := (log.grown.head?.map ByteRange.start).getD m.size

/-- Adds what a request has grown. -/
def grew (log : Log) (m m' : Memory) : Log :=
  if m'.size = m.size then log else { log with grown := log.grown ++ [⟨m.size, m'.size⟩] }

/-- Adds storage that has been returned. -/
def returning (log : Log) (r : ByteRange) : Log := { log with returned := r :: log.returned }

@[simp] theorem base_returning (log : Log) (r : ByteRange) (m : Memory) :
    (log.returning r).base m = log.base m := rfl

@[simp] theorem grown_returning (log : Log) (r : ByteRange) :
    (log.returning r).grown = log.grown := rfl

@[simp] theorem returned_returning (log : Log) (r : ByteRange) :
    (log.returning r).returned = r :: log.returned := rfl

@[simp] theorem returned_grew (log : Log) (m m' : Memory) :
    (log.grew m m').returned = log.returned := by
  unfold grew
  split <;> rfl

/-- A request does not change what existed before the first growth. -/
theorem base_grew (log : Log) (m m' : Memory) : (log.grew m m').base m' = log.base m := by
  unfold grew base
  split
  · rename_i hsize
    rw [hsize]
  · cases log.grown <;> rfl

theorem subset_grown_grew (log : Log) (m m' : Memory) : log.grown ⊆ (log.grew m m').grown := by
  unfold grew
  split
  · exact List.Subset.refl _
  · exact List.subset_append_left ..

end Log

/-- The bytes that a request for `size` bytes gets at `p`. -/
def storage (p size : UInt32) : ByteRange := .ofLength p.toNat (alignUp size.toNat alignment)

/-- A write that leaves the cell and the headers of all blocks on the list as they are. -/
structure GuestWrite (cell : UInt32) (m m' : Memory) : Prop where
  size : m'.size = m.size
  pages : m'.pages = m.pages
  maximum : m'.maximum = m.maximum
  cell_same : Memory.SameOn (Memory.cellRange cell) m m'
  headers : ∀ blocks, m.HasBlocks cell blocks → ∀ b ∈ blocks, Memory.SameOn b.headerRange m m'

/-- A write to ranges that are apart from the cell and the headers. -/
theorem GuestWrite.of_changesOnly {rs : List ByteRange} (h : m.ChangesOnly rs m')
    (hcell : ∀ r ∈ rs, (Memory.cellRange cell).Apart r)
    (hheaders : ∀ blocks, m.HasBlocks cell blocks → ∀ b ∈ blocks, ∀ r ∈ rs,
      b.headerRange.Apart r) : GuestWrite cell m m' where
  size := h.size
  pages := h.pages
  maximum := h.maximum
  cell_same := h.sameOn hcell
  headers blocks hblocks b hb := h.sameOn (hheaders blocks hblocks b hb)

/-- The heaps that come of an empty one, with the log of the requests so far. -/
inductive History (cell : UInt32) : Heap → Log → Prop
  /-- At the start the cell lies in memory and holds zero. -/
  | start {heap : Heap} (hpaged : heap.memory.IsPaged) (hhead : heap.memory.heapHead cell = .ok 0) :
      History cell heap {}
  /-- A request is served. -/
  | served {heap heap' : Heap} {log : Log} {size p : UInt32} (h : History cell heap log)
      (halloc : alloc cell size heap = .ok p heap') :
      History cell heap' ((log.grew heap.memory heap'.memory).returning (storage p size))
  /-- A request fails. -/
  | failed {heap heap' : Heap} {log : Log} {size : UInt32} {e : Error} (h : History cell heap log)
      (halloc : alloc cell size heap = .error e heap') :
      History cell heap' (log.grew heap.memory heap'.memory)
  /-- The guest grows its memory, or fails to. -/
  | grow {heap : Heap} {log : Log} (delta : Nat) (h : History cell heap log) :
      History cell ⟨(heap.memory.grow delta).2, heap.stats⟩ log
  /-- The guest writes to its memory. -/
  | write {heap : Heap} {log : Log} {memory : Memory} (h : History cell heap log)
      (hwrite : GuestWrite cell heap.memory memory) : History cell ⟨memory, heap.stats⟩ log

/-! ## The invariant -/

/-- What a history keeps: the blocks lie in what the allocator has grown, behind the cell, and all
returned storage lies in the payload of used blocks. -/
structure Keeps (cell : UInt32) (m : Memory) (log : Log) (blocks : List HeapBlock) : Prop where
  tidy : IsTidy cell m blocks
  cell_le : (Memory.cellRange cell).stop ≤ log.base m
  base_le : log.base m ≤ m.size
  grown : ∀ g ∈ log.grown, log.base m ≤ g.start ∧ g.stop ≤ m.size
  inside : ∀ b ∈ blocks, ∃ g ∈ log.grown, b.range.Within g
  owned : ∀ r ∈ log.returned, ∃ b ∈ blocks, ¬b.header.IsFree ∧ r.Within b.payloadRange

/-- A tidy heap stays so in any memory with the same cell and headers. -/
theorem IsTidy.of_sameOn (h : IsTidy cell m blocks) (hpaged : m'.IsPaged) (hle : m.size ≤ m'.size)
    (hcell : Memory.SameOn (Memory.cellRange cell) m m')
    (hheaders : ∀ b ∈ blocks, Memory.SameOn b.headerRange m m') : IsTidy cell m' blocks where
  paged := hpaged
  hasBlocks := h.hasBlocks.of_sameOn hle hcell hheaders
  tidy := h.tidy
  inside b hb := Nat.le_trans (h.inside b hb) hle
  apart := h.apart
  cell_apart := h.cell_apart

theorem Log.base_le_of_size_le (log : Log) (hle : m.size ≤ m'.size) :
    log.base m ≤ log.base m' := by
  unfold base
  cases log.grown with
  | nil => exact hle
  | cons g gs => exact Nat.le_refl _

theorem Log.base_le_size (log : Log) (hle : m.size ≤ m'.size) (h : log.base m ≤ m.size) :
    log.base m' ≤ m'.size := by
  unfold base at h ⊢
  cases hgrown : log.grown with
  | nil => exact Nat.le_refl _
  | cons g gs =>
    rw [hgrown] at h
    exact Nat.le_trans h hle

theorem Log.base_eq_of_mem {log : Log} {g : ByteRange} (hg : g ∈ log.grown) (m m' : Memory) :
    log.base m = log.base m' := by
  unfold base
  cases hgrown : log.grown with
  | nil => simp [hgrown] at hg
  | cons g gs => rfl

/-- Growth and writes of the guest keep what a history keeps. -/
theorem Keeps.of_sameOn {log : Log} (h : Keeps cell m log blocks) (hpaged : m'.IsPaged)
    (hle : m.size ≤ m'.size) (hcell : Memory.SameOn (Memory.cellRange cell) m m')
    (hheaders : ∀ b ∈ blocks, Memory.SameOn b.headerRange m m') : Keeps cell m' log blocks where
  tidy := h.tidy.of_sameOn hpaged hle hcell hheaders
  cell_le := Nat.le_trans h.cell_le (log.base_le_of_size_le hle)
  base_le := log.base_le_size hle h.base_le
  grown g hg := ⟨log.base_eq_of_mem hg m m' ▸ (h.grown g hg).1, Nat.le_trans (h.grown g hg).2 hle⟩
  inside := h.inside
  owned := h.owned

theorem keeps_start (hpaged : m.IsPaged) (hhead : m.heapHead cell = .ok 0) :
    Keeps cell m {} [] where
  tidy := isTidy_nil hpaged hhead
  cell_le := Memory.cell_le_of_heapHead hhead
  base_le := Nat.le_refl _
  grown := by simp
  inside := by simp
  owned := by simp

theorem Keeps.grow {log : Log} (h : Keeps cell m log blocks) (delta : Nat) :
    Keeps cell (m.grow delta).2 log blocks := by
  obtain ⟨head, hhead, -⟩ := h.tidy.hasBlocks
  refine h.of_sameOn (h.tidy.paged.grow delta) (Memory.size_le_size_grow m delta)
    (Memory.sameOn_grow m delta (Memory.cell_le_of_heapHead hhead)) fun b hb => ?_
  have hheader := (h.tidy.tidy b hb).header_within
  exact Memory.sameOn_grow m delta (Nat.le_trans hheader.2 (h.tidy.inside b hb))

theorem Keeps.write {log : Log} (h : Keeps cell m log blocks) (hwrite : GuestWrite cell m m') :
    Keeps cell m' log blocks :=
  h.of_sameOn (h.tidy.paged.of_eq hwrite.size hwrite.pages hwrite.maximum)
    (Nat.le_of_eq hwrite.size.symm) hwrite.cell_same (hwrite.headers blocks h.tidy.hasBlocks)

/-- What has been returned is apart from the cell and from all headers. -/
theorem Keeps.apart_of_returned {log : Log} {r : ByteRange} (h : Keeps cell m log blocks)
    (hr : r ∈ log.returned) :
    r.Apart (Memory.cellRange cell) ∧ ∀ b ∈ blocks, r.Apart b.headerRange := by
  obtain ⟨b, hb, -, hwithin⟩ := h.owned r hr
  have hrange := hwithin.trans HeapBlock.payloadRange_within
  have : Std.Symm fun b c : HeapBlock => b.range.Apart c.range := ⟨fun _ _ => ByteRange.Apart.symm⟩
  refine ⟨(h.tidy.cell_apart b hb).within_left hrange, fun c hc => ?_⟩
  by_cases heq : b = c
  · exact heq ▸ (HeapBlock.header_apart_payload.within_right hwithin).symm
  · have hapart := h.tidy.apart.forall hb hc heq
    exact (hapart.within_left hrange).within_right (h.tidy.tidy c hc).header_within

/-- **A guest may write to the storage that it has been given.** -/
theorem Keeps.guestWrite {log : Log} {r : ByteRange} (h : Keeps cell m log blocks)
    (hr : r ∈ log.returned) (hchanges : m.ChangesOnly [r] m') : GuestWrite cell m m' := by
  obtain ⟨hcell, hheaders⟩ := h.apart_of_returned hr
  refine .of_changesOnly hchanges (fun s hs => ?_) fun blocks' hblocks' b hb s hs => ?_
  · exact List.mem_singleton.1 hs ▸ hcell.symm
  · obtain rfl := hblocks'.unique h.tidy.hasBlocks
    exact List.mem_singleton.1 hs ▸ (hheaders b hb).symm

/-! ## Serving a request -/

/-- What it means that a served request overlaps nothing. -/
structure Grants (cell size p : UInt32) (m m' : Memory) (log : Log) : Prop where
  aligned : 8 ∣ p.toNat
  inside : (storage p size).stop ≤ m'.size
  fresh : ∃ g ∈ (log.grew m m').grown, (storage p size).Within g
  block : ∃ blocks, m'.HasBlocks cell blocks ∧
    (∃ b ∈ blocks, ¬b.header.IsFree ∧ (storage p size).Within b.payloadRange) ∧
    ∀ b ∈ blocks, (storage p size).Apart b.headerRange
  cell_apart : (storage p size).Apart (Memory.cellRange cell)
  earlier : ∀ r ∈ log.returned, (storage p size).Apart r
  kept : ∀ r ∈ log.returned, Memory.SameOn r m m'
  untouched : ∀ i < log.base m, i ∉ Memory.cellRange cell → m'.data[i]? = m.data[i]?

/-- What has been grown lies in memory, at or behind its first byte. -/
theorem Keeps.grown_grew {log : Log} (h : Keeps cell m log blocks) (hle : m.size ≤ m'.size) :
    ∀ g ∈ (log.grew m m').grown, log.base m ≤ g.start ∧ g.stop ≤ m'.size := by
  intro g hg
  unfold Log.grew at hg
  split at hg
  · exact ⟨(h.grown g hg).1, Nat.le_trans (h.grown g hg).2 hle⟩
  · rcases List.mem_append.1 hg with hg | hg
    · exact ⟨(h.grown g hg).1, Nat.le_trans (h.grown g hg).2 hle⟩
    · cases List.mem_singleton.1 hg
      exact ⟨h.base_le, Nat.le_refl _⟩

/-- The room of a request lies in what has been grown. -/
theorem Keeps.room_within {log : Log} {taken : List HeapBlock} {room : ByteRange}
    (h : Keeps cell m log blocks) (htaken : taken ⊆ blocks)
    (hsource : m'.size = m.size ∧ (∃ b ∈ taken, b.range = room) ∨
      m.size < m'.size ∧ room.Within ⟨m.size, m'.size⟩) :
    ∃ g ∈ (log.grew m m').grown, room.Within g := by
  rcases hsource with ⟨-, b, hb, rfl⟩ | ⟨hlt, hwithin⟩
  · obtain ⟨g, hg, hwithin⟩ := h.inside b (htaken hb)
    exact ⟨g, log.subset_grown_grew m m' hg, hwithin⟩
  · refine ⟨_, ?_, hwithin⟩
    rw [Log.grew, if_neg (Nat.ne_of_gt hlt)]
    exact List.mem_append_right _ List.mem_cons_self

/-- **The room of a request** lies in what has been grown, and so do all blocks afterwards. -/
theorem Keeps.inside_of_replaces {log : Log} {n : Nat} (h : Keeps cell m log blocks)
    (hr : Replaces cell n m m' p blocks blocks') :
    ∀ b ∈ blocks', ∃ g ∈ (log.grew m m').grown, b.range.Within g := by
  intro b hb
  cases hr with
  | @mk before taken pieces after room hdivides _ _ _ hsource _ =>
    have hperm := perm_parts before taken after
    rcases List.mem_append.1 ((perm_parts ..).mem_iff.1 hb) with hb | hb
    · obtain ⟨g, hg, hwithin⟩ := h.room_within
        (fun c hc => hperm.mem_iff.2 (List.mem_append_left _ hc)) hsource
      exact ⟨g, hg, (hdivides.within b hb).trans hwithin⟩
    · obtain ⟨g, hg, hwithin⟩ := h.inside b (hperm.mem_iff.2 (List.mem_append_right _ hb))
      exact ⟨g, log.subset_grown_grew m m' hg, hwithin⟩

/-- What existed before the first growth stays, but for the cell. -/
theorem Keeps.untouched {log : Log} {n i : Nat} (h : Keeps cell m log blocks)
    (hr : Replaces cell n m m' p blocks blocks') (hi : i < log.base m)
    (hcell : i ∉ Memory.cellRange cell) : m'.data[i]? = m.data[i]? := by
  have hle := hr.size_le
  cases hr with
  | @mk before taken pieces after room _ _ _ _ hsource hsame =>
    obtain ⟨g, hg, hwithin⟩ := h.room_within
      (fun c hc => (perm_parts before taken after).mem_iff.2 (List.mem_append_left _ hc)) hsource
    have hroom := Nat.le_trans (h.grown_grew hle g hg).1 hwithin.1
    refine hsame ⟨i, i + 1⟩ (Nat.le_trans hi h.base_le) (.inl (Nat.le_trans hi hroom)) ?_ i
      ⟨Nat.le_refl i, Nat.lt_succ_self i⟩
    simp only [ByteRange.mem_iff, ByteRange.Apart] at hcell ⊢
    omega

/-- A served request keeps what a history keeps. -/
theorem Keeps.replace {log : Log} (h : Keeps cell m log blocks)
    (hr : Replaces cell (alignUp size.toNat alignment) m m' p blocks blocks')
    (hpaged : m'.IsPaged) (hblocks : m'.HasBlocks cell blocks') :
    Keeps cell m' ((log.grew m m').returning (storage p size)) blocks' where
  tidy := hr.isTidy h.tidy hpaged hblocks
  cell_le := by
    rw [Log.base_returning, Log.base_grew]
    exact h.cell_le
  base_le := by
    rw [Log.base_returning, Log.base_grew]
    exact Nat.le_trans h.base_le hr.size_le
  grown := by
    rw [Log.base_returning, Log.base_grew]
    exact h.grown_grew hr.size_le
  inside := h.inside_of_replaces hr
  owned := by
    intro r hmem
    rw [Log.returned_returning, Log.returned_grew] at hmem
    rcases List.mem_cons.1 hmem with rfl | hmem
    · obtain ⟨b, hb, hused, -, hwithin⟩ := hr.exists_used
      exact ⟨b, hb, hused, hwithin⟩
    · obtain ⟨b, hb, hused, hwithin⟩ := h.owned r hmem
      exact ⟨b, (hr.used_kept h.tidy hb hused).1, hused, hwithin⟩

/-- A served request overlaps nothing. -/
theorem Keeps.grants {log : Log} (h : Keeps cell m log blocks)
    (hr : Replaces cell (alignUp size.toNat alignment) m m' p blocks blocks')
    (hpaged : m'.IsPaged) (hblocks : m'.HasBlocks cell blocks') :
    Grants cell size p m m' log := by
  have hreplaced : Keeps cell m' ((log.grew m m').returning (storage p size)) blocks' :=
    h.replace hr hpaged hblocks
  obtain ⟨b, hb, hused, haligned, hwithin⟩ := hr.exists_used
  obtain ⟨hcell, hheaders⟩ := hreplaced.apart_of_returned List.mem_cons_self
  have hrange := hwithin.trans HeapBlock.payloadRange_within
  refine ⟨haligned, Nat.le_trans hrange.2 (hreplaced.tidy.inside b hb), ?_,
    ⟨blocks', hblocks, ⟨b, hb, hused, hwithin⟩, hheaders⟩, hcell, fun r hmem => ?_,
    fun r hmem => ?_, fun i hi hcell => h.untouched hr hi hcell⟩
  · obtain ⟨g, hg, hg'⟩ := h.inside_of_replaces hr b hb
    exact ⟨g, hg, hrange.trans hg'⟩
  · obtain ⟨c, hc, hused, hwithin⟩ := h.owned r hmem
    exact (hr.used_kept h.tidy hc hused).2.1.within_right
      (hwithin.trans HeapBlock.payloadRange_within)
  · obtain ⟨c, hc, hused, hwithin⟩ := h.owned r hmem
    exact (hr.used_kept h.tidy hc hused).2.2.within (hwithin.trans HeapBlock.payloadRange_within)

/-- A request keeps what a history keeps: it fails and memory is unchanged, or it is served. -/
theorem Keeps.alloc_cases {log : Log} (cell size : UInt32) (heap : Heap)
    (h : Keeps cell heap.memory log blocks) :
    (∃ e heap', alloc cell size heap = .error e heap' ∧ heap'.memory = heap.memory) ∨
      ∃ p heap' blocks', alloc cell size heap = .ok p heap' ∧
        Replaces cell (alignUp size.toNat alignment) heap.memory heap'.memory p blocks blocks' ∧
        heap'.memory.IsPaged ∧ heap'.memory.HasBlocks cell blocks' := by
  obtain ⟨m, stats⟩ := heap
  rcases Heap.alloc_cases cell size stats h.tidy with
    ⟨e, stats', halloc⟩ | ⟨p, m', stats', blocks', halloc, hsize, hserves, hblocks⟩
  · exact .inl ⟨e, _, halloc, rfl⟩
  · have hreplaces := hserves.replaces h.tidy
    rw [toNat_rounded hsize] at hreplaces
    exact .inr ⟨p, _, blocks', halloc, hreplaces, hserves.isPaged h.tidy.paged, hblocks⟩

/-- **Every history keeps the invariant.** -/
theorem History.keeps {heap : Heap} {log : Log} (h : History cell heap log) :
    ∃ blocks, Keeps cell heap.memory log blocks := by
  induction h with
  | start hpaged hhead => exact ⟨[], keeps_start hpaged hhead⟩
  | @served heap heap' log size p _ halloc ih =>
    obtain ⟨blocks, hkeeps⟩ := ih
    rcases Keeps.alloc_cases cell size heap hkeeps with
      ⟨e, heap₁, halloc₁, -⟩ | ⟨p₁, heap₁, blocks', halloc₁, hreplaces, hpaged, hblocks⟩
    · cases halloc.symm.trans halloc₁
    · cases halloc.symm.trans halloc₁
      exact ⟨blocks', hkeeps.replace hreplaces hpaged hblocks⟩
  | @failed heap heap' log size e _ halloc ih =>
    obtain ⟨blocks, hkeeps⟩ := ih
    rcases Keeps.alloc_cases cell size heap hkeeps with
      ⟨e₁, heap₁, halloc₁, hmemory⟩ | ⟨p₁, heap₁, blocks', halloc₁, -⟩
    · cases halloc.symm.trans halloc₁
      rw [hmemory, Log.grew, if_pos rfl]
      exact ⟨blocks, hkeeps⟩
    · cases halloc.symm.trans halloc₁
  | grow delta _ ih =>
    obtain ⟨blocks, hkeeps⟩ := ih
    exact ⟨blocks, hkeeps.grow delta⟩
  | write _ hwrite ih =>
    obtain ⟨blocks, hkeeps⟩ := ih
    exact ⟨blocks, hkeeps.write hwrite⟩

/-- **Storage never overlaps.**  Whatever has happened since the cell held zero, a request that is
served gets aligned storage in pages that the allocator has grown and in one used block, apart from
the cell, from all headers and from all storage returned before, of which no byte changes; and of
what existed before the first growth only the cell does. -/
theorem alloc_apart {heap heap' : Heap} {log : Log} (h : History cell heap log)
    (halloc : alloc cell size heap = .ok p heap') :
    Grants cell size p heap.memory heap'.memory log := by
  obtain ⟨blocks, hkeeps⟩ := h.keeps
  rcases Keeps.alloc_cases cell size heap hkeeps with
    ⟨e, heap₁, halloc₁, -⟩ | ⟨p₁, heap₁, blocks', halloc₁, hreplaces, hpaged, hblocks⟩
  · cases halloc.symm.trans halloc₁
  · cases halloc.symm.trans halloc₁
    exact hkeeps.grants hreplaces hpaged hblocks

/-- A guest with one page that may grow to four asks for twelve bytes, grows its memory by a page and
writes to the storage it has been given; then it asks for a hundred bytes. -/
theorem alloc_apart_second : ∃ p heap m log q heap',
    alloc 1024 12 ⟨.new 1 4, {}⟩ = .ok p heap ∧ (heap.memory.grow 1).1 = some 2 ∧
    Memory.store 1 p 0 7 (heap.memory.grow 1).2 = .ok () m ∧
    History 1024 ⟨m, heap.stats⟩ log ∧ log.returned = [storage p 12] ∧
    alloc 1024 100 ⟨m, heap.stats⟩ = .ok q heap' ∧
    Grants 1024 100 q m heap'.memory log ∧ (storage q 100).Apart (storage p 12) ∧
    heap'.memory.load 1 p 0 = .ok 7 := by
  have hhead : (Memory.new 1 4).heapHead 1024 = .ok 0 := Memory.heapHead_new (by decide)
  have hstart : History 1024 ⟨.new 1 4, {}⟩ {} := .start (.new 1 4) hhead
  have htidy := isTidy_nil (.new 1 4) hhead
  obtain ⟨p, heap, halloc, hpages⟩ :=
    htidy.alloc_grows {} (by decide : 12 ≤ maxRequest) rfl (by decide)
  obtain ⟨-, blocks, hserves, hblocks⟩ := htidy.exists_serves halloc
  obtain ⟨-, head, rfl⟩ := hserves.carved_of_none (by simp)
  -- The guest grows its memory.
  have hgrow : (heap.memory.grow 1).1 = some 2 := by
    have hmax : heap.memory.maximum = 4 := hserves.maximum
    rw [Memory.grow_of_le (by rw [hmax, hpages]; decide), hpages]
    rfl
  have hserved := hstart.served halloc
  obtain ⟨blocks, hkeeps⟩ := hserved.keeps
  obtain rfl := hkeeps.tidy.hasBlocks.unique hblocks
  have hgrown := hkeeps.grow 1
  -- It writes to the first byte of its storage.
  have hstop := (alloc_apart hstart halloc).inside
  have hinside := Nat.le_trans hstop (Memory.size_le_size_grow heap.memory 1)
  have hbyte : (ByteRange.ofLength (p.toNat + 0) 1).Within (storage p 12) := by
    simp only [ByteRange.Within, storage, ByteRange.start_ofLength, ByteRange.stop_ofLength]
    exact ⟨Nat.le_refl _, Nat.add_le_add_left (by decide) _⟩
  obtain ⟨m, hstore, hchanges, hload⟩ := Memory.exists_store p 0 7 (by decide : 1 < 2 ^ 63)
    (Nat.le_trans hbyte.2 hinside)
  have hwrite := hgrown.guestWrite List.mem_cons_self (hchanges.of_within hbyte List.mem_cons_self)
  have hwritten : History 1024 ⟨m, heap.stats⟩ _ := (hserved.grow 1).write hwrite
  -- The rest of the page that the allocator has grown serves the second request.
  have htidy' : IsTidy 1024 (⟨m, heap.stats⟩ : Heap).memory _ := (hgrown.write hwrite).tidy
  obtain ⟨_, _, _, q, heap', -, halloc', -⟩ :=
    htidy'.alloc_fits heap.stats (by decide : 100 ≤ maxRequest) rfl
  obtain ⟨-, _, hserves', -⟩ := htidy'.exists_serves halloc'
  have hgrants := alloc_apart hwritten halloc'
  have hkept := (hgrants.kept _ List.mem_cons_self).within hbyte
  refine ⟨p, heap, m, _, q, heap', halloc, hgrow, hstore, hwritten, by simp, halloc', hgrants,
    hgrants.earlier _ List.mem_cons_self, ?_⟩
  exact Memory.load_of_sameOn (by decide) hload (hserves'.replaces htidy').size_le hkept

/-! ## First fit -/

/-- **Requests are first fit.**  Whatever has happened since the cell held zero, the first block on
the list that is free and large enough serves a request; if there is none, memory grows by the pages
that are needed, and the request fails only if it may not or if the request is too large. -/
theorem alloc_firstFit {heap : Heap} {log : Log} (h : History cell heap log) (size : UInt32) :
    ∃ blocks, heap.memory.HasBlocks cell blocks ∧ IsFirstFit cell size heap blocks := by
  obtain ⟨blocks, hkeeps⟩ := h.keeps
  exact ⟨blocks, hkeeps.tidy.hasBlocks, hkeeps.tidy.isFirstFit size heap.stats⟩

/-- A guest with one page asks for twelve bytes, for which its memory grows, and then for a hundred
more, which come out of the rest of the second page. -/
theorem alloc_firstFit_second : ∃ p heap log, alloc 1024 12 ⟨.new 1 4, {}⟩ = .ok p heap ∧
    History 1024 heap log ∧ heap.memory.pages = 2 ∧
    ∃ q heap', alloc 1024 100 heap = .ok q heap' ∧ heap'.memory.pages = 2 := by
  have hhead : (Memory.new 1 4).heapHead 1024 = .ok 0 := Memory.heapHead_new (by decide)
  have hstart : History 1024 ⟨.new 1 4, {}⟩ {} := .start (.new 1 4) hhead
  obtain ⟨none, hnone, hfirst⟩ := alloc_firstFit hstart 12
  obtain rfl : none = [] := hnone.unique ⟨0, hhead, rfl⟩
  obtain ⟨p, heap, halloc, hpages⟩ := hfirst.grows (by decide) rfl 1 (by decide) (by decide)
  have hserved := hstart.served halloc
  obtain ⟨blocks, hblocks, hsecond⟩ := alloc_firstFit hserved 100
  refine ⟨p, heap, _, halloc, hserved, hpages, ?_⟩
  obtain ⟨-, blocks', hserves, hblocks'⟩ := (isTidy_nil (.new 1 4) hhead).exists_serves halloc
  obtain rfl := hblocks.unique hblocks'
  obtain ⟨-, head, rfl⟩ := hserves.carved_of_none (by simp)
  obtain ⟨_, _, _, q, heap', -, halloc', hpages', -⟩ := hsecond.fits (by decide) _ rfl
  exact ⟨q, heap', halloc', hpages'.trans hpages⟩

end WasmEngine.Heap
