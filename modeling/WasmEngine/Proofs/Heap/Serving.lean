import WasmEngine.Proofs.Heap.Carving

/-!
# Proofs/Heap/Serving — what one request does

On a tidy heap (`Heap.IsTidy`) a request is refused with memory unchanged, or it is served in one of
two ways, `Heap.Serves`: the first free block that is large enough is cut, or new pages are carved.
Either way the heap is tidy again, `Heap.Serves.isTidy`.
-/

namespace WasmEngine.Heap

variable {m m' : Memory} {stats : HeapStats} {cell size p : UInt32}
  {blocks blocks' : List HeapBlock}

/-! ## The steps of a request -/

theorem ofMemory_bind {α β : Type} {f : Memory → Except Error α} {g : α → HeapM β} {a : α}
    (h : f m = .ok a) : (ofMemory f >>= g) ⟨m, stats⟩ = g a ⟨m, stats⟩ := by
  simp only [bind, EStateM.bind, ofMemory, h]

theorem ofMemory_bind_error {α β : Type} {f : Memory → Except Error α} {g : α → HeapM β}
    {e : Error} (h : f m = .error e) : (ofMemory f >>= g) ⟨m, stats⟩ = .error e ⟨m, stats⟩ := by
  simp only [bind, EStateM.bind, ofMemory, h]

/-- The statistics once a request has been counted. -/
def counted (stats : HeapStats) (size : UInt32) : HeapStats :=
  { stats with
    allocations := stats.allocations + 1
    bytesRequested := stats.bytesRequested + (rounded size).toUInt64 }

/-- Serves a request from what the search has found. -/
def serve (cell head size : UInt32) : Option (UInt32 × BlockHeader) → HeapM UInt32
  | some (addr, h) => take addr h size
  | none => growAndCarve cell head size

theorem alloc_of_lt (h : maxRequest < size) :
    alloc cell size ⟨m, stats⟩ = .error outOfMemory ⟨m, stats⟩ := by
  unfold alloc
  rw [if_pos h]
  rfl

theorem alloc_eq_search {head : UInt32} (h : size ≤ maxRequest)
    (hhead : m.heapHead cell = .ok head) :
    alloc cell size ⟨m, stats⟩ =
      ((ofMemory fun m => m.findFree (rounded size) (maxBlocks m.size) head) >>=
        serve cell head (rounded size)) ⟨m, counted stats size⟩ := by
  unfold alloc
  rw [if_neg (UInt32.not_lt.2 h)]
  refine (ofMemory_bind hhead).trans (record_bind.trans ?_)
  refine congrArg (fun f => (ofMemory _ >>= f) _) (funext fun found => ?_)
  obtain _ | ⟨addr, h⟩ := found <;> rfl

/-! ## New pages are room enough -/

theorem le_pagesFor (size : UInt32) :
    BlockHeader.bytes + alignment + size.toNat ≤ pagesFor size * Memory.pageSize := by
  simp only [pagesFor, BlockHeader.bytes, alignment, Memory.pageSize]
  omega

theorem pagesFor_pos (size : UInt32) : 0 < pagesFor size := by
  have hle := le_pagesFor size
  rcases Nat.eq_zero_or_pos (pagesFor size) with hzero | hpos
  · simp [hzero, BlockHeader.bytes] at hle
  · exact hpos

theorem isRoomFor_freshRoom {old : Nat} (hold : 0 < old)
    (hmax : old + pagesFor size ≤ Memory.maxPages) :
    IsRoomFor (freshRoom old (pagesFor size)) size.toNat := by
  have hpages := le_pagesFor size
  generalize pagesFor size = pages at hmax hpages ⊢
  simp only [BlockHeader.bytes, alignment, Memory.pageSize, Memory.maxPages] at hpages hmax
  refine ⟨?_, ?_, ?_, ?_, ?_⟩ <;>
    simp only [freshRoom, BlockHeader.bytes, alignment, Memory.pageSize, UInt32.size] <;> omega

/-- The new pages start where memory ended, behind the page of the cell. -/
theorem freshRoom_start {head : UInt32} (hpaged : m.IsPaged) (hhead : m.heapHead cell = .ok head)
    (pages : Nat) : (freshRoom m.pages pages).start = m.size ∧ 0 < m.pages := by
  have hcell := Memory.cell_le_of_heapHead hhead
  rw [hpaged.size] at hcell ⊢
  simp only [freshRoom, Memory.pageSize, alignment] at hcell ⊢
  omega

/-- **Growth is followed by carving**, whatever the list is. -/
theorem exists_carve_grown (stats : HeapStats) {head : UInt32} {old : Nat} (hpaged : m.IsPaged)
    (hhead : m.heapHead cell = .ok head) (hsize : alignment ∣ size.toNat)
    (hgrow : (m.grow (pagesFor size)).1 = some old) :
    ∃ m' p stats' head', growAndCarve cell head size ⟨m, stats⟩ = .ok p ⟨m', stats'⟩ ∧
      (m.grow (pagesFor size)).2.ChangesOnly
        [freshRoom m.pages (pagesFor size), Memory.cellRange cell] m' ∧
      m'.heapHead cell = .ok head' ∧
      m'.Chain head' (carved head size (freshRoom m.pages (pagesFor size))) head ∧
      Divides (freshRoom m.pages (pagesFor size)) size.toNat p
        (carved head size (freshRoom m.pages (pagesFor size))) := by
  obtain ⟨rfl, hpages⟩ := Memory.pages_grow_of_some hgrow
  have hgrown := (hpaged.grow (pagesFor size)).size
  obtain ⟨hstart, hold⟩ := freshRoom_start hpaged hhead (pagesFor size)
  have hmax := Nat.le_trans (Memory.le_maximum_of_grow hgrow (pagesFor_pos size)) hpaged.maximum
  have hroom := isRoomFor_freshRoom hold hmax
  have hstop : (freshRoom m.pages (pagesFor size)).stop ≤ (m.grow (pagesFor size)).2.size := by
    rw [hgrown, hpages]
    exact Nat.min_le_left ..
  have hcell : (Memory.cellRange cell).stop ≤ (freshRoom m.pages (pagesFor size)).start :=
    hstart ▸ Memory.cell_le_of_heapHead hhead
  obtain ⟨m', head', hcarve, hchanges, hhead', hchain⟩ :=
    exists_carve { stats with pagesGrown := stats.pagesGrown + (pagesFor size).toUInt32 } head hroom
      hsize hstop hcell
  exact ⟨m', _, _, head', (growAndCarve_of_some hgrow).trans hcarve, hchanges, hhead', hchain,
    divides_carved head hroom hsize⟩

/-! ## Tidy heaps -/

/-- A heap whose blocks are tidy, in memory, and apart from one another and from the cell. -/
structure IsTidy (cell : UInt32) (m : Memory) (blocks : List HeapBlock) : Prop where
  paged : m.IsPaged
  hasBlocks : m.HasBlocks cell blocks
  tidy : ∀ b ∈ blocks, b.IsTidy
  inside : ∀ b ∈ blocks, b.stop ≤ m.size
  apart : blocks.Pairwise fun b c => b.range.Apart c.range
  cell_apart : ∀ b ∈ blocks, b.range.Apart (Memory.cellRange cell)

/-- How a request for a payload of `size` bytes is served, and what becomes of the list. -/
inductive Serves (cell size : UInt32) (m m' : Memory) (p : UInt32) :
    List HeapBlock → List HeapBlock → Prop
  /-- The first block that serves is cut. -/
  | cut {before after : List HeapBlock} {b : HeapBlock}
      (hfirst : ∀ c ∈ before, ¬c.Serves size) (hserves : b.Serves size)
      (hchanges : m.ChangesOnly [b.range] m')
      (hdivides : Divides b.range size.toNat p (b.cut size)) :
      Serves cell size m m' p (before ++ b :: after) (before ++ b.cut size ++ after)
  /-- No block serves, and new pages are carved. -/
  | grow {blocks : List HeapBlock} {head : UInt32} {room : ByteRange}
      (hnone : ∀ b ∈ blocks, ¬b.Serves size)
      (hgrown : (m.grow (pagesFor size)).1 = some m.pages)
      (hroom : room = freshRoom m.pages (pagesFor size))
      (hchanges : (m.grow (pagesFor size)).2.ChangesOnly [room, Memory.cellRange cell] m')
      (hdivides : Divides room size.toNat p (carved head size room)) :
      Serves cell size m m' p blocks (carved head size room ++ blocks)

/-- The empty heap. -/
theorem isTidy_nil (hpaged : m.IsPaged) (hhead : m.heapHead cell = .ok 0) : IsTidy cell m [] :=
  ⟨hpaged, ⟨0, hhead, rfl⟩, by simp, by simp, List.Pairwise.nil, by simp⟩

/-- The size of memory on a tidy heap, which has a page for the cell. -/
theorem IsTidy.freshRoom_start (h : IsTidy cell m blocks) (pages : Nat) :
    (freshRoom m.pages pages).start = m.size ∧ 0 < m.pages := by
  obtain ⟨head, hhead, -⟩ := h.hasBlocks
  exact Heap.freshRoom_start h.paged hhead pages

/-- What stands in the middle of a list is apart from all other blocks. -/
theorem apart_middle {before after : List HeapBlock} {b : HeapBlock}
    (h : (before ++ b :: after).Pairwise fun b c => b.range.Apart c.range) :
    (∀ c ∈ before ++ after, c.range.Apart b.range) ∧
      (before ++ after).Pairwise fun b c => b.range.Apart c.range := by
  rw [List.pairwise_middle ByteRange.Apart.symm, List.pairwise_cons] at h
  exact ⟨fun c hc => (h.1 c hc).symm, h.2⟩

theorem mem_middle {before after : List HeapBlock} {b c : HeapBlock} (hc : c ∈ before ++ after) :
    c ∈ before ++ b :: after :=
  ((List.Sublist.refl before).append (List.sublist_cons_self b after)).subset hc

/-- **Cutting the first block that serves.** -/
theorem exists_take_of_find (stats : HeapStats) {b : HeapBlock} (h : IsTidy cell m blocks)
    (hsize : alignment ∣ size.toNat) (hfind : blocks.find? (·.Serves size) = some b) :
    ∃ m' p blocks', take b.addr b.header size ⟨m, stats⟩ = .ok p ⟨m', stats⟩ ∧
      Serves cell size m m' p blocks blocks' ∧ m'.HasBlocks cell blocks' := by
  obtain ⟨hserves, before, after, rfl, hfirst⟩ := List.find?_eq_some_iff_append.1 hfind
  have hserves := of_decide_eq_true hserves
  have hmem : b ∈ before ++ b :: after := by simp
  obtain ⟨head, hhead, hchain⟩ := h.hasBlocks
  obtain ⟨c, hbefore, hne, rfl, -, hafter⟩ := Memory.chain_append.1 hchain
  obtain ⟨m', p, htake, hchanges, hcut, hdivides⟩ := exists_take stats (h.tidy b hmem) hserves
    hsize hne (h.inside b hmem)
  have hsame {r : ByteRange} (hr : r.Apart b.range) : Memory.SameOn r m m' :=
    hchanges.sameOn (List.forall_mem_singleton.2 hr)
  have hheader : ∀ c ∈ before ++ after, Memory.SameOn c.headerRange m m' := by
    intro c hc
    have hapart := (apart_middle h.apart).1 c hc
    exact hsame (hapart.within_left (h.tidy c (mem_middle hc)).header_within)
  have hle := Nat.le_of_eq hchanges.size.symm
  refine ⟨m', p, _, htake, .cut (by simpa using hfirst) hserves hchanges hdivides, head, ?_, ?_⟩
  · exact Memory.heapHead_of_sameOn hhead hle (hsame (h.cell_apart b hmem).symm)
  · rw [List.append_assoc]
    have hbefore' := hbefore.of_sameOn hle fun c hc => hheader c (List.mem_append_left _ hc)
    have hafter' := hafter.of_sameOn hle fun c hc => hheader c (List.mem_append_right _ hc)
    exact Memory.chain_append.2 ⟨_, hbefore', Memory.chain_append.2 ⟨_, hcut, hafter'⟩⟩

/-- Carving new pages leaves what was there before, but for the cell. -/
theorem sameOn_of_carved {r room : ByteRange} {pages : Nat} (hstart : m.size ≤ room.start)
    (hchanges : (m.grow pages).2.ChangesOnly [room, Memory.cellRange cell] m')
    (hr : r.stop ≤ m.size) (hcell : r.Apart (Memory.cellRange cell)) : Memory.SameOn r m m' := by
  refine (Memory.sameOn_grow m pages hr).trans (hchanges.sameOn ?_)
  exact List.forall_mem_cons.2
    ⟨.inl (Nat.le_trans hr hstart), List.forall_mem_singleton.2 hcell⟩

/-- **Carving new pages**, if memory may grow. -/
theorem exists_growAndCarve (stats : HeapStats) {head : UInt32} {old : Nat}
    (h : IsTidy cell m blocks) (hsize : alignment ∣ size.toNat)
    (hhead : m.heapHead cell = .ok head) (hnone : ∀ b ∈ blocks, ¬b.Serves size)
    (hgrow : (m.grow (pagesFor size)).1 = some old) :
    ∃ m' p stats' blocks', growAndCarve cell head size ⟨m, stats⟩ = .ok p ⟨m', stats'⟩ ∧
      Serves cell size m m' p blocks blocks' ∧ m'.HasBlocks cell blocks' := by
  obtain ⟨rfl, -⟩ := Memory.pages_grow_of_some hgrow
  obtain ⟨hstart, -⟩ := h.freshRoom_start (pagesFor size)
  obtain ⟨m', p, stats', head', hcarve, hchanges, hhead', hchain, hdivides⟩ :=
    exists_carve_grown stats h.paged hhead hsize hgrow
  refine ⟨m', p, stats', _, hcarve, .grow hnone hgrow rfl hchanges hdivides, head', hhead', ?_⟩
  obtain ⟨head₀, hhead₀, hblocks⟩ := h.hasBlocks
  cases hhead.symm.trans hhead₀
  have hle : m.size ≤ m'.size := hchanges.size ▸ Memory.size_le_size_grow m _
  refine Memory.chain_append.2 ⟨_, hchain, hblocks.of_sameOn hle fun b hb => ?_⟩
  have hheader := (h.tidy b hb).header_within
  exact sameOn_of_carved (Nat.le_of_eq hstart.symm) hchanges
    (Nat.le_trans hheader.2 (h.inside b hb)) ((h.cell_apart b hb).within_left hheader)

/-- **A request on a tidy heap** is refused with memory unchanged, or served. -/
theorem alloc_cases (cell size : UInt32) (stats : HeapStats) (h : IsTidy cell m blocks) :
    (∃ e stats', alloc cell size ⟨m, stats⟩ = .error e ⟨m, stats'⟩) ∨
      ∃ p m' stats' blocks', alloc cell size ⟨m, stats⟩ = .ok p ⟨m', stats'⟩ ∧
        size ≤ maxRequest ∧ Serves cell (rounded size) m m' p blocks blocks' ∧
        m'.HasBlocks cell blocks' := by
  by_cases hsize : size ≤ maxRequest
  · obtain ⟨head, hhead, hchain⟩ := h.hasBlocks
    have hdvd := (rounded_spec hsize).1
    rw [alloc_eq_search hsize hhead]
    cases hfind : m.findFree (rounded size) (maxBlocks m.size) head with
    | error e =>
      exact .inl ⟨e, _, ofMemory_bind_error hfind⟩
    | ok found =>
      rw [ofMemory_bind hfind, hchain.findFree_eq hfind]
      cases hfirst : blocks.find? (·.Serves (rounded size)) with
      | some b =>
        obtain ⟨m', p, blocks', htake, hserves⟩ :=
          exists_take_of_find (counted stats size) h hdvd hfirst
        exact .inr ⟨p, m', _, blocks', htake, hsize, hserves⟩
      | none =>
        have hnone : ∀ b ∈ blocks, ¬b.Serves (rounded size) := by simpa using hfirst
        cases hgrow : (m.grow (pagesFor (rounded size))).1 with
        | none => exact .inl ⟨_, _, growAndCarve_of_none hgrow⟩
        | some old =>
          obtain ⟨m', p, stats', blocks', hcarve, hserves⟩ :=
            exists_growAndCarve (counted stats size) h hdvd hhead hnone hgrow
          exact .inr ⟨p, m', stats', blocks', hcarve, hsize, hserves⟩
  · exact .inl ⟨_, _, alloc_of_lt (UInt32.not_le.1 hsize)⟩

/-- Serving a request does not change the maximum. -/
theorem Serves.maximum (h : Serves cell size m m' p blocks blocks') : m'.maximum = m.maximum := by
  cases h with
  | cut _ _ hchanges _ => exact hchanges.maximum
  | grow _ _ _ hchanges _ => exact hchanges.maximum.trans (Memory.maximum_grow ..)

/-- What a request that succeeds has done. -/
theorem IsTidy.exists_serves {heap heap' : Heap} (h : IsTidy cell heap.memory blocks)
    (halloc : alloc cell size heap = .ok p heap') :
    size ≤ maxRequest ∧ ∃ blocks',
      Serves cell (rounded size) heap.memory heap'.memory p blocks blocks' ∧
      heap'.memory.HasBlocks cell blocks' := by
  rcases alloc_cases cell size heap.stats h with
    ⟨e, stats', herror⟩ | ⟨p', m', stats', blocks', hok, hsize, hserves⟩
  · cases halloc.symm.trans herror
  · cases halloc.symm.trans hok
    exact ⟨hsize, blocks', hserves⟩

/-- A request that fails on a tidy heap leaves memory as it was. -/
theorem IsTidy.memory_of_error {heap heap' : Heap} {e : Error}
    (h : IsTidy cell heap.memory blocks) (halloc : alloc cell size heap = .error e heap') :
    heap'.memory = heap.memory := by
  rcases alloc_cases cell size heap.stats h with
    ⟨e', stats', herror⟩ | ⟨p, m', stats', blocks', hok, -⟩
  · cases halloc.symm.trans herror
    rfl
  · cases halloc.symm.trans hok

/-! ## What both ways of serving have in common -/

/-- Blocks that divide a room stand where free blocks, or none, stood before. -/
inductive Replaces (cell : UInt32) (n : Nat) (m m' : Memory) (p : UInt32) :
    List HeapBlock → List HeapBlock → Prop
  | mk {before taken pieces after : List HeapBlock} {room : ByteRange}
      (hdivides : Divides room n p pieces)
      (hfree : ∀ b ∈ taken, b.header.IsFree)
      (hapart : ∀ b ∈ before ++ after, b.range.Apart room)
      (hcell : room.Apart (Memory.cellRange cell))
      (hsource : m'.size = m.size ∧ (∃ b ∈ taken, b.range = room) ∨
        m.size < m'.size ∧ room.Within ⟨m.size, m'.size⟩)
      (hsame : ∀ r : ByteRange, r.stop ≤ m.size → r.Apart room →
        r.Apart (Memory.cellRange cell) → Memory.SameOn r m m') :
      Replaces cell n m m' p (before ++ taken ++ after) (before ++ pieces ++ after)

theorem Serves.replaces (h : Serves cell size m m' p blocks blocks') (ht : IsTidy cell m blocks) :
    Replaces cell size.toNat m m' p blocks blocks' := by
  cases h with
  | @cut before after b hfirst hserves hchanges hdivides =>
    have hmem : b ∈ before ++ b :: after := by simp
    have hlist : before ++ b :: after = before ++ [b] ++ after := by simp
    rw [hlist]
    refine .mk hdivides (List.forall_mem_singleton.2 hserves.1) (apart_middle ht.apart).1
      (ht.cell_apart b hmem) (.inl ⟨hchanges.size, b, List.mem_cons_self, rfl⟩) ?_
    intro r _ hr _
    exact hchanges.sameOn (List.forall_mem_singleton.2 hr)
  | @grow _ head room hnone hgrown hroom hchanges hdivides =>
    obtain ⟨hstart, hold⟩ := ht.freshRoom_start (pagesFor size)
    obtain ⟨_, hhead, -⟩ := ht.hasBlocks
    have hcell := Memory.cell_le_of_heapHead hhead
    have hpages := (Memory.pages_grow_of_some hgrown).2
    have hsize := (ht.paged.grow (pagesFor size)).size
    rw [hpages, Nat.add_mul, ← ht.paged.size, ← hchanges.size] at hsize
    have hpos := Nat.mul_pos (pagesFor_pos size) (by decide : 0 < Memory.pageSize)
    rw [← hroom] at hstart
    have hwithin : room.Within ⟨m.size, m'.size⟩ := by
      refine ⟨Nat.le_of_eq hstart.symm, ?_⟩
      rw [hsize, ht.paged.size, ← Nat.add_mul, hroom]
      exact Nat.min_le_left ..
    show Replaces cell _ m m' p ([] ++ [] ++ blocks) ([] ++ carved head size room ++ blocks)
    refine .mk hdivides (by simp) ?_ (.inr (Nat.le_trans hcell hwithin.1))
      (.inr ⟨by omega, hwithin⟩) fun r hr _ hr' => sameOn_of_carved hwithin.1 hchanges hr hr'
    exact fun b hb => .inl (Nat.le_trans (ht.inside b hb) hwithin.1)

variable {n : Nat}

/-- Memory does not shrink. -/
theorem Replaces.size_le (h : Replaces cell n m m' p blocks blocks') : m.size ≤ m'.size := by
  cases h with
  | mk _ _ _ _ hsource _ =>
    rcases hsource with ⟨hsize, -⟩ | ⟨hlt, -⟩
    · exact Nat.le_of_eq hsize.symm
    · exact Nat.le_of_lt hlt

/-- The order of the parts of a list does not matter to what its members are. -/
theorem perm_parts (before xs after : List HeapBlock) :
    (before ++ xs ++ after).Perm (xs ++ (before ++ after)) := by
  rw [← List.append_assoc xs]
  exact List.perm_append_comm.append_right after

/-- **A heap stays tidy** when a request is served. -/
theorem Replaces.isTidy (h : Replaces cell n m m' p blocks blocks') (ht : IsTidy cell m blocks)
    (hpaged : m'.IsPaged) (hblocks : m'.HasBlocks cell blocks') : IsTidy cell m' blocks' := by
  have hle := h.size_le
  cases h with
  | @mk before taken pieces after room hdivides hfree hapart hcell hsource hsame =>
    have hperm := perm_parts before taken after
    have hperm' := perm_parts before pieces after
    have hold : ∀ b ∈ before ++ after, b ∈ before ++ taken ++ after := fun b hb =>
      hperm.mem_iff.2 (List.mem_append_right _ hb)
    have hroom : room.stop ≤ m'.size := by
      rcases hsource with ⟨hsize, b, hb, rfl⟩ | ⟨-, hwithin⟩
      · exact hsize ▸ ht.inside b (hperm.mem_iff.2 (List.mem_append_left _ hb))
      · exact hwithin.2
    refine ⟨hpaged, hblocks, fun b hb => ?_, fun b hb => ?_, ?_, fun b hb => ?_⟩
    · rcases List.mem_append.1 (hperm'.mem_iff.1 hb) with hb | hb
      · exact hdivides.tidy b hb
      · exact ht.tidy b (hold b hb)
    · rcases List.mem_append.1 (hperm'.mem_iff.1 hb) with hb | hb
      · exact Nat.le_trans (hdivides.within b hb).2 hroom
      · exact Nat.le_trans (ht.inside b (hold b hb)) hle
    · have hrest := (hperm.pairwise_iff ByteRange.Apart.symm).1 ht.apart
      rw [hperm'.pairwise_iff ByteRange.Apart.symm, List.pairwise_append]
      exact ⟨hdivides.apart, (List.pairwise_append.1 hrest).2.1,
        fun b hb c hc => (hapart c hc).symm.within_left (hdivides.within b hb)⟩
    · rcases List.mem_append.1 (hperm'.mem_iff.1 hb) with hb | hb
      · exact hcell.within_left (hdivides.within b hb)
      · exact ht.cell_apart b (hold b hb)

/-- The storage that is handed out lies in the payload of a used block. -/
theorem Replaces.exists_used (h : Replaces cell n m m' p blocks blocks') :
    ∃ b ∈ blocks', ¬b.header.IsFree ∧ alignment ∣ p.toNat ∧
      (ByteRange.ofLength p.toNat n).Within b.payloadRange := by
  cases h with
  | @mk before taken pieces after _ hdivides _ _ _ _ _ =>
    obtain ⟨b, hb, hused⟩ := hdivides.exists_used
    exact ⟨b, (perm_parts ..).mem_iff.2 (List.mem_append_left _ hb), hused⟩

/-- **A used block stays**, with all of its bytes, and what is handed out lies apart from it. -/
theorem Replaces.used_kept {b : HeapBlock} (h : Replaces cell n m m' p blocks blocks')
    (ht : IsTidy cell m blocks) (hb : b ∈ blocks) (hused : ¬b.header.IsFree) :
    b ∈ blocks' ∧ (ByteRange.ofLength p.toNat n).Apart b.range ∧ Memory.SameOn b.range m m' := by
  have hinside := ht.inside b hb
  have hcell := ht.cell_apart b hb
  cases h with
  | @mk before taken pieces after room hdivides hfree hapart _ _ hsame =>
    rcases List.mem_append.1 ((perm_parts ..).mem_iff.1 hb) with htaken | hrest
    · exact absurd (hfree b htaken) hused
    · have hroom := hapart b hrest
      exact ⟨(perm_parts ..).mem_iff.2 (List.mem_append_right _ hrest),
        hroom.symm.within_left hdivides.storage_within, hsame b.range hinside hroom hcell⟩

theorem Serves.isPaged (h : Serves cell size m m' p blocks blocks') (hpaged : m.IsPaged) :
    m'.IsPaged := by
  cases h with
  | cut _ _ hchanges _ => exact hpaged.of_eq hchanges.size hchanges.pages hchanges.maximum
  | grow _ _ _ hchanges _ =>
    exact (hpaged.grow _).of_eq hchanges.size hchanges.pages hchanges.maximum

end WasmEngine.Heap
