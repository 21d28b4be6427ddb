import Mathlib.Algebra.Order.BigOperators.Group.List
import Mathlib.Algebra.Order.Floor.Div
import Mathlib.Data.List.Find
import Mathlib.Data.List.Nodup
import WasmEngine.Proofs.Heap.Serving

/-!
# Proofs/Heap/FirstFit — which block serves a request, and when none does

Blocks that lie apart are at most as many as headers fit into memory (`Heap.IsTidy.length_le`), so
that the search meets all of them before it gives up: on a tidy heap it finds the first block that
is large enough, and the only failure is that memory is exhausted (`Heap.IsTidy.isFirstFit`).
-/

namespace WasmEngine

/-! ## Room for many ranges -/

/-- **Ranges that lie apart** have room for one another below their common bound. -/
theorem ByteRange.sum_length_le {rs : List ByteRange} {n : Nat} (hapart : rs.Pairwise Apart)
    (hle : ∀ r ∈ rs, r.stop ≤ n) : (rs.map length).sum ≤ n := by
  let positions (r : ByteRange) : List Nat := List.range' r.start r.length
  have hmem {r : ByteRange} {i : Nat} (hi : i ∈ positions r) : i ∈ r := by
    have hi' := List.mem_range'_1.1 hi
    simp only [length, mem_iff] at hi' ⊢
    omega
  have hnodup : (rs.flatMap positions).Nodup := by
    refine List.nodup_flatMap.2 ⟨fun r _ => List.nodup_range', hapart.imp ?_⟩
    exact fun h i hi hi' => h.not_mem (hmem hi) (hmem hi')
  have hsubset : rs.flatMap positions ⊆ List.range n := by
    intro i hi
    obtain ⟨r, hr, hi⟩ := List.mem_flatMap.1 hi
    exact List.mem_range.2 (Nat.lt_of_lt_of_le (hmem hi).2 (hle r hr))
  have hlength := (List.subperm_of_subset hnodup hsubset).length_le
  rw [List.length_flatMap, List.length_range] at hlength
  simpa [positions] using hlength

namespace HeapBlock

variable {b : HeapBlock} {size : UInt32}

/-- Whether the block is free and `n` bytes fit into its payload. -/
def Fits (n : Nat) (b : HeapBlock) : Prop := b.header.IsFree ∧ n ≤ b.payloadSize

instance (n : Nat) (b : HeapBlock) : Decidable (b.Fits n) := inferInstanceAs (Decidable (_ ∧ _))

theorem length_range (b : HeapBlock) : b.range.length = b.header.size.toNat :=
  Nat.add_sub_cancel_left ..

theorem fits_iff (hb : BlockHeader.bytes ≤ b.header.size.toNat) :
    b.Fits size.toNat ↔ b.Serves size := by
  rw [Fits, Serves, UInt32.le_iff_toNat_le, BlockHeader.toNat_payload hb, payloadSize]

/-- How `n` bytes at `p` are taken out of a block, and which blocks stand there afterwards. -/
inductive Yields (b : HeapBlock) (n : Nat) (p : UInt32) : List HeapBlock → Prop
  /-- If a header and a payload remain, the bytes are the tail of the block, and the front stays
  free. -/
  | tail {front used : HeapBlock} (hrest : n + BlockHeader.bytes + Heap.alignment ≤ b.payloadSize)
      (hstart : front.addr = b.addr) (hfree : front.header.IsFree)
      (hmeet : front.stop = used.addr.toNat) (hused : ¬used.header.IsFree)
      (hstop : used.stop = b.stop) (hp : p.toNat = used.addr.toNat + BlockHeader.bytes)
      (hn : p.toNat + n = b.stop) : Yields b n p [front, used]
  /-- Otherwise the block is used as a whole. -/
  | whole {used : HeapBlock} (hrest : b.payloadSize < n + BlockHeader.bytes + Heap.alignment)
      (hrange : used.range = b.range) (hused : ¬used.header.IsFree)
      (hp : p.toNat = b.addr.toNat + BlockHeader.bytes) : Yields b n p [used]

/-- **Cutting a block** yields its tail or all of it. -/
theorem yields_cut {p : UInt32} (hb : b.IsTidy) (hserves : b.Serves size)
    (hdivides : Heap.Divides b.range size.toNat p (b.cut size)) :
    b.Yields size.toNat p (b.cut size) := by
  have hrest := le_payload_sub_iff hb.header_le hserves
  by_cases h : 24 ≤ b.header.payload - size
  · obtain ⟨htail, hfront, haddr, hlarge⟩ := toNat_cut hb hserves h
    obtain ⟨used, hmem, hused, rfl, -⟩ := hdivides.served
    rw [cut, if_pos h] at hdivides hmem ⊢
    have hfree : (b.front size).header.IsFree := (BlockHeader.isFree_new ..).2 rfl
    obtain rfl : used = b.tail size := by
      rcases List.mem_pair.1 hmem with rfl | rfl
      · exact absurd hfree hused
      · rfl
    have hp := (hdivides.tidy _ hmem).toNat_payloadAddr
    have hstart : (b.front size).addr = b.addr := rfl
    refine .tail (hrest.1 h) hstart hfree ?_ hused ?_ hp ?_ <;>
      simp only [stop, htail, hfront, haddr, hp, hstart, BlockHeader.bytes] at * <;> omega
  · obtain ⟨used, hmem, hused, rfl, -⟩ := hdivides.served
    rw [cut, if_neg h] at hdivides hmem ⊢
    obtain rfl := List.mem_singleton.1 hmem
    have hsmall := Nat.lt_of_not_le (mt hrest.2 h)
    exact .whole hsmall rfl hused (hdivides.tidy _ hmem).toNat_payloadAddr

end HeapBlock

/-! ## The search -/

namespace Memory

variable {m : Memory} {a : UInt32} {blocks : List HeapBlock}

/-- Growth beyond the maximum fails. -/
theorem grow_of_lt {delta : Nat} (hpos : 0 < delta) (hlt : m.maximum < m.pages + delta) :
    (m.grow delta).1 = none := by
  unfold grow
  rw [if_neg (Nat.ne_of_gt hpos), if_pos (by omega)]

/-- **A search that may visit every block** finds the first that serves, if any does. -/
theorem Chain.findFree_eq_ok {left : Nat} (h : m.Chain a blocks 0) (hle : blocks.length ≤ left)
    (size : UInt32) :
    m.findFree size left a =
      .ok ((blocks.find? (·.Serves size)).map fun b => (b.addr, b.header)) := by
  -- What a search finds is known, so only its failures are left to be excluded.
  suffices hfound : ∃ found, m.findFree size left a = .ok found by
    obtain ⟨found, hfound⟩ := hfound
    rw [hfound, h.findFree_eq hfound]
  induction blocks generalizing a left with
  | nil =>
    cases (h : a = 0)
    unfold findFree
    exact ⟨none, if_pos rfl⟩
  | cons block blocks ih =>
    obtain ⟨hne, rfl, hread, hchain⟩ := h
    cases left with
    | zero => exact absurd hle (Nat.not_succ_le_zero _)
    | succ left =>
      unfold findFree
      simp only [if_neg hne, hread]
      split
      · exact ⟨_, rfl⟩
      · exact ih hchain (Nat.le_of_succ_le_succ hle)

end Memory

namespace Heap

variable {m : Memory} {cell size : UInt32} {blocks : List HeapBlock}

/-- **Memory has room for the header of every block.** -/
theorem IsTidy.length_le (h : IsTidy cell m blocks) : blocks.length ≤ maxBlocks m.size := by
  have hsum : blocks.length * BlockHeader.bytes ≤
      ((blocks.map HeapBlock.range).map ByteRange.length).sum := by
    have hle := List.card_nsmul_le_sum ((blocks.map HeapBlock.range).map ByteRange.length)
      BlockHeader.bytes
    simp only [List.length_map, smul_eq_mul, List.mem_map, forall_exists_index, and_imp] at hle
    refine hle fun _ _ b hb hr hn => ?_
    rw [← hn, ← hr, b.length_range]
    exact (h.tidy b hb).header_le
  have hinside : ∀ r ∈ blocks.map HeapBlock.range, r.stop ≤ m.size :=
    List.forall_mem_map.2 h.inside
  have hroom := ByteRange.sum_length_le (List.pairwise_map.2 h.apart) hinside
  have hdiv := (Nat.le_div_iff_mul_le (by decide)).2 (Nat.le_trans hsum hroom)
  exact Nat.le_succ_of_le hdiv

/-- On a tidy heap the search is a search through the list. -/
theorem IsTidy.search (h : IsTidy cell m blocks) :
    ∃ head, m.heapHead cell = .ok head ∧ ∀ size, m.findFree size (maxBlocks m.size) head =
      .ok ((blocks.find? (·.Serves size)).map fun b => (b.addr, b.header)) := by
  obtain ⟨head, hhead, hchain⟩ := h.hasBlocks
  exact ⟨head, hhead, hchain.findFree_eq_ok h.length_le⟩

theorem IsTidy.find?_eq (h : IsTidy cell m blocks) (size : UInt32) :
    blocks.find? (·.Fits size.toNat) = blocks.find? (·.Serves size) :=
  List.find?_congr fun b hb => decide_eq_decide.2 (HeapBlock.fits_iff (h.tidy b hb).header_le)

/-! ## Requests -/

/-- The pages for a request hold a header, a unit of alignment and what the request is rounded
to. -/
theorem pagesFor_rounded (hsize : size ≤ maxRequest) : pagesFor (rounded size) =
    (BlockHeader.bytes + alignment + alignUp size.toNat alignment) ⌈/⌉ Memory.pageSize := by
  rw [Nat.ceilDiv_eq_add_pred_div, ← toNat_rounded hsize, pagesFor]

/-- A request that is not too large is served from what stands first on the list. -/
theorem IsTidy.alloc_eq_serve (h : IsTidy cell m blocks) (hsize : size ≤ maxRequest)
    (stats : HeapStats) :
    ∃ head, m.heapHead cell = .ok head ∧ alloc cell size ⟨m, stats⟩ =
      serve cell head (rounded size)
        ((blocks.find? (·.Fits (alignUp size.toNat alignment))).map fun b => (b.addr, b.header))
        ⟨m, counted stats size⟩ := by
  obtain ⟨head, hhead, hsearch⟩ := h.search
  refine ⟨head, hhead, ?_⟩
  rw [alloc_eq_search hsize hhead, ofMemory_bind (hsearch (rounded size)), ← toNat_rounded hsize,
    h.find?_eq]

/-- Serving from the first block that is large enough cuts that block. -/
theorem Serves.cut_of_find {m' : Memory} {p : UInt32} {blocks' : List HeapBlock} {b : HeapBlock}
    (h : Serves cell size m m' p blocks blocks') (hfind : blocks.find? (·.Serves size) = some b) :
    ∃ before after, blocks = before ++ b :: after ∧ blocks' = before ++ b.cut size ++ after ∧
      m.ChangesOnly [b.range] m' ∧ Divides b.range size.toNat p (b.cut size) := by
  cases h with
  | @cut before after c hfirst hserves hchanges hdivides =>
    have hfirst' : ∀ d ∈ before, (!decide (d.Serves size)) = true := by simpa using hfirst
    have hc : (before ++ c :: after).find? (·.Serves size) = some c :=
      List.find?_eq_some_iff_append.2 ⟨decide_eq_true hserves, before, after, rfl, hfirst'⟩
    cases hc.symm.trans hfind
    exact ⟨before, after, rfl, rfl, hchanges, hdivides⟩
  | grow hnone =>
    have hb := List.find?_some hfind
    exact absurd (of_decide_eq_true hb) (hnone b (List.mem_of_find?_eq_some hfind))

/-- Serving when no block is large enough carves new pages. -/
theorem Serves.carved_of_none {m' : Memory} {p : UInt32} {blocks' : List HeapBlock}
    (h : Serves cell size m m' p blocks blocks') (hnone : ∀ b ∈ blocks, ¬b.Serves size) :
    m'.pages = m.pages + pagesFor size ∧
      ∃ head, blocks' = carved head size (freshRoom m.pages (pagesFor size)) ++ blocks := by
  cases h with
  | @cut before after c hfirst hserves =>
    exact absurd hserves (hnone c (by simp))
  | @grow _ head _ _ hgrown hroom hchanges _ =>
    exact ⟨hchanges.pages.trans (Memory.pages_grow_of_some hgrown).2, head, hroom ▸ rfl⟩

/-- **The first block that is large enough serves.** -/
theorem IsTidy.alloc_fits {b : HeapBlock} (h : IsTidy cell m blocks) (stats : HeapStats)
    (hsize : size ≤ maxRequest)
    (hfind : blocks.find? (·.Fits (alignUp size.toNat alignment)) = some b) :
    ∃ before after pieces p heap', blocks = before ++ b :: after ∧
      alloc cell size ⟨m, stats⟩ = .ok p heap' ∧ heap'.memory.pages = m.pages ∧
      b.Yields (alignUp size.toNat alignment) p pieces ∧
      heap'.memory.HasBlocks cell (before ++ pieces ++ after) := by
  obtain ⟨head, -, halloc⟩ := h.alloc_eq_serve hsize stats
  rw [hfind] at halloc
  rw [← toNat_rounded hsize] at hfind ⊢
  rw [h.find?_eq] at hfind
  obtain ⟨m', p, blocks', htake, hserves, hblocks⟩ :=
    exists_take_of_find (counted stats size) h (rounded_spec hsize).1 hfind
  obtain ⟨before, after, rfl, rfl, hchanges, hdivides⟩ := hserves.cut_of_find hfind
  have hb := h.tidy b (by simp)
  have hserves' := List.find?_some hfind
  have hyields := HeapBlock.yields_cut hb (of_decide_eq_true hserves') hdivides
  exact ⟨before, after, _, p, _, rfl, halloc.trans htake, hchanges.pages, hyields, hblocks⟩

/-- **If no block is large enough, memory grows** by what the request needs. -/
theorem IsTidy.alloc_grows (h : IsTidy cell m blocks) (stats : HeapStats)
    (hsize : size ≤ maxRequest)
    (hfind : blocks.find? (·.Fits (alignUp size.toNat alignment)) = none)
    (hle : m.pages + pagesFor (rounded size) ≤ m.maximum) :
    ∃ p heap', alloc cell size ⟨m, stats⟩ = .ok p heap' ∧
      heap'.memory.pages = m.pages + pagesFor (rounded size) := by
  obtain ⟨head, hhead, halloc⟩ := h.alloc_eq_serve hsize stats
  rw [hfind] at halloc
  rw [← toNat_rounded hsize, h.find?_eq] at hfind
  have hnone : ∀ b ∈ blocks, ¬b.Serves (rounded size) := by simpa using hfind
  have hgrow := Memory.grow_of_le (Nat.le_sub_of_add_le' hle)
  obtain ⟨m', p, stats', blocks', hcarve, hserves, -⟩ :=
    exists_growAndCarve (counted stats size) h (rounded_spec hsize).1 hhead hnone hgrow
  exact ⟨p, _, halloc.trans hcarve, (hserves.carved_of_none hnone).1⟩

/-- **If memory may not grow that far, the request fails** and memory is as before. -/
theorem IsTidy.alloc_exhausted (h : IsTidy cell m blocks) (stats : HeapStats)
    (hsize : size ≤ maxRequest)
    (hfind : blocks.find? (·.Fits (alignUp size.toNat alignment)) = none)
    (hlt : m.maximum < m.pages + pagesFor (rounded size)) :
    alloc cell size ⟨m, stats⟩ = .error outOfMemory ⟨m, counted stats size⟩ := by
  obtain ⟨head, -, halloc⟩ := h.alloc_eq_serve hsize stats
  rw [hfind] at halloc
  exact halloc.trans (growAndCarve_of_none (Memory.grow_of_lt (pagesFor_pos _) hlt))

/-- What a request for `size` bytes does on a heap whose list holds the blocks. -/
structure IsFirstFit (cell size : UInt32) (heap : Heap) (blocks : List HeapBlock) : Prop where
  /-- A request that is too large is refused. -/
  too_large : maxRequest < size → alloc cell size heap = .error outOfMemory heap
  /-- The first block that is free and large enough serves, and memory does not grow. -/
  fits : size ≤ maxRequest → ∀ b, blocks.find? (·.Fits (alignUp size.toNat alignment)) = some b →
    ∃ before after pieces p heap', blocks = before ++ b :: after ∧
      alloc cell size heap = .ok p heap' ∧ heap'.memory.pages = heap.memory.pages ∧
      b.Yields (alignUp size.toNat alignment) p pieces ∧
      heap'.memory.HasBlocks cell (before ++ pieces ++ after)
  /-- If there is none, memory grows by the pages that are needed. -/
  grows : size ≤ maxRequest → blocks.find? (·.Fits (alignUp size.toNat alignment)) = none →
    ∀ pages, pages =
        (BlockHeader.bytes + alignment + alignUp size.toNat alignment) ⌈/⌉ Memory.pageSize →
      heap.memory.pages + pages ≤ heap.memory.maximum →
      ∃ p heap', alloc cell size heap = .ok p heap' ∧
        heap'.memory.pages = heap.memory.pages + pages
  /-- If these do not fit either, the request fails and memory is as before. -/
  exhausted : size ≤ maxRequest → blocks.find? (·.Fits (alignUp size.toNat alignment)) = none →
    ∀ pages, pages =
        (BlockHeader.bytes + alignment + alignUp size.toNat alignment) ⌈/⌉ Memory.pageSize →
      heap.memory.maximum < heap.memory.pages + pages →
      ∃ stats, alloc cell size heap = .error outOfMemory ⟨heap.memory, stats⟩
  /-- There are no other failures. -/
  error_eq : ∀ e heap', alloc cell size heap = .error e heap' → e = outOfMemory

/-- On a tidy heap requests are first fit. -/
theorem IsTidy.isFirstFit (h : IsTidy cell m blocks) (size : UInt32) (stats : HeapStats) :
    IsFirstFit cell size ⟨m, stats⟩ blocks where
  too_large := alloc_of_lt
  fits hsize b hfind := h.alloc_fits stats hsize hfind
  grows hsize hfind pages hpages hle := by
    obtain rfl := hpages.trans (pagesFor_rounded hsize).symm
    exact h.alloc_grows stats hsize hfind hle
  exhausted hsize hfind pages hpages hlt := by
    obtain rfl := hpages.trans (pagesFor_rounded hsize).symm
    exact ⟨_, h.alloc_exhausted stats hsize hfind hlt⟩
  error_eq e heap' halloc := by
    rcases UInt32.lt_or_le maxRequest size with hlt | hsize
    · cases (alloc_of_lt hlt).symm.trans halloc
      rfl
    · cases hfind : blocks.find? (·.Fits (alignUp size.toNat alignment)) with
      | some b =>
        obtain ⟨_, _, _, p, heap₁, -, hok, -⟩ := h.alloc_fits stats hsize hfind
        cases hok.symm.trans halloc
      | none =>
        rcases Nat.lt_or_ge m.maximum (m.pages + pagesFor (rounded size)) with hlt | hle
        · cases (h.alloc_exhausted stats hsize hfind hlt).symm.trans halloc
          rfl
        · obtain ⟨p, heap₁, hok, -⟩ := h.alloc_grows stats hsize hfind hle
          cases hok.symm.trans halloc

end Heap

end WasmEngine
