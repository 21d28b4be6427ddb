import WasmEngine.Proofs.Heap.Checked

/-!
# Proofs/Heap/Survival — requests and walks end well in any memory

One lemma per function of the allocator says that its checked form follows it.  The differences rest
on what was tested before: a header that has been read is sound, a block that is taken from serves,
and new pages are room enough.  That a block has a tail within addresses is known only once the
header of the tail has been written.
-/

namespace WasmEngine

/-! ## Failing accesses -/

namespace Memory

variable {m m' : Memory} {addr cell : UInt32} {e : Error}

/-- A cell that cannot be read is out of bounds. -/
theorem isHeapFailure_of_heapHead (h : m.heapHead cell = .error e) : e.IsHeapFailure := by
  rw [heapHead, load32, load_eq m cell 0 (by decide)] at h
  split at h
  · cases h
  · cases h
    trivial

/-- A header that cannot be read is out of bounds or unsound. -/
theorem isHeapFailure_of_readHeader (h : m.readHeader addr = .error e) : e.IsHeapFailure := by
  rw [readHeader, readTyped_eq m (by decide)] at h
  by_cases hfits : addr.toNat + BlockHeader.layout.size ≤ m.size
  · simp only [if_pos hfits] at h
    split at h
    · cases h
    · cases h
      trivial
  · simp only [if_neg hfits] at h
    cases h
    trivial

/-- A write that goes through has had room, and leaves the size of memory. -/
theorem le_of_writeHeader {h : BlockHeader} (hwrite : writeHeader addr h m = .ok () m') :
    addr.toNat + BlockHeader.bytes ≤ m.size ∧ m'.size = m.size := by
  have hsets := m.writeTyped_sets (by decide) (⟨addr⟩ : GuestPtr BlockHeader.layout) h.toValue
  by_cases hfits : addr.toNat + BlockHeader.layout.size ≤ m.size
  · obtain ⟨m₁, hdone, hsize, -⟩ := hsets.done hfits
    cases hdone.symm.trans hwrite
    exact ⟨hfits, hsize⟩
  · cases (hsets.refused hfits).symm.trans hwrite

end Memory

namespace Heap

open Checked

variable {α : Type} {heap heap' : Heap} {addr cell size head : UInt32} {h : BlockHeader}
  {limit visited left : Nat}

theorem discard_pure (a : α) : discard (pure a : Checked α) = pure () := rfl

/-- A width that is a word passes. -/
theorem access_eq (addr : UInt32) {width : Nat} (h : width < UInt32.size) :
    access addr width = pure () := by
  have haddr := addr.toNat_lt
  simp only [UInt32.size] at h
  rw [access, sum_eq (by omega), discard_pure]

/-- An operation of the memory does no arithmetic on words, and reads no header. -/
theorem follows_onMemory {op : Memory.Update Unit} {fits : Prop} {r : ByteRange}
    {new : Nat → UInt8} (h : op.Sets heap.memory fits r new) :
    Follows 0 (perform (onMemory op)) (onMemory op) heap := by
  refine follows_perform fun e heap' he => ?_
  by_cases hfits : fits
  · obtain ⟨m', hdone, -⟩ := h.done hfits
    simp only [onMemory, hdone] at he
    cases he
  · simp only [onMemory, h.refused hfits] at he
    cases he
    trivial

theorem follows_readHead (cell : UInt32) :
    Follows 0 (readHead cell) (ofMemory (·.heapHead cell)) heap := by
  rw [readHead, access_eq cell (by decide), pure_bind]
  exact follows_ofMemory fun _ => Memory.isHeapFailure_of_heapHead

/-- Reading a header is what is counted. -/
theorem follows_readHeader (addr : UInt32) :
    Follows 1 (readHeader addr) (ofMemory (·.readHeader addr)) heap := by
  obtain ⟨hagrees, hfailures⟩ : Follows 0 (perform (ofMemory (·.readHeader addr)))
      (ofMemory (·.readHeader addr)) heap :=
    follows_ofMemory fun _ => Memory.isHeapFailure_of_readHeader
  refine ⟨fun headers => ?_, hfailures⟩
  rw [readHeader, access_eq addr (by decide), pure_bind]
  obtain ⟨n, hn, hrun⟩ := hagrees (headers + 1)
  exact ⟨n + 1, Nat.succ_le_succ hn, by rw [← Nat.add_assoc, Nat.add_right_comm, ← hrun]; rfl⟩

theorem follows_writeHeader (addr : UInt32) (h : BlockHeader) :
    Follows 0 (writeHeader addr h) (onMemory (Memory.writeHeader addr h)) heap := by
  rw [writeHeader, access_eq addr (by decide), pure_bind]
  exact follows_onMemory (heap.memory.writeTyped_sets (by decide) _ _)

/-- A number that is a word is written into the cell as it is. -/
theorem follows_writeHead (cell : UInt32) {n : Nat} (h : n < UInt32.size) :
    Follows 0 (writeHead cell n.toUInt32) (onMemory (Memory.store 4 cell 0 n)) heap := by
  have hn : n.toUInt32.toNat = n := Nat.mod_eq_of_lt h
  rw [writeHead, access_eq cell (by decide), pure_bind, hn]
  exact follows_onMemory (heap.memory.store_sets cell 0 n (by decide))

/-! ## The search -/

theorem ofMemory_ite {c : Prop} [Decidable c] (f g : Memory → Except Error α) :
    (ofMemory fun m => if c then f m else g m) = if c then ofMemory f else ofMemory g := by
  split <;> rfl

theorem ofMemory_seq {β : Type} (f : Memory → Except Error α) (g : α → Memory → Except Error β) :
    (ofMemory fun m => f m >>= fun a => g a m) = ofMemory f >>= fun a => ofMemory (g a) := by
  funext heap
  cases hf : f heap.memory with
  | ok a =>
    rw [ofMemory_bind hf]
    simp only [ofMemory, hf]
    rfl
  | error e =>
    rw [ofMemory_bind_error hf]
    simp only [ofMemory, hf]
    rfl

/-- A sound block has a header, so that its payload is a difference. -/
theorem payloadSize_eq (hsize : BlockHeader.bytes ≤ h.size.toNat) :
    payloadSize h = pure h.payload := wordDifference_eq (UInt32.le_iff_toNat_le.2 hsize)

/-- Whether a block serves a request is decided on that difference. -/
theorem serves_eq (hsize : BlockHeader.bytes ≤ h.size.toNat) (size : UInt32) :
    serves h size = pure (decide (h.IsFree ∧ size ≤ h.payload)) := by
  by_cases hfree : h.IsFree
  · rw [serves, if_pos hfree, payloadSize_eq hsize, pure_bind]
    simp only [hfree, true_and]
  · rw [serves, if_neg hfree]
    simp only [hfree, false_and, decide_false]

theorem ofMemory_findFree_zero (size addr : UInt32) :
    ofMemory (·.findFree size 0 addr) = if addr = 0 then pure none else throw cycle := by
  have hzero : (fun m : Memory => m.findFree size 0 addr) =
      fun _ => if addr = 0 then .ok none else .error cycle :=
    funext fun m => by rw [Memory.findFree]
  rw [hzero, ofMemory_ite]
  rfl

/-- The search reads the header of a block before it decides. -/
theorem ofMemory_findFree_succ (size : UInt32) (left : Nat) (addr : UInt32) :
    ofMemory (·.findFree size (left + 1) addr) =
      if addr = 0 then pure none else
        ofMemory (·.readHeader addr) >>= fun h =>
          if h.IsFree ∧ size ≤ h.payload then pure (some (addr, h))
          else ofMemory (·.findFree size left h.next) := by
  have hsucc : (fun m : Memory => m.findFree size (left + 1) addr) = fun m =>
      if addr = 0 then .ok none else
        m.readHeader addr >>= fun h =>
          if h.IsFree ∧ size ≤ h.payload then .ok (some (addr, h))
          else m.findFree size left h.next :=
    funext fun m => by
      rw [Memory.findFree]
      cases m.readHeader addr <;> rfl
  rw [hsucc, ofMemory_ite, ofMemory_seq]
  simp only [ofMemory_ite]
  rfl

/-- **The search** reads a header for each block it may still visit. -/
theorem follows_search (hlimit : limit < 2 ^ 63) (size : UInt32) (hleft : visited + left = limit)
    (addr : UInt32) :
    Follows left (search size limit visited addr) (ofMemory (·.findFree size left addr)) heap := by
  have hsum : visited + 1 < 2 ^ 64 := by omega
  induction left generalizing visited addr with
  | zero =>
    rw [ofMemory_findFree_zero]
    unfold search
    refine .ite (fun _ => follows_pure none) fun _ => ?_
    rw [sum_eq hsum, discard_pure, pure_bind, if_pos (by omega)]
    exact follows_throw trivial
  | succ left ih =>
    rw [ofMemory_findFree_succ]
    unfold search
    refine .ite (fun _ => follows_pure none) fun _ => ?_
    rw [sum_eq hsum, discard_pure, pure_bind, if_neg (by omega)]
    refine (follows_readHeader addr).bind fun h heap' hread => ?_
    obtain ⟨hread, rfl⟩ := ofMemory_eq_ok hread
    rw [serves_eq (Memory.isSound_of_readHeader hread).1.2.1, pure_bind]
    simp only [decide_eq_true_eq]
    exact .ite (fun _ => follows_pure _) fun _ => ih (by omega) h.next (by omega)

/-! ## Serving a request -/

/-- The payload has an address if the header ends below the last word. -/
theorem payloadAddr_eq (haddr : addr.toNat + BlockHeader.bytes < UInt32.size) :
    Checked.payloadAddr addr = pure (Heap.payloadAddr addr) := wordSum_eq haddr

/-- A header that has been written lies in memory, whose size is as before. -/
theorem le_of_onMemory_writeHeader
    (hwrite : onMemory (Memory.writeHeader addr h) heap = .ok () heap') :
    addr.toNat + BlockHeader.bytes ≤ heap.memory.size ∧
      heap'.memory.size = heap.memory.size := by
  unfold onMemory at hwrite
  cases hop : Memory.writeHeader addr h heap.memory with
  | ok a m' =>
    simp only [hop] at hwrite
    cases hwrite
    exact Memory.le_of_writeHeader hop
  | error e m' =>
    simp only [hop] at hwrite
    cases hwrite

/-- A block is handed out once its header has been written, so that its payload has an address. -/
theorem follows_handOut (hsize : heap.memory.size < UInt32.size) (addr : UInt32)
    (h : BlockHeader) :
    Follows 0 (writeHeader addr h >>= fun _ => Checked.payloadAddr addr)
      (onMemory (Memory.writeHeader addr h) >>= fun _ => pure (Heap.payloadAddr addr)) heap := by
  refine (follows_writeHeader addr h).bind fun _ _ hwrite => ?_
  rw [payloadAddr_eq (Nat.lt_of_le_of_lt (le_of_onMemory_writeHeader hwrite).1 hsize)]
  exact follows_pure _

/-- **Taking storage** out of any block that serves. -/
theorem follows_take (hsize : heap.memory.size < UInt32.size)
    (hread : heap.memory.readHeader addr = .ok h) (hserves : (⟨addr, h⟩ : HeapBlock).Serves size) :
    Follows 0 (Checked.take addr h size) (Heap.take addr h size) heap := by
  have hb := (Memory.isSound_of_readHeader hread).1.2.1
  rw [Checked.take, payloadSize_eq hb, pure_bind, wordDifference_eq hserves.2, pure_bind,
    Heap.take]
  refine .ite (fun h24 => ?_) fun _ => ?_
  · obtain ⟨hused, hfront⟩ := HeapBlock.toNat_split (b := ⟨addr, h⟩) hb hserves h24
    have hrest := (HeapBlock.le_payload_sub_iff (b := ⟨addr, h⟩) hb hserves).1 h24
    have hlt := h.size.toNat_lt
    simp only [HeapBlock.payloadSize, BlockHeader.bytes, alignment] at hrest
    have hsum : size.toNat + (16 : UInt32).toNat < UInt32.size := by
      simp only [UInt32.size, UInt32.reduceToNat]
      omega
    have hused' : size + 16 ≤ h.size := UInt32.le_iff_toNat_le.2 (by omega)
    rw [wordSum_eq hsum, pure_bind, wordDifference_eq hused', pure_bind]
    by_cases hbound : UInt32.size ≤ addr.toNat + (h.size - (size + 16)).toNat
    · simp only [if_pos hbound]
      exact follows_throw trivial
    · simp only [if_neg hbound]
      rw [wordSum_eq (Nat.lt_of_not_le hbound), pure_bind]
      refine (follows_writeHeader _ _).bind fun _ heap₁ hwrite => ?_
      exact follows_handOut ((le_of_onMemory_writeHeader hwrite).2 ▸ hsize) _ _
  · exact follows_handOut hsize addr _

/-- **Carving** any room that is large enough. -/
theorem follows_carve (cell head : UInt32) {room : ByteRange} (hroom : IsRoomFor room size.toNat) :
    Follows 0 (Checked.carve cell head size room) (Heap.carve cell head size room) heap := by
  have hfits := hroom.fits
  have hstop := hroom.stop_le
  simp only [BlockHeader.bytes, alignment, UInt32.size] at hfits hstop
  have hsum : size.toNat + (16 : UInt32).toNat < UInt32.size := by
    simp only [UInt32.size, UInt32.reduceToNat]
    omega
  have hused : (size + 16).toNat = BlockHeader.bytes + size.toNat := by
    rw [UInt32.toNat_add, Nat.mod_eq_of_lt hsum, Nat.add_comm]
    rfl
  have hword {n : Nat} (hn : n ≤ room.stop) : n < UInt32.size := by
    simp only [UInt32.size]
    omega
  have hstart : room.start.toUInt32.toNat = room.start := Nat.mod_eq_of_lt (hword (by omega))
  have hpayload : Checked.payloadAddr room.start.toUInt32 =
      pure (Heap.payloadAddr room.start.toUInt32) := by
    refine payloadAddr_eq (hword ?_)
    rw [hstart]
    exact Nat.le_of_add_right_le hroom.fits
  have hrest : room.start + (BlockHeader.bytes + size.toNat) ≤ room.stop := by
    simp only [BlockHeader.bytes]
    omega
  have hrest64 : room.start + (BlockHeader.bytes + size.toNat) < 2 ^ 64 := by omega
  rw [Checked.carve, wordSum_eq hsum, pure_bind, hused, sum_eq hrest64, pure_bind,
    difference_eq hrest, pure_bind, word_eq (hword (by omega)), pure_bind, hpayload]
  by_cases hlarge : room.start + (BlockHeader.bytes + size.toNat) + BlockHeader.bytes + alignment ≤
      room.stop
  · have hleft : 24 ≤ room.stop - (room.start + (BlockHeader.bytes + size.toNat)) := by
      simp only [BlockHeader.bytes, alignment] at hlarge ⊢
      omega
    simp only [Heap.carve, if_pos hlarge, if_pos hleft]
    rw [word_eq (hword hrest), pure_bind, word_eq (hword (by omega)), pure_bind,
      word_eq (hword (Nat.sub_le ..)), pure_bind]
    exact (follows_writeHeader ..).bind fun _ _ _ => (follows_writeHeader ..).bind fun _ _ _ =>
      (follows_writeHead cell (hword hrest)).bind fun _ _ _ => follows_pure _
  · have hleft : ¬24 ≤ room.stop - (room.start + (BlockHeader.bytes + size.toNat)) := by
      simp only [BlockHeader.bytes, alignment] at hlarge ⊢
      omega
    simp only [Heap.carve, if_neg hlarge, if_neg hleft]
    rw [hstart, difference_eq (by omega), pure_bind, word_eq (hword (Nat.sub_le ..)), pure_bind]
    exact (follows_writeHeader ..).bind fun _ _ _ =>
      (follows_writeHead cell (hword (by omega))).bind fun _ _ _ => follows_pure _

/-- To a request there can be added what the allocator adds. -/
theorem add_lt_of_le_maxRequest {n : UInt32} (hsize : size ≤ maxRequest) (hn : n ≤ 24) :
    size.toNat + n.toNat < UInt32.size :=
  Nat.lt_of_le_of_lt
    (Nat.add_le_add (UInt32.le_iff_toNat_le.1 hsize) (UInt32.le_iff_toNat_le.1 hn)) (by decide)

theorem growPages_eq (pages : Nat) (heap : Heap) :
    growPages pages heap = .ok (heap.memory.grow pages).1
      ⟨(heap.memory.grow pages).2, heap.stats⟩ := rfl

/-- **Growing** memory for any request, whose cell can be read. -/
theorem follows_growAndCarve (hpaged : heap.memory.IsPaged)
    (hhead : heap.memory.heapHead cell = .ok head) (hsize : size ≤ maxRequest) :
    Follows 0 (Checked.growAndCarve cell head size) (Heap.growAndCarve cell head size) heap := by
  have hsum := add_lt_of_le_maxRequest hsize (by decide : (24 : UInt32) ≤ 24)
  have hpages : (size + 24).toNat ⌈/⌉ Memory.pageSize = pagesFor size := by
    have h24 : (24 : UInt32).toNat = BlockHeader.bytes + alignment := by decide
    rw [UInt32.toNat_add, Nat.mod_eq_of_lt hsum, Nat.ceilDiv_eq_add_pred_div, pagesFor,
      Nat.add_comm size.toNat, h24]
  have hlt : pagesFor size < UInt32.size := by
    have hbound := size.toNat_lt
    simp only [pagesFor, BlockHeader.bytes, alignment, Memory.pageSize, UInt32.size]
    omega
  have hword : (pagesFor size).toUInt32.toNat = pagesFor size := UInt32.toNat_ofNat_of_lt' hlt
  rw [Checked.growAndCarve, wordSum_eq hsum, pure_bind, hpages, word_eq hlt, pure_bind,
    growAndCarve_eq]
  simp only [hword]
  have hgrow : Follows 0 (perform (growPages (pagesFor size))) (growPages (pagesFor size)) heap :=
    follows_perform fun e heap' h => by
      rw [growPages_eq] at h
      cases h
  refine hgrow.bind fun old heap' hgrown => ?_
  rw [growPages_eq] at hgrown
  obtain ⟨hold, -⟩ := EStateM.Result.ok.inj hgrown
  cases old with
  | none => exact follows_throw trivial
  | some old =>
    obtain ⟨rfl, -⟩ := Memory.pages_grow_of_some hold
    obtain ⟨-, hpos⟩ := freshRoom_start hpaged hhead (pagesFor size)
    have hbound := Nat.le_trans (Memory.le_maximum_of_grow hold (pagesFor_pos size)) hpaged.maximum
    have hroom := isRoomFor_freshRoom hpos hbound
    have hstop : (heap.memory.pages + pagesFor size) * Memory.pageSize < 2 ^ 64 :=
      Nat.lt_of_le_of_lt (Nat.mul_le_mul_right _ hbound) (by decide)
    have hstart := Nat.lt_of_le_of_lt
      (Nat.mul_le_mul_right Memory.pageSize (Nat.le_add_right _ (pagesFor size))) hstop
    have hsum32 : heap.memory.pages + pagesFor size < 2 ^ 32 :=
      Nat.lt_of_le_of_lt hbound (by decide)
    simp only [carveFrom]
    rw [product_eq hstart, pure_bind, sum_eq hsum32, pure_bind, product_eq hstop, pure_bind]
    exact (follows_perform_record _).bind fun _ _ _ => follows_carve cell head hroom

/-! ## Requests -/

/-- Rounding such a request up does not overflow. -/
theorem wordSum_rounded (h : size ≤ maxRequest) :
    wordSum size 8 = pure (size + 8) ∧ wordDifference (size + 8) 1 = pure (size + 7) := by
  have hsum := add_lt_of_le_maxRequest h (by decide : (8 : UInt32) ≤ 24)
  have hle : 1 ≤ size + 8 := by
    rw [UInt32.le_iff_toNat_le, UInt32.toNat_add, Nat.mod_eq_of_lt hsum]
    exact Nat.le_add_left_of_le (by decide)
  refine ⟨wordSum_eq hsum, (wordDifference_eq hle).trans (congrArg pure ?_)⟩
  have h81 : (8 : UInt32) + -1 = 7 := by decide
  rw [UInt32.sub_eq_add_neg, UInt32.add_assoc, h81]

/-- The number of blocks that are visited at most is a word. -/
theorem maxBlocks_lt (hsize : heap.memory.size < UInt32.size) :
    Heap.maxBlocks heap.memory.size < 2 ^ 32 := by
  simp only [Heap.maxBlocks, BlockHeader.bytes, UInt32.size] at hsize ⊢
  omega

/-- The number of headers that may be visited is that of the present memory. -/
theorem Follows.maxBlocks_bind {g : Nat → Checked α} {f : HeapM α}
    (hsize : heap.memory.size < UInt32.size)
    (h : Follows limit (g (Heap.maxBlocks heap.memory.size)) f heap) :
    Follows limit (Checked.maxBlocks >>= g) f heap := by
  have hlt := Nat.lt_trans (maxBlocks_lt hsize) (by decide : 2 ^ 32 < 2 ^ 64)
  have hrun (headers : Nat) : (Checked.maxBlocks >>= g) ⟨heap, headers⟩ =
      g (Heap.maxBlocks heap.memory.size) ⟨heap, headers⟩ := by
    have hsum : sum 64 (heap.memory.size / BlockHeader.bytes) 1 =
        pure (Heap.maxBlocks heap.memory.size) := sum_eq hlt
    change (sum 64 (heap.memory.size / BlockHeader.bytes) 1 >>= g) ⟨heap, headers⟩ = _
    rw [hsum, pure_bind]
  obtain ⟨hagrees, hfailures⟩ := h
  exact ⟨fun headers => by rw [hrun]; exact hagrees headers, hfailures⟩

/-- **A request** reads no more headers than fit into memory, and one. -/
theorem follows_alloc (hpaged : heap.memory.IsPaged) (hsize : heap.memory.size < UInt32.size)
    (cell size : UInt32) :
    Follows (Heap.maxBlocks heap.memory.size) (Checked.alloc cell size) (Heap.alloc cell size)
      heap := by
  unfold Checked.alloc Heap.alloc
  by_cases hlarge : maxRequest < size
  · rw [if_pos hlarge, if_pos hlarge]
    exact follows_throw trivial
  rw [if_neg hlarge, if_neg hlarge]
  have hrequest := UInt32.not_lt.1 hlarge
  obtain ⟨hsum, hdifference⟩ := wordSum_rounded hrequest
  rw [hsum, pure_bind, hdifference, pure_bind]
  refine (follows_readHead cell).bind fun head heap₁ hhead => ?_
  obtain ⟨hhead, rfl⟩ := ofMemory_eq_ok hhead
  refine (follows_perform_record _).bind fun _ heap₂ hrecord => ?_
  have hmemory : heap₂.memory = heap₁.memory := by
    cases hrecord
    rfl
  rw [← hmemory] at hpaged hsize hhead ⊢
  refine .maxBlocks_bind hsize ?_
  have hlimit := Nat.lt_trans (maxBlocks_lt hsize) (by decide : 2 ^ 32 < 2 ^ 63)
  have hsearch : Follows (Heap.maxBlocks heap₂.memory.size)
      (search (rounded size) (Heap.maxBlocks heap₂.memory.size) 0 head)
      (ofMemory fun m => m.findFree (rounded size) (Heap.maxBlocks m.size) head) heap₂ :=
    (follows_search hlimit (rounded size) (Nat.zero_add _) head).congr rfl
  refine (hsearch.bind fun found heap₃ hfind => ?_).mono (Nat.le_of_eq (Nat.zero_add _))
  obtain ⟨hfind, rfl⟩ := ofMemory_eq_ok hfind
  cases found with
  | some found =>
    obtain ⟨-, -, -, hread, hserves⟩ := Memory.exists_chain_of_findFree hfind
    exact follows_take hsize hread hserves
  | none => exact follows_growAndCarve hpaged hhead (rounded_spec hrequest).2

/-! ## Walks -/

theorem ofMemory_walkFrom_zero (addr : UInt32) (usage : HeapUsage) :
    ofMemory (·.walkFrom 0 addr usage) = if addr = 0 then pure usage else throw cycle := by
  have hzero : (fun m : Memory => m.walkFrom 0 addr usage) =
      fun _ => if addr = 0 then .ok usage else .error cycle :=
    funext fun m => by rw [Memory.walkFrom]
  rw [hzero, ofMemory_ite]
  rfl

/-- The walk reads the header of a block before it tallies it. -/
theorem ofMemory_walkFrom_succ (left : Nat) (addr : UInt32) (usage : HeapUsage) :
    ofMemory (·.walkFrom (left + 1) addr usage) =
      if addr = 0 then pure usage else
        ofMemory (·.readHeader addr) >>= fun h =>
          ofMemory (·.walkFrom left h.next (tally usage h h.payload.toNat)) := by
  have hsucc : (fun m : Memory => m.walkFrom (left + 1) addr usage) = fun m =>
      if addr = 0 then .ok usage else
        m.readHeader addr >>= fun h => m.walkFrom left h.next (tally usage h h.payload.toNat) :=
    funext fun m => by
      rw [Memory.walkFrom]
      cases m.readHeader addr <;> rfl
  rw [hsucc, ofMemory_ite, ofMemory_seq]
  rfl

/-- No block has more bytes than its size can tell. -/
def IsBounded (usage : HeapUsage) : Prop :=
  usage.usedBytes + usage.freeBytes ≤ usage.blocks * UInt32.size

/-- One more block adds less than a word to one of the two sums. -/
theorem IsBounded.tally {usage : HeapUsage} (hbounded : IsBounded usage) (h : BlockHeader)
    {n : Nat} (hn : n ≤ UInt32.size) : IsBounded (Checked.tally usage h n) := by
  unfold IsBounded Checked.tally at *
  split <;> simp only [Nat.add_mul, Nat.one_mul] <;> omega

/-- **The walk** reads a header for each block it may still visit. -/
theorem follows_walkFrom (hlimit : limit < 2 ^ 32) {usage : HeapUsage} (hbounded : IsBounded usage)
    (hleft : usage.blocks + left = limit) (addr : UInt32) :
    Follows left (Checked.walkFrom limit addr usage) (ofMemory (·.walkFrom left addr usage))
      heap := by
  induction left generalizing usage addr with
  | zero =>
    rw [ofMemory_walkFrom_zero]
    unfold Checked.walkFrom
    refine .ite (fun _ => follows_pure usage) fun _ => ?_
    rw [if_pos (by omega)]
    exact follows_throw trivial
  | succ left ih =>
    rw [ofMemory_walkFrom_succ]
    unfold Checked.walkFrom
    refine .ite (fun _ => follows_pure usage) fun _ => ?_
    rw [if_neg (by omega)]
    refine (follows_readHeader addr).bind fun h heap' hread => ?_
    obtain ⟨hread, rfl⟩ := ofMemory_eq_ok hread
    have hblocks : usage.blocks + 1 < 2 ^ 32 := by omega
    have hbytes : (if h.IsFree then usage.freeBytes else usage.usedBytes) + h.payload.toNat <
        2 ^ 64 := by
      have hle := Nat.mul_le_mul_right UInt32.size (Nat.le_of_lt hblocks)
      have hpayload := h.payload.toNat_lt
      unfold IsBounded at hbounded
      simp only [UInt32.size, Nat.add_mul, Nat.one_mul] at hbounded hle
      split <;> omega
    rw [sum_eq hblocks, discard_pure, pure_bind,
      payloadSize_eq (Memory.isSound_of_readHeader hread).1.2.1, pure_bind]
    simp only [sum_eq hbytes, discard_pure, pure_bind]
    exact ih (hbounded.tally h (Nat.le_of_lt h.payload.toNat_lt))
      (by rw [blocks_tally]; omega) h.next

/-- A walk reads the cell, and then as many headers as it may. -/
theorem follows_walk (hsize : heap.memory.size < UInt32.size) (cell : UInt32) :
    Follows (Heap.maxBlocks heap.memory.size) (Checked.walk cell) (ofMemory (·.walkHeap cell))
      heap := by
  have hwalk : ofMemory (·.walkHeap cell) = ofMemory (·.heapHead cell) >>= fun head =>
      ofMemory fun m => m.walkFrom (Heap.maxBlocks m.size) head {} := by
    have hseq : (fun m : Memory => m.walkHeap cell) = fun m =>
        m.heapHead cell >>= fun head => m.walkFrom (Heap.maxBlocks m.size) head {} :=
      funext fun m => by
        rw [Memory.walkHeap]
        cases m.heapHead cell <;> rfl
    rw [hseq, ofMemory_seq]
  rw [hwalk]
  refine .maxBlocks_bind hsize ((follows_readHead cell).bind fun head heap' hhead => ?_)
  obtain ⟨-, rfl⟩ := ofMemory_eq_ok hhead
  exact (follows_walkFrom (maxBlocks_lt hsize) (Nat.zero_le _) (Nat.zero_add _) head).congr rfl

/-- **The allocator survives any memory.**  In a memory of fewer pages than there can be, whatever
its bytes are and wherever the cell is, a request for any size and a walk through the blocks read at
most as many headers as fit into memory, and one; they give a result, give up, or trap because they
would leave memory; and no sum, difference, product or cast of an address or a size goes wrong. -/
theorem allocator_checked (heap : Heap) (hpaged : heap.memory.IsPaged)
    (hpages : heap.memory.pages < Memory.maxPages) (cell size : UInt32) :
    Follows (heap.memory.size / BlockHeader.bytes + 1) (Checked.alloc cell size)
      (Heap.alloc cell size) heap ∧
    Follows (heap.memory.size / BlockHeader.bytes + 1) (Checked.walk cell)
      (ofMemory (·.walkHeap cell)) heap := by
  have hsize : heap.memory.size < UInt32.size := by
    have hlt := Nat.mul_lt_mul_of_pos_right hpages (by decide : 0 < Memory.pageSize)
    rw [← hpaged.size] at hlt
    exact hlt
  exact ⟨follows_alloc hpaged hsize cell size, follows_walk hsize cell⟩

/-- A used block whose successor it is itself is met until the visits are used up. -/
theorem findFree_of_next_eq {m : Memory} (haddr : addr ≠ 0) (hread : m.readHeader addr = .ok h)
    (hnext : h.next = addr) (hused : ¬h.IsFree) (size : UInt32) (left : Nat) :
    m.findFree size left addr = .error cycle := by
  induction left with
  | zero => rw [Memory.findFree, if_neg haddr]
  | succ left ih =>
    rw [Memory.findFree, if_neg haddr]
    simp only [hread]
    rw [if_neg fun hserves => hused hserves.1, hnext]
    exact ih

/-- A guest points the only header on its page back to itself. -/
theorem allocator_checked_cyclic : ∃ m : Memory, m.IsPaged ∧ m.pages < Memory.maxPages ∧
    m.heapHead 1024 = .ok 2048 ∧ m.readHeader 2048 = .ok (.new 16 2048 false) ∧
    alloc 1024 8 ⟨m, {}⟩ = .error cycle ⟨m, ⟨1, 8, 0⟩⟩ ∧
    Follows (m.size / BlockHeader.bytes + 1) (Checked.alloc 1024 8) (alloc 1024 8) ⟨m, {}⟩ ∧
    Follows (m.size / BlockHeader.bytes + 1) (Checked.walk 1024) (ofMemory (·.walkHeap 1024))
      ⟨m, {}⟩ := by
  obtain ⟨m, hpaged, hsize, hhead, hread⟩ :=
    exists_memory_of_header (h := .new 16 2048 false) (by decide)
  have hpages : m.pages < Memory.maxPages := by
    have hsize' := hpaged.size
    simp only [hsize, Memory.pageSize] at hsize'
    simp only [Memory.maxPages]
    omega
  have hcycle := findFree_of_next_eq (by decide) hread rfl (by decide) (rounded 8)
    (maxBlocks m.size)
  refine ⟨m, hpaged, hpages, hhead, hread, ?_, allocator_checked ⟨m, {}⟩ hpaged hpages 1024 8⟩
  rw [alloc_eq_search (by decide) hhead]
  exact ofMemory_bind_error hcycle

end Heap

end WasmEngine
