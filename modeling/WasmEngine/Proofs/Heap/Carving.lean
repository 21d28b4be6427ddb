import WasmEngine.Proofs.Heap.Blocks

/-!
# Proofs/Heap/Carving — how room becomes blocks

A request is served out of one range of bytes: a free block, or the pages that growth has added.
The allocator divides that room into blocks and hands out the payload of the used one
(`Heap.Divides`), in memory as on paper: `Heap.exists_take`, `Heap.exists_carve`.
-/

namespace WasmEngine

namespace Heap

/-! ## Arithmetic of requests -/

theorem toNat_rounded {size : UInt32} (h : size ≤ maxRequest) :
    (rounded size).toNat = alignUp size.toNat alignment := by
  have hle := UInt32.le_iff_toNat_le.1 h
  have hmax : maxRequest.toNat = 2147418112 := rfl
  have hmask : ~~~(7 : UInt32) = ⟨BitVec.allOnes 32 <<< 3⟩ := by decide
  unfold rounded
  rw [hmask, ← UInt32.toNat_toBitVec, UInt32.toBitVec_and, ← BitVec.shiftLeft_ushiftRight]
  simp only [BitVec.toNat_shiftLeft, BitVec.toNat_ushiftRight, UInt32.toNat_toBitVec,
    UInt32.toNat_add, Nat.shiftLeft_eq, Nat.shiftRight_eq_div_pow, alignUp, alignment,
    UInt32.toNat_ofNat]
  omega

/-- The payload of a request is a multiple of the alignment and not much above the largest one. -/
theorem rounded_spec {size : UInt32} (h : size ≤ maxRequest) :
    alignment ∣ (rounded size).toNat ∧ (rounded size).toNat ≤ maxRequest.toNat := by
  rw [toNat_rounded h]
  exact ⟨dvd_alignUp .., alignUp_le (UInt32.le_iff_toNat_le.1 h) (by decide)⟩

/-! ## Dividing room -/

/-- Blocks that share a room, one of which is used and has its payload at `p`, of at least `n`
bytes. -/
structure Divides (room : ByteRange) (n : Nat) (p : UInt32) (pieces : List HeapBlock) : Prop where
  within : ∀ b ∈ pieces, b.range.Within room
  tidy : ∀ b ∈ pieces, b.IsTidy
  apart : pieces.Pairwise fun b c => b.range.Apart c.range
  served : ∃ b ∈ pieces, ¬b.header.IsFree ∧ p = payloadAddr b.addr ∧
    BlockHeader.bytes + n ≤ b.header.size.toNat

variable {room : ByteRange} {n : Nat}

theorem divides_singleton {b : HeapBlock} (hb : b.IsTidy) (hroom : b.range.Within room)
    (hused : ¬b.header.IsFree) (hn : BlockHeader.bytes + n ≤ b.header.size.toNat) :
    Divides room n (payloadAddr b.addr) [b] where
  within := List.forall_mem_singleton.2 hroom
  tidy := List.forall_mem_singleton.2 hb
  apart := List.pairwise_singleton ..
  served := ⟨b, List.mem_cons_self, hused, rfl, hn⟩

/-- Two blocks that follow one another, the second of which is used. -/
theorem divides_pair {b c : HeapBlock} (hb : b.IsTidy) (hc : c.IsTidy)
    (hwithin : b.range.Within room) (hwithin' : c.range.Within room)
    (hapart : b.range.Apart c.range) (hused : ¬c.header.IsFree)
    (hn : BlockHeader.bytes + n ≤ c.header.size.toNat) :
    Divides room n (payloadAddr c.addr) [b, c] where
  within := List.forall_mem_cons.2 ⟨hwithin, List.forall_mem_singleton.2 hwithin'⟩
  tidy := List.forall_mem_cons.2 ⟨hb, List.forall_mem_singleton.2 hc⟩
  apart := List.pairwise_pair.2 hapart
  served := ⟨c, List.mem_cons_of_mem _ List.mem_cons_self, hused, rfl, hn⟩

/-- The storage lies in the payload of a used block of the room. -/
theorem Divides.exists_used {p : UInt32} {pieces : List HeapBlock}
    (h : Divides room n p pieces) :
    ∃ b ∈ pieces, ¬b.header.IsFree ∧ alignment ∣ p.toNat ∧
      (ByteRange.ofLength p.toNat n).Within b.payloadRange := by
  obtain ⟨b, hb, hused, rfl, hn⟩ := h.served
  have htidy := h.tidy b hb
  rw [htidy.toNat_payloadAddr]
  refine ⟨b, hb, hused, Nat.dvd_add htidy.aligned (by decide), Nat.le_refl _, ?_⟩
  simp only [HeapBlock.payloadRange, HeapBlock.stop, ByteRange.stop_ofLength]
  omega

theorem Divides.storage_within {p : UInt32} {pieces : List HeapBlock}
    (h : Divides room n p pieces) : (ByteRange.ofLength p.toNat n).Within room := by
  obtain ⟨b, hb, -, -, hwithin⟩ := h.exists_used
  exact hwithin.trans (HeapBlock.payloadRange_within.trans (h.within b hb))

end Heap

/-! ## Cutting a free block -/

namespace HeapBlock

variable {b : HeapBlock} {size : UInt32}

/-- The part of a block that stays free. -/
def front (b : HeapBlock) (size : UInt32) : HeapBlock :=
  ⟨b.addr, .new (b.header.size - (size + 16)) (b.addr + (b.header.size - (size + 16))) true⟩

/-- The part of a block that is handed out. -/
def tail (b : HeapBlock) (size : UInt32) : HeapBlock :=
  ⟨b.addr + (b.header.size - (size + 16)), .new (size + 16) b.header.next false⟩

/-- A block that is handed out as it is. -/
def whole (b : HeapBlock) : HeapBlock := ⟨b.addr, .new b.header.size b.header.next false⟩

/-- What becomes of a free block that serves a request. -/
def cut (b : HeapBlock) (size : UInt32) : List HeapBlock :=
  if 24 ≤ b.header.payload - size then [b.front size, b.tail size] else [b.whole]

/-- The number of bytes behind the header. -/
def payloadSize (b : HeapBlock) : Nat := b.header.size.toNat - BlockHeader.bytes

/-- Whether a header and a payload remain when a block serves. -/
theorem le_payload_sub_iff (hb : BlockHeader.bytes ≤ b.header.size.toNat)
    (hserves : b.Serves size) :
    24 ≤ b.header.payload - size ↔
      size.toNat + BlockHeader.bytes + Heap.alignment ≤ b.payloadSize := by
  have hle := UInt32.le_iff_toNat_le.1 hserves.2
  have h24 : (24 : UInt32).toNat = 24 := rfl
  rw [UInt32.le_iff_toNat_le, UInt32.toNat_sub_of_le _ _ hserves.2, h24, payloadSize,
    ← BlockHeader.toNat_payload hb]
  simp only [BlockHeader.bytes, Heap.alignment]
  omega

/-- The sizes of the parts of any block that is split. -/
theorem toNat_split (hb : BlockHeader.bytes ≤ b.header.size.toNat) (hserves : b.Serves size)
    (h : 24 ≤ b.header.payload - size) :
    (size + 16).toNat = size.toNat + 16 ∧
      (b.header.size - (size + 16)).toNat = b.header.size.toNat - (size.toNat + 16) := by
  have hrest := (le_payload_sub_iff hb hserves).1 h
  have hlt := b.header.size.toNat_lt
  have h16 : (16 : UInt32).toNat = 16 := rfl
  simp only [payloadSize, BlockHeader.bytes, Heap.alignment] at hrest
  have hused : (size + 16).toNat = size.toNat + 16 := by
    rw [UInt32.toNat_add]
    omega
  refine ⟨hused, ?_⟩
  rw [UInt32.toNat_sub_of_le _ _ (UInt32.le_iff_toNat_le.2 (by omega)), hused]

/-- The sizes and addresses of the parts of a tidy block do not wrap. -/
theorem toNat_cut (hb : b.IsTidy) (hserves : b.Serves size) (h : 24 ≤ b.header.payload - size) :
    (b.tail size).header.size.toNat = size.toNat + 16 ∧
      (b.front size).header.size.toNat = b.header.size.toNat - (size.toNat + 16) ∧
      (b.tail size).addr.toNat = b.stop - (size.toNat + 16) ∧
      size.toNat + 40 ≤ b.header.size.toNat := by
  have hstop := hb.stop_le
  have hrest := (le_payload_sub_iff hb.header_le hserves).1 h
  obtain ⟨hused, hfront⟩ := toNat_split hb.header_le hserves h
  simp only [payloadSize, stop, BlockHeader.bytes, Heap.alignment, UInt32.size] at hstop hrest ⊢
  refine ⟨hused, hfront, ?_, by omega⟩
  rw [tail, UInt32.toNat_add, hfront]
  omega

theorem isTidy_whole (hb : b.IsTidy) : b.whole.IsTidy := ⟨hb.1, hb.2, hb.3, hb.4⟩

theorem divides_whole (hb : b.IsTidy) (hserves : b.Serves size) :
    Heap.Divides b.range size.toNat (Heap.payloadAddr b.addr) [b.whole] := by
  have hle := UInt32.le_iff_toNat_le.1 hserves.2
  have hheader := hb.header_le
  rw [BlockHeader.toNat_payload hheader] at hle
  refine Heap.divides_singleton (isTidy_whole hb) (ByteRange.Within.refl _) ?_ ?_
  · simp [whole]
  · simp only [whole, BlockHeader.size_new]
    omega

theorem divides_front_tail (hb : b.IsTidy) (hserves : b.Serves size)
    (hsize : Heap.alignment ∣ size.toNat) (h : 24 ≤ b.header.payload - size) :
    Heap.Divides b.range size.toNat (Heap.payloadAddr (b.tail size).addr)
      [b.front size, b.tail size] := by
  obtain ⟨htail, hfront, haddr, hle⟩ := toNat_cut hb hserves h
  obtain ⟨hheader, haligned, haligned', hstop⟩ := hb
  have haddr' : (b.front size).addr = b.addr := rfl
  refine Heap.divides_pair ⟨?_, ?_, ?_, ?_⟩ ⟨?_, ?_, ?_, ?_⟩ ?_ ?_ ?_ ?_ ?_ <;>
    simp only [range, stop, ByteRange.Within, ByteRange.Apart, htail, hfront, haddr, haddr',
      BlockHeader.bytes, Heap.alignment, UInt32.size] at * <;> try omega
  simp [tail]

end HeapBlock

namespace Heap

variable {m : Memory} {stats : HeapStats}

theorem onMemory_bind {α β : Type} {op : Memory.Update α} {f : α → HeapM β} {m' : Memory} {a : α}
    (h : op m = .ok a m') : (onMemory op >>= f) ⟨m, stats⟩ = f a ⟨m', stats⟩ := by
  simp only [bind, EStateM.bind, onMemory, h]

/-- The header of a block of a room is written inside the room. -/
theorem exists_writeBlock {b : HeapBlock} (hb : b.IsTidy) (hsound : b.header.IsSound)
    (hwithin : b.range.Within room) (hle : room.stop ≤ m.size) :
    ∃ m', Memory.writeHeader b.addr b.header m = .ok () m' ∧ m.ChangesOnly [room] m' ∧
      m'.readHeader b.addr = .ok b.header := by
  have hheader := hb.header_within.trans hwithin
  obtain ⟨m', hwrite, hchanges, hread⟩ :=
    Memory.exists_writeHeader hsound (Nat.le_trans hheader.2 hle)
  exact ⟨m', hwrite, hchanges.of_within hheader List.mem_cons_self, hread⟩

/-- The headers of two blocks of a room are written inside the room. -/
theorem exists_writeBlock_writeBlock {b c : HeapBlock} (hb : b.IsTidy) (hc : c.IsTidy)
    (hsound : b.header.IsSound) (hsound' : c.header.IsSound) (hwithin : b.range.Within room)
    (hwithin' : c.range.Within room) (hapart : b.range.Apart c.range) (hle : room.stop ≤ m.size) :
    ∃ m₁ m₂, Memory.writeHeader b.addr b.header m = .ok () m₁ ∧
      Memory.writeHeader c.addr c.header m₁ = .ok () m₂ ∧ m.ChangesOnly [room] m₂ ∧
      m₂.readHeader b.addr = .ok b.header ∧ m₂.readHeader c.addr = .ok c.header := by
  obtain ⟨m₁, hwrite, hchanges, hread⟩ := exists_writeBlock hb hsound hwithin hle
  obtain ⟨m₂, hwrite', hchanges', hread'⟩ := exists_writeBlock hc hsound' (ByteRange.Within.refl _)
    (Nat.le_trans hwithin'.2 (hchanges.size.symm ▸ hle))
  have hkept := hchanges'.sameOn (List.forall_mem_singleton.2 (hapart.within_left hb.header_within))
  exact ⟨m₁, m₂, hwrite, hwrite',
    hchanges.trans (hchanges'.of_within hwithin' List.mem_cons_self),
    Memory.readHeader_of_sameOn hread (Nat.le_of_eq hchanges'.size.symm) hkept, hread'⟩

/-- **Taking storage out of a free block** changes nothing outside the block and puts its parts in
its place. -/
theorem exists_take (stats : HeapStats) {b : HeapBlock} {size : UInt32} (hb : b.IsTidy)
    (hserves : b.Serves size) (hsize : alignment ∣ size.toNat) (hne : b.addr ≠ 0)
    (hle : b.stop ≤ m.size) :
    ∃ m' p, take b.addr b.header size ⟨m, stats⟩ = .ok p ⟨m', stats⟩ ∧
      m.ChangesOnly [b.range] m' ∧ m'.Chain b.addr (b.cut size) b.header.next ∧
      Divides b.range size.toNat p (b.cut size) := by
  by_cases h : 24 ≤ b.header.payload - size
  · obtain ⟨htail, hfront, haddr, hlarge⟩ := HeapBlock.toNat_cut hb hserves h
    have hdivides := HeapBlock.divides_front_tail hb hserves hsize h
    have hin := hdivides.within
    have htidy := hdivides.tidy
    have hapart := hdivides.apart
    simp only [List.forall_mem_cons, List.pairwise_pair] at hin htidy hapart
    obtain ⟨m₁, m₂, hwrite, hwrite', hchanges, hread, hread'⟩ :=
      exists_writeBlock_writeBlock htidy.1 htidy.2.1 (BlockHeader.isSound_new _ _ htidy.1.header_le)
        (BlockHeader.isSound_new _ _ htidy.2.1.header_le) hin.1 hin.2.1 hapart hle
    have hstop := hb.stop_le
    have hbound : ¬UInt32.size ≤ b.addr.toNat + (b.header.size - (size + 16)).toNat := by
      simp only [HeapBlock.stop, HeapBlock.front, BlockHeader.size_new, alignment, UInt32.size]
        at hstop hfront ⊢
      omega
    have hne' : (b.tail size).addr ≠ 0 := by
      intro hzero
      rw [hzero] at haddr
      simp only [HeapBlock.stop, UInt32.toNat_zero] at haddr
      omega
    refine ⟨m₂, payloadAddr (b.tail size).addr, ?_, hchanges, ?_, ?_⟩
    · simp only [take, if_pos h, if_neg hbound]
      exact (onMemory_bind hwrite).trans (onMemory_bind hwrite')
    · rw [HeapBlock.cut, if_pos h]
      exact ⟨hne, rfl, hread, hne', rfl, hread', rfl⟩
    · rwa [HeapBlock.cut, if_pos h]
  · have hdivides := HeapBlock.divides_whole hb hserves
    obtain ⟨m', hwrite, hchanges, hread⟩ := exists_writeBlock (HeapBlock.isTidy_whole hb)
      (BlockHeader.isSound_new b.header.next false hb.header_le) (ByteRange.Within.refl _) hle
    refine ⟨m', payloadAddr b.addr, ?_, hchanges, ?_, ?_⟩
    · simp only [take, if_neg h]
      exact onMemory_bind hwrite
    · rw [HeapBlock.cut, if_neg h]
      exact ⟨hne, rfl, hread, rfl⟩
    · rwa [HeapBlock.cut, if_neg h]

/-! ## Carving new pages -/

/-- The room that growth from `old` pages on adds; it leaves out address 0 and the last unit of
alignment. -/
def freshRoom (old pages : Nat) : ByteRange :=
  ⟨max (old * Memory.pageSize) alignment,
    min ((old + pages) * Memory.pageSize) (UInt32.size - alignment)⟩

/-- Puts new room at the front of the list. -/
def carve (cell head size : UInt32) (room : ByteRange) : HeapM UInt32 := do
  let used := BlockHeader.bytes + size.toNat
  if room.start + used + BlockHeader.bytes + alignment ≤ room.stop then
    let rest := room.start + used
    onMemory (Memory.writeHeader room.start.toUInt32 (.new used.toUInt32 head false))
    onMemory (Memory.writeHeader rest.toUInt32
      (.new (room.stop - rest).toUInt32 room.start.toUInt32 true))
    onMemory (Memory.store 4 cell 0 rest)
  else
    onMemory (Memory.writeHeader room.start.toUInt32
      (.new (room.stop - room.start).toUInt32 head false))
    onMemory (Memory.store 4 cell 0 room.start)
  return payloadAddr room.start.toUInt32

/-- Growth of the memory an allocator works on. -/
def growPages (pages : Nat) : HeapM (Option Nat) :=
  modifyGet fun heap =>
    let ⟨memory, stats⟩ := heap
    let (old, memory) := memory.grow pages
    (old, ⟨memory, stats⟩)

theorem growPages_bind {β : Type} {f : Option Nat → HeapM β} (pages : Nat) :
    (growPages pages >>= f) ⟨m, stats⟩ = f (m.grow pages).1 ⟨(m.grow pages).2, stats⟩ := rfl

theorem record_bind {β : Type} {f : HeapStats → HeapStats} {g : Unit → HeapM β} :
    (record f >>= g) ⟨m, stats⟩ = g () ⟨m, f stats⟩ := rfl

/-- What follows growth. -/
def carveFrom (cell head size : UInt32) (pages : Nat) : Option Nat → HeapM UInt32
  | some old => do
    record fun s => { s with pagesGrown := s.pagesGrown + pages.toUInt32 }
    carve cell head size (freshRoom old pages)
  | none => throw outOfMemory

theorem growAndCarve_eq (cell head size : UInt32) :
    growAndCarve cell head size =
      growPages (pagesFor size) >>= carveFrom cell head size (pagesFor size) := by
  refine congrArg (growPages (pagesFor size) >>= ·) (funext fun old => ?_)
  cases old <;> rfl

theorem growAndCarve_of_none {cell head size : UInt32}
    (h : (m.grow (pagesFor size)).1 = none) :
    growAndCarve cell head size ⟨m, stats⟩ = .error outOfMemory ⟨m, stats⟩ := by
  rw [growAndCarve_eq, growPages_bind, h, Memory.grow_of_none h]
  rfl

/-- Growth, then carving. -/
theorem growAndCarve_of_some {cell head size : UInt32} {old : Nat}
    (h : (m.grow (pagesFor size)).1 = some old) :
    growAndCarve cell head size ⟨m, stats⟩ =
      carve cell head size (freshRoom old (pagesFor size)) ⟨(m.grow (pagesFor size)).2,
        { stats with pagesGrown := stats.pagesGrown + (pagesFor size).toUInt32 }⟩ := by
  rw [growAndCarve_eq, growPages_bind, h, carveFrom, record_bind]

/-- The used block of new room. -/
def usedBlock (head : UInt32) (start n : Nat) : HeapBlock :=
  ⟨start.toUInt32, .new n.toUInt32 head false⟩

/-- The free block of new room, in front of the used one on the list. -/
def restBlock (room : ByteRange) (rest : Nat) : HeapBlock :=
  ⟨rest.toUInt32, .new (room.stop - rest).toUInt32 room.start.toUInt32 true⟩

/-- The blocks that new room becomes. -/
def carved (head size : UInt32) (room : ByteRange) : List HeapBlock :=
  let used := BlockHeader.bytes + size.toNat
  if room.start + used + BlockHeader.bytes + alignment ≤ room.stop then
    [restBlock room (room.start + used), usedBlock head room.start used]
  else [usedBlock head room.start (room.stop - room.start)]

/-- Room for a payload of `n` bytes, within the addresses that blocks have. -/
structure IsRoomFor (room : ByteRange) (n : Nat) : Prop where
  pos : 0 < room.start
  aligned : alignment ∣ room.start
  aligned_stop : alignment ∣ room.stop
  fits : room.start + BlockHeader.bytes + n ≤ room.stop
  stop_le : room.stop ≤ UInt32.size - alignment

theorem toNat_toUInt32 {k : Nat} (h : k ≤ UInt32.size - alignment) : k.toUInt32.toNat = k :=
  Nat.mod_eq_of_lt (Nat.lt_of_le_of_lt h (by decide))

/-- A block at `start` of `n` bytes, both of which addresses can tell. -/
theorem isTidy_of_toNat {b : HeapBlock} {start n : Nat} (haddr : b.addr = start.toUInt32)
    (hsize : b.header.size = n.toUInt32) (hstart : alignment ∣ start) (hn : alignment ∣ n)
    (hle : BlockHeader.bytes ≤ n) (hstop : start + n ≤ UInt32.size - alignment) :
    b.IsTidy ∧ b.range = .ofLength start n ∧ b.header.size.toNat = n := by
  have hstart' : b.addr.toNat = start := by
    rw [haddr, toNat_toUInt32 (Nat.le_trans (Nat.le_add_right ..) hstop)]
  have hn' : b.header.size.toNat = n := by
    rw [hsize, toNat_toUInt32 (Nat.le_trans (Nat.le_add_left ..) hstop)]
  have hstop' : b.stop = start + n := by rw [HeapBlock.stop, hstart', hn']
  refine ⟨⟨hn' ▸ hle, hstart' ▸ hstart, hn' ▸ hn, hstop' ▸ hstop⟩, ?_, hn'⟩
  rw [HeapBlock.range, hstart', hstop', ByteRange.ofLength]

/-- A used block of `n` bytes at the start of a room. -/
theorem usedBlock_spec (head : UInt32) {k n : Nat} (h : IsRoomFor room k) (hn : alignment ∣ n)
    (hle : BlockHeader.bytes ≤ n) (hstop : room.start + n ≤ room.stop) :
    (usedBlock head room.start n).IsTidy ∧
      (usedBlock head room.start n).range = .ofLength room.start n ∧
      (usedBlock head room.start n).header.size.toNat = n :=
  isTidy_of_toNat rfl rfl h.aligned hn hle (Nat.le_trans hstop h.stop_le)

/-- The free block that goes to the end of a room. -/
theorem restBlock_spec {k rest : Nat} (h : IsRoomFor room k) (hrest : alignment ∣ rest)
    (hle : rest + BlockHeader.bytes ≤ room.stop) :
    (restBlock room rest).IsTidy ∧
      (restBlock room rest).range = .ofLength rest (room.stop - rest) ∧
      (restBlock room rest).header.size.toNat = room.stop - rest := by
  have hstop := h.stop_le
  exact isTidy_of_toNat rfl rfl hrest (Nat.dvd_sub h.aligned_stop hrest) (by omega) (by omega)

theorem divides_carved (head : UInt32) {size : UInt32} (h : IsRoomFor room size.toNat)
    (hsize : alignment ∣ size.toNat) :
    Divides room size.toNat (payloadAddr room.start.toUInt32) (carved head size room) := by
  have hfits := h.fits
  have hused : alignment ∣ BlockHeader.bytes + size.toNat := Nat.dvd_add (by decide) hsize
  by_cases hrest : room.start + (BlockHeader.bytes + size.toNat) + BlockHeader.bytes + alignment ≤
      room.stop
  · obtain ⟨htidy, hrange, -⟩ :=
      restBlock_spec h (Nat.dvd_add h.aligned hused) (Nat.le_of_add_right_le hrest)
    obtain ⟨htidy', hrange', hn⟩ := usedBlock_spec head h hused (Nat.le_add_right ..) (by omega)
    simp only [carved, if_pos hrest]
    refine divides_pair htidy htidy' ?_ ?_ ?_ (by simp [usedBlock]) (Nat.le_of_eq hn.symm) <;>
      simp only [hrange, hrange', ByteRange.Within, ByteRange.Apart, ByteRange.start_ofLength,
        ByteRange.stop_ofLength] <;> omega
  · obtain ⟨htidy, hrange, hn⟩ := usedBlock_spec head h
      (Nat.dvd_sub h.aligned_stop h.aligned) (by omega) (by omega)
    simp only [carved, if_neg hrest]
    refine divides_singleton htidy ?_ (by simp [usedBlock]) (by omega)
    simp only [hrange, ByteRange.Within, ByteRange.start_ofLength, ByteRange.stop_ofLength]
    omega

/-- Once the headers stand, the cell is made to point to the first of them. -/
theorem exists_storeHead_of_chain {cell head : UInt32} {addr : Nat} {pieces : List HeapBlock}
    {p : UInt32} (hdivides : Divides room n p pieces) (hchain : m.Chain addr.toUInt32 pieces head)
    (haddr : addr < UInt32.size) (hle : room.stop ≤ m.size) (hroom : room.start ≤ room.stop)
    (hcell : (Memory.cellRange cell).stop ≤ room.start) :
    ∃ m', Memory.store 4 cell 0 addr m = .ok () m' ∧ m.ChangesOnly [Memory.cellRange cell] m' ∧
      m'.heapHead cell = .ok addr.toUInt32 ∧ m'.Chain addr.toUInt32 pieces head := by
  obtain ⟨m', hstore, hchanges, hhead⟩ :=
    Memory.exists_storeHead (m := m) haddr (Nat.le_trans hcell (Nat.le_trans hroom hle))
  refine ⟨m', hstore, hchanges, hhead, hchain.of_sameOn (Nat.le_of_eq hchanges.size.symm) ?_⟩
  intro b hb
  have hwithin := (hdivides.tidy b hb).header_within.trans (hdivides.within b hb)
  exact hchanges.sameOn (List.forall_mem_singleton.2 (.inr (Nat.le_trans hcell hwithin.1)))

/-- **Carving new room** changes nothing but the room and the cell, and puts the new blocks in
front of the list. -/
theorem exists_carve (stats : HeapStats) {cell size : UInt32} (head : UInt32)
    (h : IsRoomFor room size.toNat) (hsize : alignment ∣ size.toNat) (hle : room.stop ≤ m.size)
    (hcell : (Memory.cellRange cell).stop ≤ room.start) :
    ∃ m' head', carve cell head size room ⟨m, stats⟩ =
        .ok (payloadAddr room.start.toUInt32) ⟨m', stats⟩ ∧
      m.ChangesOnly [room, Memory.cellRange cell] m' ∧ m'.heapHead cell = .ok head' ∧
      m'.Chain head' (carved head size room) head := by
  have hdivides := divides_carved head h hsize
  have hstart : room.start ≤ room.stop :=
    Nat.le_of_add_right_le (Nat.le_of_add_right_le h.fits)
  have hlt {k : Nat} (hk : k ≤ room.stop) : k < UInt32.size :=
    Nat.lt_of_le_of_lt (Nat.le_trans hk h.stop_le) (by decide)
  have hne {k : Nat} (hk : k ≤ room.stop) (hpos : 0 < k) : k.toUInt32 ≠ 0 := by
    intro hzero
    have hk' : k.toUInt32.toNat = k := toNat_toUInt32 (Nat.le_trans hk h.stop_le)
    rw [hzero] at hk'
    exact absurd hk' (Nat.ne_of_lt hpos)
  by_cases hrest : room.start + (BlockHeader.bytes + size.toNat) + BlockHeader.bytes + alignment ≤
      room.stop
  · simp only [carved, if_pos hrest] at hdivides ⊢
    have hin := hdivides.within
    have htidy := hdivides.tidy
    have hapart := hdivides.apart
    simp only [List.forall_mem_cons, List.pairwise_pair] at hin htidy hapart
    have hrest' := Nat.le_of_add_right_le (Nat.le_of_add_right_le hrest)
    obtain ⟨m₁, m₂, hwrite, hwrite', hchanges, hread, hread'⟩ := exists_writeBlock_writeBlock
      htidy.2.1 htidy.1 (BlockHeader.isSound_new _ _ htidy.2.1.header_le)
      (BlockHeader.isSound_new _ _ htidy.1.header_le) hin.2.1 hin.1 hapart.symm hle
    have hchain : m₂.Chain _ [restBlock room _, usedBlock head room.start _] head :=
      ⟨hne hrest' (Nat.add_pos_left h.pos _), rfl, hread', hne hstart h.pos, rfl, hread, rfl⟩
    obtain ⟨m₃, hstore, hchanges', hhead, hchain'⟩ := exists_storeHead_of_chain hdivides hchain
      (hlt hrest') (hchanges.size.symm ▸ hle) hstart hcell
    refine ⟨m₃, _, ?_, hchanges.trans_pair hchanges', hhead, hchain'⟩
    simp only [carve, if_pos hrest]
    exact (onMemory_bind hwrite).trans ((onMemory_bind hwrite').trans (onMemory_bind hstore))
  · simp only [carved, if_neg hrest] at hdivides ⊢
    have htidy := hdivides.tidy _ List.mem_cons_self
    obtain ⟨m₁, hwrite, hchanges, hread⟩ := exists_writeBlock htidy
      (BlockHeader.isSound_new _ _ htidy.header_le) (hdivides.within _ List.mem_cons_self) hle
    have hchain : m₁.Chain _ [usedBlock head room.start _] head :=
      ⟨hne hstart h.pos, rfl, hread, rfl⟩
    obtain ⟨m₂, hstore, hchanges', hhead, hchain'⟩ := exists_storeHead_of_chain hdivides hchain
      (hlt hstart) (hchanges.size.symm ▸ hle) hstart hcell
    refine ⟨m₂, _, ?_, hchanges.trans_pair hchanges', hhead, hchain'⟩
    simp only [carve, if_neg hrest]
    exact (onMemory_bind hwrite).trans (onMemory_bind hstore)

end Heap

end WasmEngine
