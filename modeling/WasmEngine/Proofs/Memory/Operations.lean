import WasmEngine.Host.HeapHook
import WasmEngine.Machine.Access
import WasmEngine.Proofs.Heap.Carving
import WasmEngine.Proofs.Memory.Accesses

/-!
# Proofs/Memory/Operations — what the operations of a memory make of it

A memory is written to in place, and it grows.  `Memory.Becomes` is what any number of such operations
make of it: bytes change, pages are added up to the maximum, and that is all.  The allocator works on
memory by these operations alone: `Heap.becomes_hook`.
-/

namespace WasmEngine

variable {α β : Type}

namespace Memory

variable {m m' m'' : Memory} {delta : Nat}

/-- The memory that an update leaves. -/
def Update.after (op : Update α) (m : Memory) : Memory :=
  match op m with
  | .ok _ m' | .error _ m' => m'

/-! ## Growth -/

/-- A memory after it has grown: the old bytes are in place, and zeros follow. -/
structure GrowsTo (m : Memory) (delta : Nat) (m' : Memory) : Prop where
  pages : m'.pages = m.pages + delta
  maximum : m'.maximum = m.maximum
  size : m'.size = m.size + delta * pageSize
  old : ∀ i < m.size, m'.data[i]? = m.data[i]?
  new : ∀ i, m.size ≤ i → i < m'.size → m'.data[i]? = some 0

/-- A growth that succeeds keeps the bytes and adds zeros. -/
theorem growsTo_grow {old : Nat} (h : (m.grow delta).1 = some old) :
    m.GrowsTo delta (m.grow delta).2 where
  pages := (pages_grow_of_some h).2
  maximum := maximum_grow m delta
  size := size_grow_of_some h
  old i hi := by
    have hrange : (ByteRange.mk 0 m.size).stop ≤ m.size := Nat.le_refl _
    exact sameOn_grow m delta hrange i ⟨Nat.zero_le i, hi⟩
  new i hi hi' := by
    -- Nothing stands behind the old bytes, and what is added reads as zeros.
    have hbyte : (m.grow delta).2.data[i]?.getD 0 = m.data[i]?.getD 0 := by
      unfold grow
      split
      · rfl
      · split
        · rfl
        · exact getD_addPages ..
    rw [getElem?_pos _ i hi'] at hbyte ⊢
    rw [getElem?_neg m.data i (Nat.not_lt.2 hi)] at hbyte
    exact congrArg some hbyte

/-- **Memory grows as far as its maximum allows**, and otherwise stays as it is. -/
theorem grow_eq (hm : m.pages ≤ m.maximum) (delta : Nat) :
    (m.pages + delta ≤ m.maximum →
      ∃ m', m.grow delta = (some m.pages, m') ∧ m.GrowsTo delta m') ∧
    (m.maximum < m.pages + delta → m.grow delta = (none, m)) := by
  refine ⟨fun hle => ?_, fun hlt => ?_⟩
  · have hold : (m.grow delta).1 = some m.pages := grow_of_le (by omega)
    exact ⟨_, Prod.ext hold rfl, growsTo_grow hold⟩
  · have hzero : delta ≠ 0 := by omega
    have hfull : m.maximum - m.pages < delta := by omega
    rw [grow, if_neg hzero, if_pos hfull]

/-! ## Writing in place -/

/-- The operations that write to memory in place. -/
inductive Update.IsWrite : Update Unit → Prop
  | store (n : Nat) (ptr offset : UInt32) (v : Nat) : IsWrite (Memory.store n ptr offset v)
  | write (ptr : UInt32) (bytes : ByteArray) (hsize : bytes.size < 2 ^ 63) :
      IsWrite (Memory.write ptr bytes)
  | fill (ptr : UInt32) (value : UInt8) (len : UInt32) : IsWrite (Memory.fill ptr value len)
  | copy (dst src len : UInt32) : IsWrite (Memory.copy dst src len)

/-- A memory of the same size and maximum. -/
structure SameExtent (m m' : Memory) : Prop where
  size : m'.size = m.size
  pages : m'.pages = m.pages
  maximum : m'.maximum = m.maximum

/-- An operation that sets a range keeps the size. -/
theorem Update.Sets.sameExtent {op : Update Unit} {fits : Prop} {r : ByteRange} {new : Nat → UInt8}
    (h : op.Sets m fits r new) : m.SameExtent (op.after m) := by
  unfold after
  by_cases hfits : fits
  · obtain ⟨m', hop, hsize, hpages, hmaximum, -⟩ := h.done hfits
    rw [hop]
    exact ⟨hsize, hpages, hmaximum⟩
  · rw [h.refused hfits]
    exact ⟨rfl, rfl, rfl⟩

/-- **Writing adds and removes no pages.** -/
theorem Update.IsWrite.sameExtent {op : Update Unit} (h : op.IsWrite) (m : Memory) :
    m.SameExtent (op.after m) := by
  cases h with
  | store n ptr offset v =>
    -- Whatever the number of bytes, the array keeps its size.
    simp only [after, Memory.store]
    cases m.effective ptr offset n.toUInt64 with
    | ok addr => exact ⟨size_encodeLE .., rfl, rfl⟩
    | error e => exact ⟨rfl, rfl, rfl⟩
  | write ptr bytes hsize => exact (write_sets m ptr hsize).sameExtent
  | fill ptr value len => exact (fill_sets m ptr value len).sameExtent
  | copy dst src len => exact (copy_sets m dst src len).sameExtent

/-- A typed write is a write of its bytes. -/
theorem Update.isWrite_writeTyped {t : GuestType} (ht : t.size < 2 ^ 63) (p : GuestPtr t)
    (v : t.Value) : IsWrite (writeTyped p v) := by
  refine .write _ _ ?_
  rw [ByteArray.size, List.size_toArray, t.length_encode]
  exact ht

/-! ## Any number of operations -/

/-- What the operations of a memory make of it, one after another. -/
inductive Becomes (m : Memory) : Memory → Prop
  | refl : Becomes m m
  | write {m' : Memory} {op : Update Unit} (hop : op.IsWrite) (h : Becomes m m') :
      Becomes m (op.after m')
  | grow {m' : Memory} (delta : Nat) (h : Becomes m m') : Becomes m (m'.grow delta).2

/-- Operations may follow each other. -/
theorem Becomes.trans (h : m.Becomes m') (h' : m'.Becomes m'') : m.Becomes m'' := by
  induction h' with
  | refl => exact h
  | write hop _ ih => exact ih.write hop
  | grow delta _ ih => exact ih.grow delta

/-- No operation makes a memory smaller. -/
theorem Becomes.pages_le (h : m.Becomes m') : m.pages ≤ m'.pages := by
  induction h with
  | refl => exact Nat.le_refl _
  | @write m' op hop _ ih => rwa [(hop.sameExtent m').pages]
  | @grow m' delta _ ih =>
    cases hold : (m'.grow delta).1 with
    | none => rwa [grow_of_none hold]
    | some old =>
      rw [(pages_grow_of_some hold).2]
      omega

/-- No operation changes the maximum. -/
theorem Becomes.maximum_eq (h : m.Becomes m') : m'.maximum = m.maximum := by
  induction h with
  | refl => rfl
  | @write m' op hop _ ih => exact (hop.sameExtent m').maximum.trans ih
  | @grow m' delta _ ih => exact (maximum_grow m' delta).trans ih

/-- The size stays that of so many pages. -/
theorem Becomes.isPaged (h : m.Becomes m') (hm : m.IsPaged) : m'.IsPaged := by
  induction h with
  | refl => exact hm
  | @write m' op hop _ ih =>
    obtain ⟨hsize, hpages, hmaximum⟩ := hop.sameExtent m'
    exact ih.of_eq hsize hpages hmaximum
  | grow delta _ ih => exact ih.grow delta

/-- **No operation takes memory beyond its maximum.** -/
theorem Becomes.pages_le_maximum (h : m.Becomes m') (hm : m.pages ≤ m.maximum) :
    m'.pages ≤ m'.maximum := by
  induction h with
  | refl => exact hm
  | @write m' op hop _ ih =>
    obtain ⟨-, hpages, hmaximum⟩ := hop.sameExtent m'
    rwa [hpages, hmaximum]
  | @grow m' delta _ ih =>
    obtain hlt | hle := Nat.lt_or_ge m'.maximum (m'.pages + delta)
    · rwa [(grow_eq ih delta).2 hlt]
    · obtain ⟨m'', hgrow, hgrows⟩ := (grow_eq ih delta).1 hle
      rw [hgrow, hgrows.pages, hgrows.maximum]
      exact hle

/-! ## The allocator -/

end Memory

namespace HeapM

/-- An operation of an allocator that works on memory by the operations of memory alone. -/
structure Works (op : HeapM α) : Prop where
  ok : ∀ {heap a heap'}, op heap = .ok a heap' → heap.memory.Becomes heap'.memory
  error : ∀ {heap e heap'}, op heap = .error e heap' → heap.memory.Becomes heap'.memory

variable {op : HeapM α}

/-- Operations that work by the memory's own may follow each other. -/
theorem works_bind {k : α → HeapM β} (h : Works op) (hk : ∀ a, Works (k a)) : Works (op >>= k) where
  ok := by
    intro heap b heap' hrun
    simp only [bind, EStateM.bind] at hrun
    split at hrun
    · next a heap₁ hop => exact (h.ok hop).trans ((hk a).ok hrun)
    · cases hrun
  error := by
    intro heap e heap' hrun
    simp only [bind, EStateM.bind] at hrun
    split at hrun
    · next a heap₁ hop => exact (h.ok hop).trans ((hk a).error hrun)
    · next hop =>
      cases hrun
      exact h.error hop

theorem works_pure (a : α) : Works (pure a : HeapM α) where
  ok hrun := by cases hrun; exact .refl
  error hrun := by cases hrun

theorem works_throw (e : Error) : Works (throw e : HeapM α) where
  ok hrun := by cases hrun
  error hrun := by cases hrun; exact .refl

theorem works_ofMemory (f : Memory → Except Error α) : Works (Heap.ofMemory f) where
  ok hrun := by
    unfold Heap.ofMemory at hrun
    split at hrun <;> cases hrun
    exact .refl
  error hrun := by
    unfold Heap.ofMemory at hrun
    split at hrun <;> cases hrun
    exact .refl

/-- The statistics are no part of the memory. -/
theorem works_record (f : HeapStats → HeapStats) : Works (Heap.record f) where
  ok hrun := by cases hrun; exact .refl
  error hrun := by cases hrun

/-- A single write is one. -/
theorem works_onMemory {op : Memory.Update Unit} (h : op.IsWrite) : Works (Heap.onMemory op) where
  ok := by
    intro heap a heap' hrun
    have hwrite : heap.memory.Becomes (op.after heap.memory) := .write h .refl
    simp only [Heap.onMemory] at hrun
    split at hrun
    · next hop =>
      cases hrun
      rwa [Memory.Update.after, hop] at hwrite
    · cases hrun
  error := by
    intro heap e heap' hrun
    have hwrite : heap.memory.Becomes (op.after heap.memory) := .write h .refl
    simp only [Heap.onMemory] at hrun
    split at hrun
    · cases hrun
    · next hop =>
      cases hrun
      rwa [Memory.Update.after, hop] at hwrite

theorem works_writeHeader (addr : UInt32) (h : BlockHeader) :
    Works (Heap.onMemory (Memory.writeHeader addr h)) :=
  works_onMemory (Memory.Update.isWrite_writeTyped (by decide) _ _)

/-- So is growth, also when it is refused. -/
theorem works_growPages (pages : Nat) : Works (Heap.growPages pages) where
  ok hrun := by cases hrun; exact .grow pages .refl
  error hrun := by cases hrun

end HeapM

namespace Heap

open HeapM

/-- A block is taken by writing one header or two. -/
theorem works_take (addr : UInt32) (h : BlockHeader) (size : UInt32) : Works (take addr h size) := by
  have hwrite (addr : UInt32) (h : BlockHeader) {op : HeapM UInt32} (hop : Works op) :
      Works (onMemory (Memory.writeHeader addr h) >>= fun _ => op) :=
    works_bind (works_writeHeader addr h) fun _ => hop
  unfold take
  dsimp only
  split
  · split
    · exact works_bind (works_throw _) fun _ => hwrite _ _ (hwrite _ _ (works_pure _))
    · exact hwrite _ _ (hwrite _ _ (works_pure _))
  · exact hwrite _ _ (works_pure _)

/-- New pages get one header or two, and the cell the first address. -/
theorem works_carve (cell head size : UInt32) (room : ByteRange) :
    Works (carve cell head size room) := by
  have hstore (start : Nat) {op : HeapM UInt32} (hop : Works op) :
      Works (onMemory (Memory.store 4 cell 0 start) >>= fun _ => op) :=
    works_bind (works_onMemory (.store 4 cell 0 start)) fun _ => hop
  unfold carve
  dsimp only
  split
  · exact works_bind (works_writeHeader _ _) fun _ => works_bind (works_writeHeader _ _) fun _ =>
      hstore _ (works_pure _)
  · exact works_bind (works_writeHeader _ _) fun _ => hstore _ (works_pure _)

/-- Memory grows before the new pages are divided. -/
theorem works_growAndCarve (cell head size : UInt32) : Works (growAndCarve cell head size) := by
  rw [growAndCarve_eq]
  refine works_bind (works_growPages _) fun old => ?_
  cases old with
  | none => exact works_throw _
  | some old => exact works_bind (works_record _) fun _ => works_carve _ _ _ _

/-- A block that was found is taken; without one, memory grows. -/
theorem works_serve (cell head size : UInt32) (found : Option (UInt32 × BlockHeader)) :
    Works (match found with
      | some (addr, h) => take addr h size
      | none => growAndCarve cell head size) := by
  cases found with
  | some found => exact works_take _ _ _
  | none => exact works_growAndCarve _ _ _

/-- A request works by the operations of the memory, wherever it fails. -/
theorem works_alloc (cell size : UInt32) : Works (alloc cell size) := by
  have hrest : Works (do
      let head ← ofMemory (·.heapHead cell)
      record fun s => { s with
        allocations := s.allocations + 1
        bytesRequested := s.bytesRequested + (rounded size).toUInt64 }
      match ← ofMemory fun m => m.findFree (rounded size) (maxBlocks m.size) head with
      | some (addr, h) => take addr h (rounded size)
      | none => growAndCarve cell head (rounded size)) :=
    works_bind (works_ofMemory _) fun head => works_bind (works_record _) fun _ =>
      works_bind (works_ofMemory _) fun found => works_serve cell head _ found
  unfold alloc
  dsimp only
  split
  · exact works_bind (works_throw _) fun _ => hrest
  · exact hrest

/-- So does the hook, whatever its arguments are. -/
theorem works_request (args : List Value) : Works (request args) := by
  unfold request
  split
  · exact works_bind (works_alloc _ _) fun _ => works_pure _
  · exact works_throw _

end Heap

end WasmEngine
