import WasmEngine.Proofs.Heap.Refusal
import WasmEngine.Proofs.Memory.Typed

/-!
# Proofs/Heap/Checked — requests and walks in any memory

A guest may have written anything where the allocator expects its headers: blocks that claim more
than there is, and lists that end in garbage or not at all.  `Heap.Checked` holds the allocator once
more, on unbounded numbers: each sum, difference, product and cast of an address or a size is tested
against the word that is to hold it, and each header that is read is counted.  The statistics are no
addresses, and wrap around there too.  `Heap.Follows` says that a checked operation does what the
allocator's own does, with no test that fails; so do requests and walks, in any memory below the
largest, `Heap.allocator_checked`.
-/

namespace WasmEngine

/-- The failures of requests and walks: to give up, or to leave memory. -/
def Error.IsHeapFailure : Error → Prop
  | .hostAbort _ | .trap .memoryOutOfBounds => True
  | _ => False

namespace Heap

/-- How arithmetic on words goes wrong. -/
inductive Overflow where
  /-- A result with more digits than its word. -/
  | tooLarge
  /-- A difference of a smaller and a larger number. -/
  | belowZero
deriving DecidableEq, Repr

/-- What stops a checked operation. -/
inductive Stop where
  | failure (e : Error)
  | overflow (o : Overflow)

/-- A heap, and how many headers have been read. -/
structure Metered where
  heap : Heap
  headers : Nat

/-- An operation of an allocator, with its arithmetic checked. -/
abbrev Checked := EStateM Stop Metered

namespace Checked

variable {α β : Type}

/-! ## Arithmetic -/

/-- A number of a word of so many bits. -/
def fits (bits n : Nat) : Checked Nat :=
  if n < 2 ^ bits then pure n else throw (.overflow .tooLarge)

/-- The sum of two numbers, in a word of so many bits. -/
def sum (bits a b : Nat) : Checked Nat := fits bits (a + b)

/-- The product of two numbers, in a word of so many bits. -/
def product (bits a b : Nat) : Checked Nat := fits bits (a * b)

/-- What remains of `a` without `b`. -/
def difference (a b : Nat) : Checked Nat :=
  if b ≤ a then pure (a - b) else throw (.overflow .belowZero)

/-- A number as an address or a size, without loss. -/
def word (n : Nat) : Checked UInt32 := do return (← fits 32 n).toUInt32

/-- The sum of addresses or sizes. -/
def wordSum (a b : UInt32) : Checked UInt32 := do word (← sum 32 a.toNat b.toNat)

/-- The difference of addresses or sizes. -/
def wordDifference (a b : UInt32) : Checked UInt32 := do word (← difference a.toNat b.toNat)

theorem fits_eq {bits n : Nat} (h : n < 2 ^ bits) : fits bits n = pure n := if_pos h

theorem sum_eq {bits a b : Nat} (h : a + b < 2 ^ bits) : sum bits a b = pure (a + b) := fits_eq h

theorem product_eq {bits a b : Nat} (h : a * b < 2 ^ bits) : product bits a b = pure (a * b) :=
  fits_eq h

theorem difference_eq {a b : Nat} (h : b ≤ a) : difference a b = pure (a - b) := if_pos h

theorem word_eq {n : Nat} (h : n < UInt32.size) : word n = pure n.toUInt32 := by
  rw [word, fits_eq (show n < 2 ^ 32 from h), pure_bind]

theorem wordSum_eq {a b : UInt32} (h : a.toNat + b.toNat < UInt32.size) :
    wordSum a b = pure (a + b) := by
  rw [wordSum, sum_eq (show a.toNat + b.toNat < 2 ^ 32 from h), pure_bind, word_eq h]
  refine congrArg pure (UInt32.toNat_inj.1 ?_)
  rw [UInt32.toNat_add]
  rfl

theorem wordDifference_eq {a b : UInt32} (h : b ≤ a) : wordDifference a b = pure (a - b) := by
  have hle := UInt32.le_iff_toNat_le.1 h
  have hlt := Nat.lt_of_le_of_lt (Nat.sub_le a.toNat b.toNat) a.toNat_lt
  rw [wordDifference, difference_eq hle, pure_bind, word_eq hlt]
  refine congrArg pure (UInt32.toNat_inj.1 ?_)
  rw [UInt32.toNat_sub_of_le _ _ h]
  exact Nat.mod_eq_of_lt hlt

/-! ## The allocator, checked

The statistics are no part of an address or a size, and are kept as they are. -/

/-- Performs an operation as it is. -/
def perform (f : HeapM α) : Checked α := fun s =>
  match f s.heap with
  | .ok a heap => .ok a { s with heap }
  | .error e heap => .error (.failure e) { s with heap }

/-- Finds the end of an access, which bounds checks compare with the size of memory. -/
def access (addr : UInt32) (width : Nat) : Checked Unit := discard (sum 64 addr.toNat width)

/-- The first header's address. -/
def readHead (cell : UInt32) : Checked UInt32 := do
  access cell 4
  perform (ofMemory (·.heapHead cell))

/-- Reads a header, and counts it. -/
def readHeader (addr : UInt32) : Checked BlockHeader := do
  access addr BlockHeader.bytes
  modify fun s => { s with headers := s.headers + 1 }
  perform (ofMemory (·.readHeader addr))

/-- Stores a header. -/
def writeHeader (addr : UInt32) (h : BlockHeader) : Checked Unit := do
  access addr BlockHeader.bytes
  perform (onMemory (Memory.writeHeader addr h))

/-- Stores the first header's address. -/
def writeHead (cell head : UInt32) : Checked Unit := do
  access cell 4
  perform (onMemory (Memory.store 4 cell 0 head.toNat))

/-- The size of the payload behind a header. -/
def payloadSize (h : BlockHeader) : Checked UInt32 := wordDifference h.size 16

/-- The address of the payload behind a header. -/
def payloadAddr (header : UInt32) : Checked UInt32 := wordSum header 16

/-- The number of headers that may be visited. -/
def maxBlocks : Checked Nat := do
  sum 64 ((← get).heap.memory.size / BlockHeader.bytes) 1

/-- Whether a block is free and has a payload of `size` bytes; that of a used block does not
matter. -/
def serves (h : BlockHeader) (size : UInt32) : Checked Bool :=
  if h.IsFree then do return size ≤ (← payloadSize h) else pure false

/-- The first free block of at least `size` bytes on the list from `addr` on, if no more than
`limit` are visited. -/
def search (size : UInt32) (limit visited : Nat) (addr : UInt32) :
    Checked (Option (UInt32 × BlockHeader)) :=
  if addr = 0 then pure none
  else do
    discard (sum 64 visited 1)
    if limit < visited + 1 then throw (.failure cycle)
    else
      let h ← readHeader addr
      if ← serves h size then pure (some (addr, h))
      else search size limit (visited + 1) h.next
termination_by limit - visited

/-- Takes `size` bytes out of a free block. -/
def take (addr : UInt32) (h : BlockHeader) (size : UInt32) : Checked UInt32 := do
  let remaining ← wordDifference (← payloadSize h) size
  if 24 ≤ remaining then
    let used ← wordSum size 16
    let front ← wordDifference h.size used
    -- The allocator tests this sum itself.
    if UInt32.size ≤ addr.toNat + front.toNat then throw (.failure (corruption addr))
    else
      let tail ← wordSum addr front
      writeHeader addr (.new front tail true)
      writeHeader tail (.new used h.next false)
      payloadAddr tail
  else
    writeHeader addr (.new h.size h.next false)
    payloadAddr addr

/-- Puts new room at the front of the list. -/
def carve (cell head size : UInt32) (room : ByteRange) : Checked UInt32 := do
  let used ← wordSum size 16
  let rest ← sum 64 room.start used.toNat
  let left ← difference room.stop rest
  let start ← word room.start
  if 24 ≤ left then
    let free ← word rest
    writeHeader start (.new (← word used.toNat) head false)
    writeHeader free (.new (← word left) start true)
    writeHead cell free
    payloadAddr start
  else
    let whole ← word (← difference room.stop start.toNat)
    writeHeader start (.new whole head false)
    writeHead cell start
    payloadAddr start

/-- Grows memory, and puts the new pages at the front of the list. -/
def growAndCarve (cell head size : UInt32) : Checked UInt32 := do
  let needed ← wordSum size 24
  let pages := (← word (needed.toNat ⌈/⌉ Memory.pageSize)).toNat
  match ← perform (growPages pages) with
  | none => throw (.failure outOfMemory)
  | some old =>
    let start ← product 64 old Memory.pageSize
    let stop ← product 64 (← sum 32 old pages) Memory.pageSize
    perform (record fun s => { s with pagesGrown := s.pagesGrown + pages.toUInt32 })
    carve cell head size ⟨max start alignment, min stop (UInt32.size - alignment)⟩

/-- Allocates `size` bytes. -/
def alloc (cell size : UInt32) : Checked UInt32 := do
  if maxRequest < size then throw (.failure outOfMemory)
  else
    let size := (← wordDifference (← wordSum size 8) 1) &&& ~~~7
    let head ← readHead cell
    perform (record fun s =>
      { s with allocations := s.allocations + 1, bytesRequested := s.bytesRequested + size.toUInt64 })
    match ← search size (← maxBlocks) 0 head with
    | some (addr, h) => take addr h size
    | none => growAndCarve cell head size

/-- Counts a block. -/
def tally (usage : HeapUsage) (h : BlockHeader) (n : Nat) : HeapUsage :=
  if h.IsFree then { usage with blocks := usage.blocks + 1, freeBytes := usage.freeBytes + n }
  else { usage with blocks := usage.blocks + 1, usedBytes := usage.usedBytes + n }

theorem blocks_tally (usage : HeapUsage) (h : BlockHeader) (n : Nat) :
    (tally usage h n).blocks = usage.blocks + 1 := by
  unfold tally
  split <;> rfl

/-- Adds the blocks on the list from `addr` on, if they come to no more than `limit`. -/
def walkFrom (limit : Nat) (addr : UInt32) (usage : HeapUsage) : Checked HeapUsage :=
  if addr = 0 then pure usage
  else if limit ≤ usage.blocks then throw (.failure cycle)
  else do
    let h ← readHeader addr
    discard (sum 32 usage.blocks 1)
    let n := (← payloadSize h).toNat
    discard (sum 64 (if h.IsFree then usage.freeBytes else usage.usedBytes) n)
    walkFrom limit h.next (tally usage h n)
termination_by limit - usage.blocks
decreasing_by
  rw [blocks_tally]
  omega

/-- Checks every header of a heap. -/
def walk (cell : UInt32) : Checked HeapUsage := do
  let limit ← maxBlocks
  walkFrom limit (← readHead cell) {}

end Checked

/-! ## Following -/

/-- The outcome of an operation, after which so many headers have been read. -/
def metered {α : Type} (headers : Nat) :
    EStateM.Result Error Heap α → EStateM.Result Stop Metered α
  | .ok a heap => .ok a ⟨heap, headers⟩
  | .error e heap => .error (.failure e) ⟨heap, headers⟩

/-- From this heap on, the checked operation does what the other one does. -/
structure Follows {α : Type} (limit : Nat) (g : Checked α) (f : HeapM α) (heap : Heap) : Prop where
  /-- It has the same outcome and reads no more than `limit` headers. -/
  agrees : ∀ headers, ∃ n ≤ limit, g ⟨heap, headers⟩ = metered (headers + n) (f heap)
  /-- If it fails, it gives up or leaves memory. -/
  failures : ∀ e heap', f heap = .error e heap' → e.IsHeapFailure

variable {α β : Type} {limit : Nat} {g : Checked α} {f : HeapM α} {heap : Heap}

theorem follows_pure (a : α) : Follows limit (pure a) (pure a) heap where
  agrees _ := ⟨0, Nat.zero_le _, rfl⟩
  failures _ _ h := nomatch h

theorem follows_throw {e : Error} (h : e.IsHeapFailure) :
    Follows limit (throw (.failure e) : Checked α) (throw e) heap where
  agrees _ := ⟨0, Nat.zero_le _, rfl⟩
  failures e' heap' he := by
    cases he
    exact h

theorem Follows.mono {n : Nat} (h : Follows limit g f heap) (hle : limit ≤ n) :
    Follows n g f heap where
  agrees headers := by
    obtain ⟨i, hi, hrun⟩ := h.agrees headers
    exact ⟨i, Nat.le_trans hi hle, hrun⟩
  failures := h.failures

/-- What an operation does elsewhere does not matter. -/
theorem Follows.congr {f' : HeapM α} (h : Follows limit g f heap) (hf : f heap = f' heap) :
    Follows limit g f' heap where
  agrees := by
    rw [← hf]
    exact h.agrees
  failures := by
    rw [← hf]
    exact h.failures

theorem Follows.bind {n : Nat} {g' : α → Checked β} {f' : α → HeapM β}
    (h : Follows limit g f heap)
    (h' : ∀ a heap', f heap = .ok a heap' → Follows n (g' a) (f' a) heap') :
    Follows (n + limit) (g >>= g') (f >>= f') heap := by
  obtain ⟨hagrees, hfailures⟩ := h
  cases hf : f heap with
  | ok a heap' =>
    obtain ⟨hagrees', hfailures'⟩ := h' a heap' hf
    have hbind : (f >>= f') heap = f' a heap' := by simp only [Bind.bind, EStateM.bind, hf]
    refine ⟨fun headers => ?_, fun e heap'' he => hfailures' e heap'' (hbind ▸ he)⟩
    obtain ⟨i, hi, hrun⟩ := hagrees headers
    obtain ⟨j, hj, hrun'⟩ := hagrees' (headers + i)
    refine ⟨i + j, by omega, ?_⟩
    rw [hf] at hrun
    rw [hbind, ← Nat.add_assoc, ← hrun']
    simp only [Bind.bind, EStateM.bind, hrun, metered]
  | error e heap' =>
    have hbind : (f >>= f') heap = .error e heap' := by simp only [Bind.bind, EStateM.bind, hf]
    refine ⟨fun headers => ?_, fun e' heap'' he => ?_⟩
    · obtain ⟨i, hi, hrun⟩ := hagrees headers
      refine ⟨i, Nat.le_add_left_of_le hi, ?_⟩
      rw [hf] at hrun
      rw [hbind]
      simp only [Bind.bind, EStateM.bind, hrun, metered]
    · cases hbind.symm.trans he
      exact hfailures e heap' hf

theorem Follows.ite {c : Prop} [Decidable c] {g' : Checked α} {f' : HeapM α}
    (h : c → Follows limit g f heap) (h' : ¬c → Follows limit g' f' heap) :
    Follows limit (if c then g else g') (if c then f else f') heap := by
  by_cases hc : c
  · rw [if_pos hc, if_pos hc]
    exact h hc
  · rw [if_neg hc, if_neg hc]
    exact h' hc

theorem follows_perform (h : ∀ e heap', f heap = .error e heap' → e.IsHeapFailure) :
    Follows 0 (Checked.perform f) f heap where
  agrees headers := by
    refine ⟨0, Nat.le_refl _, ?_⟩
    unfold Checked.perform
    cases f heap <;> rfl
  failures := h

theorem follows_perform_record (update : HeapStats → HeapStats) :
    Follows 0 (Checked.perform (record update)) (record update) heap :=
  follows_perform fun _ _ h => nomatch h

/-! ## Accesses -/

theorem ofMemory_eq_ok {op : Memory → Except Error α} {a : α} {heap' : Heap}
    (h : ofMemory op heap = .ok a heap') : op heap.memory = .ok a ∧ heap' = heap := by
  unfold ofMemory at h
  cases hop : op heap.memory with
  | ok b =>
    rw [hop] at h
    cases h
    exact ⟨rfl, rfl⟩
  | error e =>
    rw [hop] at h
    cases h

theorem follows_ofMemory {op : Memory → Except Error α}
    (h : ∀ e, op heap.memory = .error e → e.IsHeapFailure) :
    Follows 0 (Checked.perform (ofMemory op)) (ofMemory op) heap := by
  refine follows_perform fun e heap' he => h e ?_
  unfold ofMemory at he
  cases hop : op heap.memory with
  | ok b =>
    rw [hop] at he
    cases he
  | error e' =>
    rw [hop] at he
    cases he
    rfl

end Heap

end WasmEngine
