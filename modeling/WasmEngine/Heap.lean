import WasmEngine.Guest.Access

/-!
# Heap — a first-fit allocator inside guest memory

The heap is a list of blocks in the guest's own memory.  Each block is a header of four words, then a
payload; the guest owns a cell that holds the address of the first header.  A request is served by
the first free block that is large enough; if there is none, memory grows at its end and the new
pages become a used block and a free one at the front of the list.

`Heap.alloc` runs on the state `Heap`: the memory and the statistics of one allocator.  What it has
done before a failure stays done.  `Memory.walkHeap` checks every header and sums up the blocks.
-/

namespace WasmEngine

/-- The header of a block. -/
structure BlockHeader where
  /-- The size of the block, header included. -/
  size : UInt32
  /-- The address of the next header; zero ends the list. -/
  next : UInt32
  /-- One if the block is free, zero if it is used. -/
  free : UInt32
  /-- A check word over the other three. -/
  check : UInt32
deriving DecidableEq, Repr

namespace BlockHeader

/-- The layout of a header. -/
def layout : GuestType :=
  .struct <| .ofList
    [("size", .scalar .size), ("next", .scalar .ptr), ("free", .scalar .u32),
      ("check", .scalar .u32)]

/-- The number of bytes of a header. -/
abbrev bytes : Nat := 16

example : layout.size = bytes := by decide

/-- The constant that enters every check word. -/
def seed : UInt32 := 0x57454e4a

/-- The check word that belongs to the other three words. -/
def checkWord (size next free : UInt32) : UInt32 :=
  size ^^^ (next <<< 7 ||| next >>> 25) ^^^ free ^^^ seed

/-- A header with its check word. -/
def new (size next : UInt32) (isFree : Bool) : BlockHeader :=
  let free := if isFree then 1 else 0
  { size, next, free, check := checkWord size next free }

/-- Whether the block is free. -/
def IsFree (h : BlockHeader) : Prop := h.free = 1

instance (h : BlockHeader) : Decidable h.IsFree := inferInstanceAs (Decidable (_ = _))

/-- A header whose words make sense together. -/
def IsSound (h : BlockHeader) : Prop :=
  h.free ≤ 1 ∧ bytes ≤ h.size.toNat ∧ h.check = checkWord h.size h.next h.free

instance (h : BlockHeader) : Decidable h.IsSound := inferInstanceAs (Decidable (_ ∧ _))

/-- The size of the payload. -/
def payload (h : BlockHeader) : UInt32 := h.size - 16

/-- The words of a header as a guest value. -/
def toValue (h : BlockHeader) : layout.Value :=
  (h.size.toBitVec, h.next.toBitVec, h.free.toBitVec, h.check.toBitVec, ())

/-- The header that a guest value holds. -/
def ofValue (v : layout.Value) : BlockHeader :=
  let (size, next, free, check, ()) := v
  ⟨.ofBitVec size, .ofBitVec next, .ofBitVec free, .ofBitVec check⟩

end BlockHeader

/-- What an allocator has done so far.  A request counts once its size and cell have been read.  The
counters wrap around. -/
structure HeapStats where
  allocations : UInt64 := 0
  bytesRequested : UInt64 := 0
  pagesGrown : UInt32 := 0
deriving DecidableEq, Repr, Inhabited

/-- The blocks of a heap and their payloads. -/
structure HeapUsage where
  blocks : Nat := 0
  usedBytes : Nat := 0
  freeBytes : Nat := 0
deriving DecidableEq, Repr

/-- The state that an allocator works on. -/
structure Heap where
  memory : Memory
  stats : HeapStats := {}

namespace Heap

/-- The failures of the allocator's own. -/
def outOfMemory : Error := .hostAbort "out of memory"

/-- A header at `addr` that is not sound. -/
def corruption (addr : UInt32) : Error :=
  .hostAbort s!"heap corruption detected at 0x{hex addr.toNat}"

/-- A list with more blocks than memory has room for headers. -/
def cycle : Error := .hostAbort "heap free list contains a cycle"

/-- The alignment of payloads. -/
abbrev alignment : Nat := 8

/-- The largest request that is served. -/
abbrev maxRequest : UInt32 := 0x7fff0000

/-- The payload that a request of `size` bytes needs. -/
def rounded (size : UInt32) : UInt32 := (size + 7) &&& ~~~7

/-- The number of headers that a walk through `size` bytes may visit. -/
def maxBlocks (size : Nat) : Nat := size / BlockHeader.bytes + 1

/-- The address of the payload behind a header. -/
def payloadAddr (header : UInt32) : UInt32 := header + 16

end Heap

namespace Memory

/-- The first header's address, which the cell holds. -/
def heapHead (m : Memory) (cell : UInt32) : Except Error UInt32 := m.load32 cell 0

/-- The header at an address, if it is sound. -/
def readHeader (m : Memory) (addr : UInt32) : Except Error BlockHeader :=
  match m.readTyped (⟨addr⟩ : GuestPtr BlockHeader.layout) with
  | .error e => .error e
  | .ok v =>
    let h := BlockHeader.ofValue v
    if h.IsSound then .ok h else .error (Heap.corruption addr)

/-- Stores a header at an address. -/
def writeHeader (addr : UInt32) (h : BlockHeader) : Update Unit :=
  writeTyped (⟨addr⟩ : GuestPtr BlockHeader.layout) h.toValue

/-- The first free block of at least `size` bytes on the list from `addr` on, with its address.  At
most `left` headers are read. -/
def findFree (m : Memory) (size : UInt32) :
    (left : Nat) → (addr : UInt32) → Except Error (Option (UInt32 × BlockHeader))
  | left, addr =>
    if addr = 0 then .ok none
    else
      match left with
      | 0 => .error Heap.cycle
      | left + 1 =>
        match m.readHeader addr with
        | .error e => .error e
        | .ok h =>
          if h.IsFree ∧ size ≤ h.payload then .ok (some (addr, h))
          else m.findFree size left h.next

/-- Adds the blocks on the list from `addr` on.  At most `left` headers are read. -/
def walkFrom (m : Memory) : (left : Nat) → (addr : UInt32) → HeapUsage → Except Error HeapUsage
  | left, addr, usage =>
    if addr = 0 then .ok usage
    else
      match left with
      | 0 => .error Heap.cycle
      | left + 1 =>
        match m.readHeader addr with
        | .error e => .error e
        | .ok h =>
          let n := h.payload.toNat
          m.walkFrom left h.next
            (if h.IsFree then
              { usage with blocks := usage.blocks + 1, freeBytes := usage.freeBytes + n }
            else { usage with blocks := usage.blocks + 1, usedBytes := usage.usedBytes + n })

/-- Checks every header of the heap whose first header's address is in the cell. -/
def walkHeap (m : Memory) (cell : UInt32) : Except Error HeapUsage :=
  match m.heapHead cell with
  | .ok head => m.walkFrom (Heap.maxBlocks m.size) head {}
  | .error e => .error e

end Memory

/-- An operation of an allocator. -/
abbrev HeapM := EStateM Error Heap

namespace Heap

/-- Runs an operation on the memory. -/
def onMemory {α : Type} (op : Memory.Update α) : HeapM α := fun heap =>
  let ⟨memory, stats⟩ := heap
  match op memory with
  | .ok a memory => .ok a ⟨memory, stats⟩
  | .error e memory => .error e ⟨memory, stats⟩

/-- Reads from the memory. -/
def ofMemory {α : Type} (f : Memory → Except Error α) : HeapM α := fun heap =>
  match f heap.memory with
  | .ok a => .ok a heap
  | .error e => .error e heap

/-- Updates the statistics. -/
def record (f : HeapStats → HeapStats) : HeapM Unit :=
  modify fun heap => { heap with stats := f heap.stats }

/-- Takes `size` bytes out of a free block.  If a header and a payload would be left over, the front
stays free and the tail is handed out; otherwise the whole block is. -/
def take (addr : UInt32) (h : BlockHeader) (size : UInt32) : HeapM UInt32 := do
  if 24 ≤ h.payload - size then
    let used := size + 16
    let front := h.size - used
    let tail := addr + front
    if UInt32.size ≤ addr.toNat + front.toNat then throw (corruption addr)
    onMemory (Memory.writeHeader addr (.new front tail true))
    onMemory (Memory.writeHeader tail (.new used h.next false))
    return payloadAddr tail
  else
    onMemory (Memory.writeHeader addr (.new h.size h.next false))
    return payloadAddr addr

/-- The number of pages to add for a payload of `size` bytes: a header, a payload and one unit of
alignment, since a heap at the very bottom of memory leaves address 0 free. -/
def pagesFor (size : UInt32) : Nat :=
  (BlockHeader.bytes + alignment + size.toNat + Memory.pageSize - 1) / Memory.pageSize

/-- Grows memory and puts the new pages at the front of the list: a used block, and a free one for
the rest if there is room for its header and a payload. -/
def growAndCarve (cell head size : UInt32) : HeapM UInt32 := do
  let pages := pagesFor size
  let old ← modifyGet fun heap =>
    let ⟨memory, stats⟩ := heap
    let (old, memory) := memory.grow pages
    (old, ⟨memory, stats⟩)
  let some old := old | throw outOfMemory
  record fun s => { s with pagesGrown := s.pagesGrown + pages.toUInt32 }
  let start := max (old * Memory.pageSize) alignment
  let stop := min ((old + pages) * Memory.pageSize) (UInt32.size - alignment)
  let used := BlockHeader.bytes + size.toNat
  if start + used + BlockHeader.bytes + alignment ≤ stop then
    let rest := start + used
    onMemory (Memory.writeHeader start.toUInt32 (.new used.toUInt32 head false))
    onMemory (Memory.writeHeader rest.toUInt32
      (.new (stop - rest).toUInt32 start.toUInt32 true))
    onMemory (Memory.store 4 cell 0 rest)
  else
    onMemory (Memory.writeHeader start.toUInt32 (.new (stop - start).toUInt32 head false))
    onMemory (Memory.store 4 cell 0 start)
  return payloadAddr start.toUInt32

/-- Allocates `size` bytes from the heap whose first header's address is in the cell, and yields the
address of the payload. -/
def alloc (cell size : UInt32) : HeapM UInt32 := do
  if maxRequest < size then throw outOfMemory
  let size := rounded size
  let head ← ofMemory (·.heapHead cell)
  record fun s =>
    { s with allocations := s.allocations + 1, bytesRequested := s.bytesRequested + size.toUInt64 }
  match ← ofMemory fun m => m.findFree size (maxBlocks m.size) head with
  | some (addr, h) => take addr h size
  | none => growAndCarve cell head size

end Heap

end WasmEngine
