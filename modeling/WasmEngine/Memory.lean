import WasmEngine.Error
import WasmEngine.Text.Utf8

/-!
# Memory — linear memory

A `Memory` is a zero-initialised byte array sized in pages of 64 KiB that only grows.  Every access
checks its whole range first, so a failing access changes nothing.  Updates return the memory beside
their outcome: `Memory.Update` keeps what was done before a failure, if anything was.
-/

namespace WasmEngine

/-- Linear memory. -/
structure Memory where
  data : ByteArray
  /-- The current size in pages. -/
  pages : Nat
  /-- The size in pages that growth may not exceed. -/
  maximum : Nat

namespace Memory

/-- The number of bytes of a page. -/
abbrev pageSize : Nat := 65536

/-- The number of pages that 32-bit addresses reach. -/
abbrev maxPages : Nat := 65536

/-- A page of zeros. -/
def zeroPage : ByteArray := ⟨Array.replicate pageSize 0⟩

/-- Adds pages of zeros at the end. -/
def addPages (data : ByteArray) : Nat → ByteArray
  | 0 => data
  | n + 1 => addPages (data ++ zeroPage) n

@[simp] theorem size_zeroPage : zeroPage.size = pageSize := by
  simp [zeroPage, ByteArray.size]

@[simp] theorem size_addPages (data : ByteArray) (n : Nat) :
    (addPages data n).size = data.size + n * pageSize := by
  induction n generalizing data with
  | zero => simp [addPages]
  | succ n ih => rw [addPages, ih, ByteArray.size_append, size_zeroPage, Nat.succ_mul]; omega

/-- A memory of `initial` pages that may grow to `maximum` pages. -/
def new (initial maximum : Nat) : Memory :=
  ⟨addPages .empty initial, initial, min maximum maxPages⟩

/-- The current size in bytes. -/
def size (m : Memory) : Nat := m.data.size

/-- An operation that may change memory and may fail. -/
abbrev Update := EStateM Error Memory

/-- Adds `delta` pages of zeros and yields the former size, or `none` if the maximum forbids it. -/
def grow (m : Memory) (delta : Nat) : Option Nat × Memory :=
  if delta = 0 then (some m.pages, m)
  else if m.maximum - m.pages < delta then (none, m)
  else
    let ⟨data, pages, maximum⟩ := m
    (some pages, ⟨addPages data delta, pages + delta, maximum⟩)

theorem grow_of_none {m : Memory} {delta : Nat} (h : (m.grow delta).1 = none) :
    (m.grow delta).2 = m := by
  unfold grow at h ⊢
  split
  · rfl
  · split
    · rfl
    · simp_all

theorem size_grow_of_some {m : Memory} {delta old : Nat} (h : (m.grow delta).1 = some old) :
    (m.grow delta).2.size = m.size + delta * pageSize := by
  unfold grow at h ⊢
  split
  · simp_all
  · split
    · simp_all
    · simp [size]

/-- The effective address of an access of `width` bytes, if its range lies in memory.  The sum of
address and width is taken in 64-bit words. -/
def effective (m : Memory) (ptr offset : UInt32) (width : UInt64) : Except Error Nat :=
  let addr := ptr.toUInt64 + offset.toUInt64
  if m.size < (addr + width).toNat then .error (.trap .memoryOutOfBounds) else .ok addr.toNat

/-! ## Loads and stores

Numbers are little-endian. -/

/-- The number that the `n` bytes from `pos` on encode; bytes outside the array count as zero. -/
def decodeLE (bytes : ByteArray) (pos : Nat) : Nat → Nat
  | 0 => 0
  | n + 1 => (bytes[pos]?.getD 0).toNat + 256 * decodeLE bytes (pos + 1) n

/-- Replaces the `n` bytes from `pos` on by the encoding of `v`. -/
def encodeLE (bytes : ByteArray) (pos : Nat) (v : Nat) : Nat → ByteArray
  | 0 => bytes
  | n + 1 => encodeLE (if h : pos < bytes.size then bytes.set pos v.toUInt8 h else bytes)
      (pos + 1) (v / 256) n

theorem size_set (bytes : ByteArray) (pos : Nat) (b : UInt8) (h : pos < bytes.size) :
    (bytes.set pos b h).size = bytes.size := Array.size_set h

@[simp] theorem size_encodeLE (bytes : ByteArray) (pos v n : Nat) :
    (encodeLE bytes pos v n).size = bytes.size := by
  induction n generalizing bytes pos v with
  | zero => rfl
  | succ n ih =>
    rw [encodeLE, ih]
    split
    · exact size_set ..
    · rfl

/-- The unsigned number in the `n` bytes at an address. -/
def load (m : Memory) (n : Nat) (ptr offset : UInt32) : Except Error Nat :=
  match m.effective ptr offset n.toUInt64 with
  | .ok addr => .ok (decodeLE m.data addr n)
  | .error e => .error e

/-- Stores the low `n` bytes of a number at an address. -/
def store (n : Nat) (ptr offset : UInt32) (v : Nat) : Update Unit := fun m =>
  match m.effective ptr offset n.toUInt64 with
  | .ok addr =>
    let ⟨data, pages, maximum⟩ := m
    .ok () ⟨encodeLE data addr v n, pages, maximum⟩
  | .error e => .error e m

/-- The byte at an address. -/
def load8 (m : Memory) (ptr offset : UInt32) : Except Error UInt8 :=
  (m.load 1 ptr offset).map Nat.toUInt8

/-- The 16-bit word at an address. -/
def load16 (m : Memory) (ptr offset : UInt32) : Except Error UInt16 :=
  (m.load 2 ptr offset).map Nat.toUInt16

/-- The 32-bit word at an address. -/
def load32 (m : Memory) (ptr offset : UInt32) : Except Error UInt32 :=
  (m.load 4 ptr offset).map Nat.toUInt32

/-- The 64-bit word at an address. -/
def load64 (m : Memory) (ptr offset : UInt32) : Except Error UInt64 :=
  (m.load 8 ptr offset).map Nat.toUInt64

/-! ## Ranges of bytes -/

/-- The `width` bytes at an address.  A width that takes the address past the end of the 64-bit
words passes the bounds check and leaves an invalid range. -/
def read (m : Memory) (ptr : UInt32) (width : UInt64) : Except Error ByteArray :=
  match m.effective ptr 0 width with
  | .ok start =>
    if start + width.toNat ≤ m.size then .ok (m.data.extract start (start + width.toNat))
    else .error (.fault .invalidRange)
  | .error e => .error e

/-- Replaces the bytes at an address. -/
def write (ptr : UInt32) (bytes : ByteArray) : Update Unit := fun m =>
  match m.effective ptr 0 bytes.size.toUInt64 with
  | .ok start =>
    let ⟨data, pages, maximum⟩ := m
    .ok () ⟨bytes.copySlice 0 data start bytes.size, pages, maximum⟩
  | .error e => .error e m

/-- Sets `n` bytes from `pos` on. -/
def fillFrom (bytes : ByteArray) (pos : Nat) (value : UInt8) : Nat → ByteArray
  | 0 => bytes
  | n + 1 =>
    fillFrom (if h : pos < bytes.size then bytes.set pos value h else bytes) (pos + 1) value n

@[simp] theorem size_fillFrom (bytes : ByteArray) (pos : Nat) (value : UInt8) (n : Nat) :
    (fillFrom bytes pos value n).size = bytes.size := by
  induction n generalizing bytes pos with
  | zero => rfl
  | succ n ih =>
    rw [fillFrom, ih]
    split
    · exact size_set ..
    · rfl

/-- Sets every byte of a range. -/
def fill (ptr : UInt32) (value : UInt8) (len : UInt32) : Update Unit := fun m =>
  match m.effective ptr 0 len.toUInt64 with
  | .ok start =>
    let ⟨data, pages, maximum⟩ := m
    .ok () ⟨fillFrom data start value len.toNat, pages, maximum⟩
  | .error e => .error e m

/-- Copies a range of bytes; the two ranges may overlap. -/
def copy (dst src len : UInt32) : Update Unit := fun m =>
  match m.effective src 0 len.toUInt64 with
  | .error e => .error e m
  | .ok source =>
    match m.effective dst 0 len.toUInt64 with
    | .error e => .error e m
    | .ok target =>
      let ⟨data, pages, maximum⟩ := m
      let moved := data.extract source (source + len.toNat)
      .ok () ⟨moved.copySlice 0 data target len.toNat, pages, maximum⟩

/-- The text of the bytes at an address up to a zero byte, to `limit` bytes, or to the end of
memory.  Malformed pieces are replaced. -/
def readText (m : Memory) (ptr : UInt32) (limit : Nat) : Except Error String :=
  let start := ptr.toNat
  if m.size < start then .error (.trap .memoryOutOfBounds)
  else
    let bytes := (m.data.extract start (min (start + limit) m.size)).toList
    .ok (Utf8.decodeLossy (bytes.takeWhile (· != 0)))

end Memory

end WasmEngine
