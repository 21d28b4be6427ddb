import WasmEngine.Guest.Codec
import WasmEngine.Memory
import WasmEngine.Text.Hex

/-!
# Guest/Access — typed pointers and typed access to memory

A guest pointer is an address; its type fixes the size of the steps that `GuestPtr.offset?` takes and
the value that `Memory.readTyped` finds.  Address 0 is the null pointer.
-/

namespace WasmEngine

/-- A pointer to data of type `t`. -/
structure GuestPtr (t : GuestType) where
  addr : UInt32
deriving DecidableEq

namespace GuestPtr

variable {t : GuestType}

/-- The null pointer. -/
def null : GuestPtr t := ⟨0⟩

/-- Whether a pointer is null. -/
def IsNull (p : GuestPtr t) : Prop := p.addr = 0

instance (p : GuestPtr t) : Decidable p.IsNull := inferInstanceAs (Decidable (_ = _))

/-- The same address, for data of another type. -/
def cast (p : GuestPtr t) (u : GuestType) : GuestPtr u := ⟨p.addr⟩

/-- The pointer `count` elements on, unless its address has no 32 bits. -/
def offset? (p : GuestPtr t) (count : UInt32) : Option (GuestPtr t) :=
  let bytes := count.toNat * t.size
  if bytes < UInt32.size ∧ p.addr.toNat + bytes < UInt32.size then
    some ⟨p.addr + bytes.toUInt32⟩
  else none

/-- The text of a pointer. -/
def render (p : GuestPtr t) : String := s!"WasmPtr(0x{hex p.addr.toNat})"

end GuestPtr

namespace Memory

/-- The value that a pointer points to. -/
def readTyped {t : GuestType} (m : Memory) (p : GuestPtr t) : Except Error t.Value :=
  (m.read p.addr t.size.toUInt64).map fun bytes => t.decode bytes.toList

/-- Stores a value, with zeros as padding. -/
def writeTyped {t : GuestType} (p : GuestPtr t) (v : t.Value) : Update Unit :=
  write p.addr ⟨(t.encode v).toArray⟩

/-- The values of `len` consecutive elements.  Elements without bytes need no memory. -/
def readSlice {t : GuestType} (m : Memory) (p : GuestPtr t) (len : UInt32) :
    Except Error (List t.Value) :=
  if t.size = 0 then .ok (List.replicate len.toNat (t.decode []))
  else
    (m.read p.addr (t.size * len.toNat).toUInt64).map fun bytes =>
      (List.range len.toNat).map fun i =>
        t.decode (bytes.extract (i * t.size) ((i + 1) * t.size)).toList

end Memory

end WasmEngine
