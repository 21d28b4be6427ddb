/-!
# Guest/Layout — how guest data lies in memory

A `GuestType` is a scalar, an array of fixed length, or a struct.  Scalars are aligned to their own
size.  The fields of a struct follow one another, each at the next multiple of its alignment; the
struct is aligned like its most aligned field and fills up to a multiple of that.

`alignUp` is the least multiple from an offset on: `dvd_alignUp`, `le_alignUp`, `alignUp_le`.
-/

namespace WasmEngine

/-- The scalars of guest data. -/
inductive Scalar where
  | u8 | i8 | u16 | i16 | u32 | i32 | u64 | i64 | f32 | f64
  /-- A size in guest memory. -/
  | size
  /-- An address in guest memory. -/
  | ptr
deriving DecidableEq, Repr

/-- The size of a scalar in bytes, which is its alignment too. -/
def Scalar.bytes : Scalar → Nat
  | u8 | i8 => 1
  | u16 | i16 => 2
  | u32 | i32 | f32 | size | ptr => 4
  | u64 | i64 | f64 => 8

mutual

/-- The types of guest data. -/
inductive GuestType where
  | scalar (s : Scalar)
  | array (elem : GuestType) (length : Nat)
  | struct (fields : Fields)

/-- The fields of a struct, in order. -/
inductive Fields where
  | nil
  | cons (name : String) (type : GuestType) (rest : Fields)

end

/-- The least multiple of `align` that is at least `offset`. -/
def alignUp (offset align : Nat) : Nat := (offset + align - 1) / align * align

theorem dvd_alignUp (offset align : Nat) : align ∣ alignUp offset align := Nat.dvd_mul_left ..

theorem le_alignUp (offset : Nat) {align : Nat} (h : 0 < align) :
    offset ≤ alignUp offset align := by
  have h₁ := Nat.div_add_mod (offset + align - 1) align
  have h₂ := Nat.mod_lt (offset + align - 1) h
  rw [alignUp, Nat.mul_comm]
  omega

theorem alignUp_le {offset align k : Nat} (h : offset ≤ k) (hk : align ∣ k) :
    alignUp offset align ≤ k := by
  obtain ⟨c, rfl⟩ := hk
  rcases Nat.eq_zero_or_pos align with rfl | ha
  · simp [alignUp]
  · rw [alignUp, Nat.mul_comm]
    refine Nat.mul_le_mul_left _ (Nat.le_of_lt_succ ?_)
    rw [Nat.div_lt_iff_lt_mul ha, Nat.succ_mul, Nat.mul_comm c]
    omega

mutual

/-- The alignment of a type. -/
def GuestType.align : GuestType → Nat
  | .scalar s => s.bytes
  | .array elem _ => elem.align
  | .struct fields => fields.align

/-- The greatest alignment of a field, or one. -/
def Fields.align : Fields → Nat
  | .nil => 1
  | .cons _ type rest => max type.align rest.align

end

mutual

/-- The size of a type in bytes. -/
def GuestType.size : GuestType → Nat
  | .scalar s => s.bytes
  | .array elem length => elem.size * length
  | .struct fields => alignUp (fields.stop 0) fields.align

/-- The end of the last field if the fields are placed from `offset` on. -/
def Fields.stop (offset : Nat) : Fields → Nat
  | .nil => offset
  | .cons _ type rest => rest.stop (alignUp offset type.align + type.size)

end

namespace Fields

/-- Fields from a list. -/
def ofList : List (String × GuestType) → Fields
  | [] => nil
  | (name, type) :: rest => cons name type (ofList rest)

/-- The offsets of the fields if they are placed from `offset` on. -/
def offsets (offset : Nat) : Fields → List Nat
  | nil => []
  | cons _ type rest =>
    alignUp offset type.align :: rest.offsets (alignUp offset type.align + type.size)

end Fields

end WasmEngine
