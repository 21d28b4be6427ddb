import Mathlib.Order.Bounds.Defs
import WasmEngine.Proofs.Guest.Codec

/-!
# Proofs/Guest/Layout — guest data lies as C lays it out

`Fields.places` lists where the fields of a struct stand: each at the least multiple of its alignment
behind the one before (`IsPacked`), which is where decoding reads the field and where encoding puts
it (`Fields.IsNatural`).  `GuestType.leaves` lists the scalars of a value and their addresses; in a
value that is aligned every one of them is, since alignments are powers of two.  Main statement:
`GuestType.layout_natural`.

Sizes and offsets are plain numbers.  If the size of a struct is a word, then so are all sums that
its layout is computed with, `Fields.sums_lt`.
-/

namespace WasmEngine

/-! ## Alignments -/

theorem Scalar.isPowerOfTwo_bytes (s : Scalar) : s.bytes.isPowerOfTwo := by
  cases s with
  | u8 | i8 => exact ⟨0, rfl⟩
  | u16 | i16 => exact ⟨1, rfl⟩
  | u32 | i32 | f32 | size | ptr => exact ⟨2, rfl⟩
  | u64 | i64 | f64 => exact ⟨3, rfl⟩

/-- A power of two divides every greater one. -/
theorem dvd_of_isPowerOfTwo {a b : Nat} (ha : a.isPowerOfTwo) (hb : b.isPowerOfTwo) (h : a ≤ b) :
    a ∣ b := by
  obtain ⟨k, rfl⟩ := ha
  obtain ⟨l, rfl⟩ := hb
  exact Nat.pow_dvd_pow 2 ((Nat.pow_le_pow_iff_right Nat.one_lt_two).1 h)

mutual

/-- The scalars that a type is built from, those of arrays without elements included. -/
def GuestType.scalars : GuestType → List Scalar
  | .scalar s => [s]
  | .array elem _ => elem.scalars
  | .struct fields => fields.scalars

/-- The scalars that fields are built from. -/
def Fields.scalars : Fields → List Scalar
  | .nil => []
  | .cons _ type rest => type.scalars ++ rest.scalars

end

mutual

theorem GuestType.isPowerOfTwo_align : (t : GuestType) → t.align.isPowerOfTwo
  | .scalar s => s.isPowerOfTwo_bytes
  | .array elem _ => elem.isPowerOfTwo_align
  | .struct fields => fields.isPowerOfTwo_align

theorem Fields.isPowerOfTwo_align : (fields : Fields) → fields.align.isPowerOfTwo
  | .nil => ⟨0, rfl⟩
  | .cons _ type rest => by
    rw [Fields.align]
    rcases Nat.le_total type.align rest.align with h | h
    · exact (Nat.max_eq_right h).symm ▸ rest.isPowerOfTwo_align
    · exact (Nat.max_eq_left h).symm ▸ type.isPowerOfTwo_align

end

mutual

theorem GuestType.bytes_le_align : (t : GuestType) → ∀ s ∈ t.scalars, s.bytes ≤ t.align
  | .scalar _, _, hs => by
    rw [List.mem_singleton.1 hs]
    exact Nat.le_refl _
  | .array elem _, s, hs => elem.bytes_le_align s hs
  | .struct fields, s, hs => fields.bytes_le_align s hs

theorem Fields.bytes_le_align : (fields : Fields) → ∀ s ∈ fields.scalars, s.bytes ≤ fields.align
  | .nil, _, hs => absurd hs List.not_mem_nil
  | .cons _ type rest, s, hs => by
    rcases List.mem_append.1 hs with hs | hs
    · exact Nat.le_trans (type.bytes_le_align s hs) (Nat.le_max_left ..)
    · exact Nat.le_trans (rest.bytes_le_align s hs) (Nat.le_max_right ..)

end

mutual

theorem GuestType.align_eq_one_or_exists : (t : GuestType) →
    t.align = 1 ∨ ∃ s ∈ t.scalars, s.bytes = t.align
  | .scalar s => .inr ⟨s, List.mem_cons_self, rfl⟩
  | .array elem _ => elem.align_eq_one_or_exists
  | .struct fields => fields.align_eq_one_or_exists

theorem Fields.align_eq_one_or_exists : (fields : Fields) →
    fields.align = 1 ∨ ∃ s ∈ fields.scalars, s.bytes = fields.align
  | .nil => .inl rfl
  | .cons _ type rest => by
    rw [Fields.align]
    rcases Nat.le_total type.align rest.align with h | h
    · rw [Nat.max_eq_right h]
      refine rest.align_eq_one_or_exists.imp_right fun ⟨s, hs, heq⟩ => ?_
      exact ⟨s, List.mem_append_right _ hs, heq⟩
    · rw [Nat.max_eq_left h]
      refine type.align_eq_one_or_exists.imp_right fun ⟨s, hs, heq⟩ => ?_
      exact ⟨s, List.mem_append_left _ hs, heq⟩

end

/-- **The alignment of a type is the greatest that occurs in it.** -/
theorem GuestType.isGreatest_align (t : GuestType) (h : t.scalars ≠ []) :
    IsGreatest {n | ∃ s ∈ t.scalars, s.bytes = n} t.align := by
  have hle := t.bytes_le_align
  refine ⟨?_, fun n ⟨s, hs, hn⟩ => hn ▸ hle s hs⟩
  rcases t.align_eq_one_or_exists with hone | hexists
  · obtain ⟨s, hs⟩ := List.exists_mem_of_ne_nil _ h
    have hpos := (GuestType.scalar s).align_pos
    have hs' := hle s hs
    rw [GuestType.align] at hpos
    exact ⟨s, hs, by omega⟩
  · exact hexists

theorem Fields.align_dvd (name : String) (type : GuestType) (rest : Fields) :
    type.align ∣ (Fields.cons name type rest).align ∧
      rest.align ∣ (Fields.cons name type rest).align := by
  have hall := (Fields.cons name type rest).isPowerOfTwo_align
  exact ⟨dvd_of_isPowerOfTwo type.isPowerOfTwo_align hall (Nat.le_max_left ..),
    dvd_of_isPowerOfTwo rest.isPowerOfTwo_align hall (Nat.le_max_right ..)⟩

/-- **A size is a multiple of the alignment**, so that the elements of an array are aligned. -/
theorem GuestType.align_dvd_size : (t : GuestType) → t.align ∣ t.size
  | .scalar _ => Nat.dvd_refl _
  | .array elem length => Nat.dvd_trans elem.align_dvd_size (Nat.dvd_mul_right _ length)
  | .struct fields => dvd_alignUp (fields.stop 0) fields.align

theorem isLeast_alignUp (offset : Nat) {align : Nat} (h : 0 < align) :
    IsLeast {n | align ∣ n ∧ offset ≤ n} (alignUp offset align) :=
  ⟨⟨dvd_alignUp offset align, le_alignUp offset h⟩, fun _ ⟨hdvd, hle⟩ => alignUp_le hle hdvd⟩

/-! ## Where fields stand -/

/-- A type, and the offset at which a value of it stands. -/
structure Place where
  type : GuestType
  start : Nat

/-- The end of the value. -/
def Place.stop (p : Place) : Nat := p.start + p.type.size

/-- The bytes of the value. -/
def Place.slice (p : Place) (bytes : List UInt8) : List UInt8 :=
  (bytes.drop p.start).take p.type.size

/-- The types of the fields. -/
def Fields.types : Fields → List GuestType
  | .nil => []
  | .cons _ type rest => type :: rest.types

/-- Where the fields stand that are placed from `offset` on. -/
def Fields.places (fields : Fields) (offset : Nat) : List Place :=
  List.zipWith Place.mk fields.types (fields.offsets offset)

@[simp] theorem Fields.places_cons (name : String) (type : GuestType) (rest : Fields)
    (offset : Nat) : (Fields.cons name type rest).places offset =
      ⟨type, alignUp offset type.align⟩ ::
        rest.places (alignUp offset type.align + type.size) := rfl

/-- From `offset` on each place starts at the least multiple of its alignment that is not below the
end of the one before. -/
def IsPacked (offset : Nat) : List Place → Prop
  | [] => True
  | p :: ps => IsLeast {n | p.type.align ∣ n ∧ offset ≤ n} p.start ∧ IsPacked p.stop ps

theorem Fields.isPacked_places : (fields : Fields) → (offset : Nat) →
    IsPacked offset (fields.places offset)
  | .nil, _ => trivial
  | .cons _ type rest, offset =>
    ⟨isLeast_alignUp offset type.align_pos, rest.isPacked_places _⟩

theorem Fields.map_type_places : (fields : Fields) → (offset : Nat) →
    (fields.places offset).map Place.type = fields.types
  | .nil, _ => rfl
  | .cons _ type rest, _ => congrArg (type :: ·) (rest.map_type_places _)

/-- The end of the last place, or `offset` if there is none. -/
def lastStop (offset : Nat) (places : List Place) : Nat :=
  (places.getLast?.map Place.stop).getD offset

theorem Fields.stop_eq : (fields : Fields) → (offset : Nat) →
    fields.stop offset = lastStop offset (fields.places offset)
  | .nil, _ => rfl
  | .cons _ type rest, offset => by
    rw [Fields.stop, rest.stop_eq, places_cons, lastStop, lastStop, List.getLast?_cons]
    cases (rest.places (alignUp offset type.align + type.size)).getLast? <;> rfl

variable {offset : Nat} {places : List Place}

theorem IsPacked.le_start (h : IsPacked offset places) : ∀ p ∈ places, offset ≤ p.start := by
  induction places generalizing offset with
  | nil => simp
  | cons p places ih =>
    obtain ⟨hleast, hpacked⟩ := h
    refine List.forall_mem_cons.2 ⟨hleast.1.2, fun q hq => ?_⟩
    have hq' := ih hpacked q hq
    exact Nat.le_trans hleast.1.2 (Nat.le_trans (Nat.le_add_right ..) hq')

/-- **Packed places follow one another.** -/
theorem IsPacked.pairwise (h : IsPacked offset places) :
    places.Pairwise fun p q => p.stop ≤ q.start := by
  induction places generalizing offset with
  | nil => exact .nil
  | cons p places ih => exact .cons h.2.le_start (ih h.2)

theorem Fields.stop_le_stop : (fields : Fields) → (offset : Nat) →
    ∀ p ∈ fields.places offset, p.stop ≤ fields.stop offset
  | .nil, _ => by simp [Fields.places, Fields.types]
  | .cons _ type rest, offset => by
    rw [places_cons, Fields.stop]
    exact List.forall_mem_cons.2 ⟨rest.le_stop _, rest.stop_le_stop _⟩

/-! ## Layouts in words -/

/-- Scalars, and so all types, are aligned to divisors of the number of words. -/
theorem GuestType.align_dvd_word (t : GuestType) : t.align ∣ UInt32.size := by
  rcases t.align_eq_one_or_exists with hone | ⟨s, -, hs⟩
  · exact hone ▸ Nat.one_dvd _
  · rw [← hs]
    cases s <;> decide

/-- If an aligned offset is a word, then so is the sum that it is rounded down from. -/
theorem add_align_lt {offset align n : Nat} (hpos : 0 < align) (hdvd : align ∣ n)
    (h : alignUp offset align < n) : offset + align - 1 < n := by
  have hle := le_alignUp offset hpos
  have hgap := Nat.le_of_dvd (Nat.sub_pos_of_lt h) (Nat.dvd_sub hdvd (dvd_alignUp offset align))
  omega

/-- The sums that place fields from `offset` on: for each field the one that is rounded down to its
start, and its end. -/
def Fields.sums (offset : Nat) : Fields → List Nat
  | .nil => []
  | .cons _ type rest =>
    let stop := alignUp offset type.align + type.size
    (offset + type.align - 1) :: stop :: rest.sums stop

/-- **Fields that end within the words are placed within the words.** -/
theorem Fields.sums_lt : (fields : Fields) → (offset : Nat) →
    fields.stop offset < UInt32.size → ∀ n ∈ fields.sums offset, n < UInt32.size
  | .nil, _, _ => by simp [Fields.sums]
  | .cons _ type rest, offset, h => by
    rw [Fields.stop] at h
    have hstop := Nat.lt_of_le_of_lt (rest.le_stop _) h
    have hstart := Nat.lt_of_le_of_lt (Nat.le_add_right _ type.size) hstop
    exact List.forall_mem_cons.2 ⟨add_align_lt type.align_pos type.align_dvd_word hstart,
      List.forall_mem_cons.2 ⟨hstop, rest.sums_lt _ h⟩⟩

/-! ## What stands there -/

/-- The values of the fields, one by one. -/
def Fields.parts : (fields : Fields) → fields.Value → List (Σ t : GuestType, t.Value)
  | .nil, () => []
  | .cons _ type rest, (v, vs) => ⟨type, v⟩ :: rest.parts vs

/-- **Decoding reads each field at its place**, and nothing else for it. -/
theorem Fields.parts_decode : (fields : Fields) → (offset : Nat) → (bytes : List UInt8) →
    fields.parts (fields.decode offset bytes) = (fields.places offset).map fun p =>
      ⟨p.type, p.type.decode (p.slice bytes)⟩
  | .nil, _, _ => rfl
  | .cons _ type rest, offset, bytes => by
    rw [Fields.decode, Fields.parts, rest.parts_decode, places_cons, List.map_cons, Place.slice,
      type.decode_take _ (Nat.le_refl _)]

/-- **Encoding puts each field at its place.** -/
theorem Fields.slice_encode : (fields : Fields) → (v : fields.Value) → (offset : Nat) →
    (before rest : List UInt8) → before.length = offset →
    ((fields.places offset).map fun p => p.slice (before ++ (fields.encode offset v ++ rest))) =
      (fields.parts v).map fun x => x.1.encode x.2
  | .nil, (), _, _, _, _ => rfl
  | .cons _ type fields, (v, vs), offset, before, rest, hlen => by
    obtain ⟨hpad, hlen'⟩ := type.length_padded v hlen
    have hrest := fields.slice_encode vs _ _ rest hlen'
    simp only [Fields.encode, places_cons, Fields.parts, List.map_cons, List.append_assoc]
      at hrest ⊢
    rw [hrest, ← List.append_assoc before, Place.slice, List.drop_left' hpad,
      List.take_left' (type.length_encode v)]

/-- The fields of a struct are in order, apart, and as close as their alignments allow; that is where
their values are read and written. -/
structure Fields.IsNatural (fields : Fields) : Prop where
  /-- There is one place for each field, in the order of declaration. -/
  types : (fields.places 0).map Place.type = fields.types
  packed : IsPacked 0 (fields.places 0)
  apart : (fields.places 0).Pairwise fun p q => p.stop ≤ q.start
  within : ∀ p ∈ fields.places 0, p.stop ≤ (GuestType.struct fields).size
  /-- The size is the least multiple of the alignment that is not below the end of the last field. -/
  size : IsLeast {n | fields.align ∣ n ∧ lastStop 0 (fields.places 0) ≤ n}
    (GuestType.struct fields).size
  /-- If the size is a word, so are all sums that it is computed with. -/
  words : (GuestType.struct fields).size < UInt32.size →
    ∀ n ∈ (fields.stop 0 + fields.align - 1) :: fields.sums 0, n < UInt32.size
  decode (bytes : List UInt8) : fields.parts ((GuestType.struct fields).decode bytes) =
    (fields.places 0).map fun p => ⟨p.type, p.type.decode (p.slice bytes)⟩
  encode (v : fields.Value) (buffer : List UInt8)
    (h : buffer.length = (GuestType.struct fields).size) :
    ((fields.places 0).map fun p => p.slice ((GuestType.struct fields).encodeInto v buffer)) =
      (fields.parts v).map fun x => x.1.encode x.2

/-- **The fields of every struct stand where C puts them.** -/
theorem Fields.isNatural (fields : Fields) : fields.IsNatural where
  types := fields.map_type_places 0
  packed := fields.isPacked_places 0
  apart := (fields.isPacked_places 0).pairwise
  within p hp := Nat.le_trans (fields.stop_le_stop 0 p hp) (le_alignUp _ fields.align_pos)
  size := fields.stop_eq 0 ▸ isLeast_alignUp (fields.stop 0) fields.align_pos
  words h := by
    have halign : fields.align ∣ UInt32.size := (GuestType.struct fields).align_dvd_word
    have hstop := Nat.lt_of_le_of_lt (le_alignUp (fields.stop 0) fields.align_pos) h
    exact List.forall_mem_cons.2 ⟨add_align_lt fields.align_pos halign h, fields.sums_lt 0 hstop⟩
  decode := fields.parts_decode 0
  encode v buffer h := by
    rw [GuestType.encodeInto_eq _ v h]
    exact fields.slice_encode v 0 [] _ rfl

/-! ## Scalars at their addresses -/

/-- A scalar of a value, and its address. -/
structure Leaf where
  scalar : Scalar
  addr : Nat
deriving DecidableEq

/-- The end of the scalar. -/
def Leaf.stop (leaf : Leaf) : Nat := leaf.addr + leaf.scalar.bytes

mutual

/-- The scalars of a value at `addr`, in order. -/
def GuestType.leaves (addr : Nat) : GuestType → List Leaf
  | .scalar s => [⟨s, addr⟩]
  | .array elem length => (List.range length).flatMap fun i => elem.leaves (addr + i * elem.size)
  | .struct fields => fields.leaves addr 0

/-- The scalars of the fields that are placed from `offset` on in a struct at `addr`. -/
def Fields.leaves (addr offset : Nat) : Fields → List Leaf
  | .nil => []
  | .cons _ type rest =>
    let start := alignUp offset type.align
    type.leaves (addr + start) ++ rest.leaves addr (start + type.size)

end

mutual

/-- **The scalars of an aligned value are aligned.** -/
theorem GuestType.bytes_dvd_addr : (t : GuestType) → {addr : Nat} → t.align ∣ addr →
    ∀ leaf ∈ t.leaves addr, leaf.scalar.bytes ∣ leaf.addr
  | .scalar _, _, h, leaf, hleaf => by
    rw [List.mem_singleton.1 hleaf]
    exact h
  | .array elem length, addr, h, leaf, hleaf => by
    obtain ⟨i, -, hleaf⟩ := List.mem_flatMap.1 hleaf
    exact elem.bytes_dvd_addr
      (Nat.dvd_add h (Nat.dvd_trans elem.align_dvd_size (Nat.dvd_mul_left ..))) leaf hleaf
  | .struct fields, _, h, leaf, hleaf => fields.bytes_dvd_addr 0 h leaf hleaf

theorem Fields.bytes_dvd_addr : (fields : Fields) → {addr : Nat} → (offset : Nat) →
    fields.align ∣ addr → ∀ leaf ∈ fields.leaves addr offset, leaf.scalar.bytes ∣ leaf.addr
  | .nil, _, _, _, _, hleaf => absurd hleaf List.not_mem_nil
  | .cons name type rest, addr, offset, h, leaf, hleaf => by
    obtain ⟨htype, hrest⟩ := Fields.align_dvd name type rest
    rcases List.mem_append.1 hleaf with hleaf | hleaf
    · exact type.bytes_dvd_addr
        (Nat.dvd_add (Nat.dvd_trans htype h) (dvd_alignUp offset type.align)) leaf hleaf
    · exact rest.bytes_dvd_addr _ (Nat.dvd_trans hrest h) leaf hleaf

end

mutual

/-- The scalars of a value lie inside it. -/
theorem GuestType.leaf_within : (t : GuestType) → (addr : Nat) → ∀ leaf ∈ t.leaves addr,
    addr ≤ leaf.addr ∧ leaf.stop ≤ addr + t.size
  | .scalar _, _, leaf, hleaf => by
    rw [List.mem_singleton.1 hleaf]
    exact ⟨Nat.le_refl _, Nat.le_refl _⟩
  | .array elem length, addr, leaf, hleaf => by
    obtain ⟨i, hi, hleaf⟩ := List.mem_flatMap.1 hleaf
    obtain ⟨hstart, hstop⟩ := elem.leaf_within (addr + i * elem.size) leaf hleaf
    have hle := Nat.mul_le_mul_right elem.size (List.mem_range.1 hi)
    rw [Nat.succ_mul] at hle
    rw [GuestType.size, Nat.mul_comm]
    omega
  | .struct fields, addr, leaf, hleaf => by
    have hsize := le_alignUp (fields.stop 0) fields.align_pos
    obtain ⟨hstart, hstop⟩ := fields.leaf_within addr 0 leaf hleaf
    rw [GuestType.size]
    omega

theorem Fields.leaf_within : (fields : Fields) → (addr offset : Nat) →
    ∀ leaf ∈ fields.leaves addr offset,
      addr + offset ≤ leaf.addr ∧ leaf.stop ≤ addr + fields.stop offset
  | .nil, _, _, _, hleaf => absurd hleaf List.not_mem_nil
  | .cons _ type rest, addr, offset, leaf, hleaf => by
    have hstart := le_alignUp offset type.align_pos
    have hstop := rest.le_stop (alignUp offset type.align + type.size)
    rw [Fields.stop]
    rcases List.mem_append.1 hleaf with hleaf | hleaf
    · obtain ⟨hlow, hhigh⟩ := type.leaf_within _ leaf hleaf
      omega
    · obtain ⟨hlow, hhigh⟩ := rest.leaf_within _ _ leaf hleaf
      omega

end

mutual

/-- The scalars that a value consists of, in order. -/
def GuestType.leafValues : (t : GuestType) → t.Value → List (Σ s : Scalar, BitVec (8 * s.bytes))
  | .scalar s, v => [⟨s, v⟩]
  | .array elem _, vs => vs.toList.flatMap elem.leafValues
  | .struct fields, v => fields.leafValues v

/-- The scalars that the values of fields consist of, in order. -/
def Fields.leafValues : (fields : Fields) → fields.Value →
    List (Σ s : Scalar, BitVec (8 * s.bytes))
  | .nil, () => []
  | .cons _ type rest, (v, vs) => type.leafValues v ++ rest.leafValues vs

end

/-- The scalar that bytes hold at an address. -/
def Leaf.read (leaf : Leaf) (bytes : List UInt8) : Σ s : Scalar, BitVec (8 * s.bytes) :=
  ⟨leaf.scalar, BitVec.ofNat _ (natOfBytes ((bytes.drop leaf.addr).take leaf.scalar.bytes))⟩

theorem toList_ofFn {α : Type} (f : Nat → α) (n : Nat) :
    (Vector.ofFn fun i : Fin n => f i).toList = (List.range n).map f := by
  refine List.ext_getElem (by simp) fun i hi hi' => ?_
  simp

mutual

/-- **Decoding reads every scalar at its address.** -/
theorem GuestType.leafValues_decode : (t : GuestType) → (addr : Nat) → (bytes : List UInt8) →
    t.leafValues (t.decode (bytes.drop addr)) = (t.leaves addr).map (·.read bytes)
  | .scalar s, addr, bytes => by
    rw [GuestType.leafValues, GuestType.leaves, List.map_singleton, Leaf.read, GuestType.decode]
  | .array elem length, addr, bytes => by
    have helems := toList_ofFn (fun i => elem.decode ((bytes.drop addr).drop (i * elem.size))) length
    rw [GuestType.leafValues, GuestType.leaves, GuestType.decode, helems, List.flatMap_map,
      List.map_flatMap]
    refine congrArg (List.flatMap · _) (funext fun i => ?_)
    rw [List.drop_drop, elem.leafValues_decode]
  | .struct fields, addr, bytes => fields.leafValues_decode addr 0 bytes

theorem Fields.leafValues_decode : (fields : Fields) → (addr offset : Nat) →
    (bytes : List UInt8) → fields.leafValues (fields.decode offset (bytes.drop addr)) =
      (fields.leaves addr offset).map (·.read bytes)
  | .nil, _, _, _ => rfl
  | .cons _ type rest, addr, offset, bytes => by
    rw [Fields.decode, Fields.leafValues, Fields.leaves, List.map_append, List.drop_drop,
      type.leafValues_decode, rest.leafValues_decode]

end

/-! ## The layout of a type -/

/-- A type lies in memory as C lays it out. -/
structure GuestType.IsNatural (t : GuestType) : Prop where
  isPowerOfTwo : t.align.isPowerOfTwo
  greatest : t.scalars ≠ [] → IsGreatest {n | ∃ s ∈ t.scalars, s.bytes = n} t.align
  dvd_size : t.align ∣ t.size
  fields (fields : Fields) : t = .struct fields → fields.IsNatural
  /-- A value is read off its scalars, each at its own address. -/
  leaves (addr : Nat) (bytes : List UInt8) :
    t.leafValues (t.decode (bytes.drop addr)) = (t.leaves addr).map (·.read bytes)
  /-- In an aligned value every scalar is aligned. -/
  aligned (addr : Nat) : t.align ∣ addr → ∀ leaf ∈ t.leaves addr, leaf.scalar.bytes ∣ leaf.addr

/-- **The layout of guest data is natural.**  Alignments are powers of two, and the greatest that
occur; fields are packed in order at their alignments, and decoding and encoding find them there; a
size is the least multiple of the alignment that holds the fields, and if it is a word it is computed
in words; and whatever stands at an aligned address is aligned down to its scalars. -/
theorem GuestType.layout_natural (t : GuestType) : t.IsNatural where
  isPowerOfTwo := t.isPowerOfTwo_align
  greatest := t.isGreatest_align
  dvd_size := t.align_dvd_size
  fields fields _ := fields.isNatural
  leaves := t.leafValues_decode
  aligned _ h := t.bytes_dvd_addr h

/-- A struct with padding before a field and at its end. -/
example : let fields : Fields := .ofList [("tag", .scalar .u8), ("wide", .scalar .f64),
      ("short", .scalar .i16)]
    fields.offsets 0 = [0, 8, 16] ∧ (GuestType.struct fields).size = 24 := by
  decide

end WasmEngine
