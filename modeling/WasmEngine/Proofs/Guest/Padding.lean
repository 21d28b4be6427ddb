import WasmEngine.Proofs.Guest.Layout

/-!
# Proofs/Guest/Padding — encoding normalises padding

A byte of a value is padding if no scalar covers it (`GuestType.IsPadding`).  Decoding and encoding
again keeps every other byte and makes padding zero, `GuestType.getElem?_encode_decode`; with
`GuestType.decode_encode_value` and `GuestType.encodeInto_eq` that is all there is to say of a codec:
`GuestType.codec_normalises`.
-/

namespace WasmEngine

variable {leaves leaves' : List Leaf} {i : Nat}

/-- Whether a byte belongs to one of the scalars. -/
def IsCovered (leaves : List Leaf) (i : Nat) : Prop :=
  ∃ leaf ∈ leaves, leaf.addr ≤ i ∧ i < leaf.stop

instance : Decidable (IsCovered leaves i) :=
  inferInstanceAs (Decidable (∃ leaf ∈ leaves, leaf.addr ≤ i ∧ i < leaf.stop))

/-- A byte of a value that belongs to no scalar. -/
def GuestType.IsPadding (t : GuestType) (i : Nat) : Prop := i < t.size ∧ ¬IsCovered (t.leaves 0) i

instance (t : GuestType) : Decidable (t.IsPadding i) := inferInstanceAs (Decidable (_ ∧ _))

theorem isCovered_append :
    IsCovered (leaves ++ leaves') i ↔ IsCovered leaves i ∨ IsCovered leaves' i := by
  simp only [IsCovered, List.mem_append, or_and_right, exists_or]

theorem GuestType.IsCovered.within {t : GuestType} {addr : Nat} (h : IsCovered (t.leaves addr) i) :
    addr ≤ i ∧ i < addr + t.size := by
  obtain ⟨leaf, hleaf, hlow, hhigh⟩ := h
  obtain ⟨hstart, hstop⟩ := t.leaf_within addr leaf hleaf
  omega

theorem Fields.IsCovered.within {fields : Fields} {addr offset : Nat}
    (h : IsCovered (fields.leaves addr offset) i) :
    addr + offset ≤ i ∧ i < addr + fields.stop offset := by
  obtain ⟨leaf, hleaf, hlow, hhigh⟩ := h
  obtain ⟨hstart, hstop⟩ := fields.leaf_within addr offset leaf hleaf
  omega

/-- The scalars that cover a byte of an array are those of the element that it belongs to. -/
theorem GuestType.isCovered_array {elem : GuestType} {length addr k r : Nat} (hk : k < length)
    (hr : r < elem.size) :
    IsCovered ((GuestType.array elem length).leaves addr) (addr + (k * elem.size + r)) ↔
      IsCovered (elem.leaves (addr + k * elem.size)) (addr + k * elem.size + r) := by
  rw [← Nat.add_assoc]
  constructor
  · rintro ⟨leaf, hleaf, hcovers⟩
    obtain ⟨i, hi, hleaf⟩ := List.mem_flatMap.1 hleaf
    obtain ⟨hlow, hhigh⟩ := GuestType.IsCovered.within ⟨leaf, hleaf, hcovers⟩
    obtain rfl : i = k := by
      rcases Nat.lt_trichotomy i k with hlt | heq | hlt
      · have hle := Nat.mul_le_mul_right elem.size hlt
        rw [Nat.succ_mul] at hle
        omega
      · exact heq
      · have hle := Nat.mul_le_mul_right elem.size hlt
        rw [Nat.succ_mul] at hle
        omega
    exact ⟨leaf, hleaf, hcovers⟩
  · rintro ⟨leaf, hleaf, hcovers⟩
    exact ⟨leaf, List.mem_flatMap.2 ⟨k, List.mem_range.2 hk, hleaf⟩, hcovers⟩

namespace Fields

variable {name : String} {type : GuestType} {rest : Fields} {addr offset : Nat}

/-- The padding before a field is not covered. -/
theorem not_isCovered_cons (h : i < addr + alignUp offset type.align) :
    ¬IsCovered ((cons name type rest).leaves addr offset) i := by
  rw [leaves, isCovered_append]
  rintro (hcovered | hcovered)
  · exact Nat.not_lt.2 (GuestType.IsCovered.within hcovered).1 h
  · exact Nat.not_lt.2 (Fields.IsCovered.within hcovered).1 (by omega)

/-- Up to its end a field is covered by its own scalars alone. -/
theorem isCovered_cons_of_lt (h : i < addr + alignUp offset type.align + type.size) :
    IsCovered ((cons name type rest).leaves addr offset) i ↔
      IsCovered (type.leaves (addr + alignUp offset type.align)) i := by
  rw [leaves, isCovered_append]
  refine or_iff_left fun hcovered => ?_
  exact Nat.not_lt.2 (Fields.IsCovered.within hcovered).1 (by omega)

/-- Behind a field only those behind it cover. -/
theorem isCovered_cons_of_le (h : addr + alignUp offset type.align + type.size ≤ i) :
    IsCovered ((cons name type rest).leaves addr offset) i ↔
      IsCovered (rest.leaves addr (alignUp offset type.align + type.size)) i := by
  rw [leaves, isCovered_append]
  refine or_iff_right fun hcovered => ?_
  exact Nat.not_lt.2 h (GuestType.IsCovered.within hcovered).2

end Fields

/-- In a concatenation of pieces of one length, each byte is one of a piece. -/
theorem getElem?_flatMap {α : Type} {f : α → List UInt8} {n k r : Nat} (xs : List α)
    (h : ∀ x ∈ xs, (f x).length = n) (hr : r < n) :
    (xs.flatMap f)[k * n + r]? = xs[k]?.bind fun x => (f x)[r]? := by
  induction xs generalizing k with
  | nil => rfl
  | cons x xs ih =>
    have hx := h x List.mem_cons_self
    rw [List.flatMap_cons]
    cases k with
    | zero =>
      rw [Nat.zero_mul, Nat.zero_add, List.getElem?_append_left (hx ▸ hr)]
      rfl
    | succ k =>
      have hsplit : (k + 1) * n + r - n = k * n + r := by
        rw [Nat.succ_mul]
        omega
      rw [List.getElem?_append_right (by rw [hx, Nat.succ_mul]; omega), hx, hsplit,
        ih fun y hy => h y (List.mem_cons_of_mem x hy), List.getElem?_cons_succ]

/-- A scalar is all of its bytes. -/
theorem GuestType.encode_decode_scalar (s : Scalar) {bytes : List UInt8}
    (h : s.bytes ≤ bytes.length) :
    (GuestType.scalar s).encode ((GuestType.scalar s).decode bytes) = bytes.take s.bytes := by
  have hlen : (bytes.take s.bytes).length = s.bytes := List.length_take_of_le h
  have hpow : 2 ^ (8 * s.bytes) = 256 ^ s.bytes := by rw [Nat.pow_mul]
  have hlt := natOfBytes_lt (bytes.take s.bytes)
  have hbytes := bytesOfNat_natOfBytes (bytes.take s.bytes)
  rw [hlen] at hlt hbytes
  rw [GuestType.encode, GuestType.decode, BitVec.toNat_ofNat, hpow, Nat.mod_eq_of_lt hlt, hbytes]

mutual

/-- **What decoding and encoding makes of a byte**: it stays if a scalar covers it, and is zero if
not. -/
theorem GuestType.getElem?_encode_decode : (t : GuestType) → (addr : Nat) → {bytes : List UInt8} →
    t.size ≤ bytes.length → {i : Nat} → i < t.size → (t.encode (t.decode bytes))[i]? =
      if IsCovered (t.leaves addr) (addr + i) then bytes[i]? else some 0
  | .scalar s, addr, bytes, hlen, i, hi => by
    have hcovered : IsCovered ((GuestType.scalar s).leaves addr) (addr + i) :=
      ⟨⟨s, addr⟩, List.mem_cons_self, Nat.le_add_right .., Nat.add_lt_add_left hi addr⟩
    rw [if_pos hcovered, GuestType.encode_decode_scalar s hlen]
    exact List.getElem?_take_of_lt hi
  | .array elem length, addr, bytes, hlen, i, hi => by
    have hpos : 0 < elem.size := by
      rcases Nat.eq_zero_or_pos elem.size with hzero | hpos
      · rw [GuestType.size, hzero, Nat.zero_mul] at hi
        exact absurd hi (Nat.not_lt_zero i)
      · exact hpos
    rw [GuestType.size] at hlen hi
    -- The byte is number `r` of element number `k`.
    obtain ⟨k, r, rfl, hr⟩ : ∃ k r, i = k * elem.size + r ∧ r < elem.size :=
      ⟨i / elem.size, i % elem.size, (Nat.div_add_mod' i elem.size).symm, Nat.mod_lt i hpos⟩
    have hk : k < length := Nat.lt_of_mul_lt_mul_left (a := elem.size) (by
      rw [Nat.mul_comm elem.size k]
      omega)
    have hend := Nat.mul_le_mul_right elem.size hk
    rw [Nat.succ_mul, Nat.mul_comm length] at hend
    have hdrop : elem.size ≤ (bytes.drop (k * elem.size)).length := by
      rw [List.length_drop]
      omega
    have helem := elem.getElem?_encode_decode (addr + k * elem.size) hdrop hr
    rw [GuestType.encode, GuestType.decode,
      toList_ofFn (fun i => elem.decode (bytes.drop (i * elem.size))),
      getElem?_flatMap _ (fun v _ => elem.length_encode v) hr, List.getElem?_map,
      List.getElem?_range hk]
    rw [List.getElem?_drop] at helem
    simp only [GuestType.isCovered_array hk hr]
    exact helem
  | .struct fields, addr, bytes, hlen, i, hi => by
    have hstop := le_alignUp (fields.stop 0) fields.align_pos
    rw [GuestType.size] at hlen hi
    rw [GuestType.encode, GuestType.decode]
    by_cases hfields : i < fields.stop 0
    · have hall := fields.getElem?_encode_decode addr 0 (Nat.le_trans hstop hlen) (i := i)
        (by rwa [Nat.zero_add])
      rw [Nat.zero_add, Nat.add_zero] at hall
      rw [List.getElem?_append_left (by rwa [fields.length_encode, Nat.sub_zero])]
      exact hall
    · have huncovered : ¬IsCovered (fields.leaves addr 0) (addr + i) := fun hcovered =>
        hfields (Nat.lt_of_add_lt_add_left (Fields.IsCovered.within hcovered).2)
      have hlen' := fields.length_encode 0 (fields.decode 0 bytes)
      rw [GuestType.leaves, if_neg huncovered, List.getElem?_append_right (by omega),
        List.getElem?_replicate_of_lt (by omega)]

theorem Fields.getElem?_encode_decode : (fields : Fields) → (addr offset : Nat) →
    {bytes : List UInt8} → fields.stop offset ≤ bytes.length → {i : Nat} →
    offset + i < fields.stop offset → (fields.encode offset (fields.decode offset bytes))[i]? =
      if IsCovered (fields.leaves addr offset) (addr + offset + i) then bytes[offset + i]?
      else some 0
  | .nil, _, offset, _, _, i, hi => absurd hi (Nat.not_lt.2 (Nat.le_add_right offset i))
  | .cons _ type rest, addr, offset, bytes, hlen, i, hi => by
    have hstop := rest.le_stop (alignUp offset type.align + type.size)
    obtain ⟨pad, hpad⟩ := Nat.exists_eq_add_of_le (le_alignUp offset type.align_pos)
    rw [Fields.stop] at hlen hi
    have hlen' : (List.replicate pad (0 : UInt8) ++
        type.encode (type.decode (bytes.drop (alignUp offset type.align)))).length =
        pad + type.size := by
      rw [List.length_append, List.length_replicate, type.length_encode]
    have hpad' : alignUp offset type.align - offset = pad := by omega
    simp only [Fields.encode, Fields.decode, hpad']
    by_cases hpadding : i < pad
    · rw [if_neg (Fields.not_isCovered_cons (by omega)), List.getElem?_append_left (by omega),
        List.getElem?_append_left (by rwa [List.length_replicate]),
        List.getElem?_replicate_of_lt hpadding]
    · by_cases htype : i < pad + type.size
      · obtain ⟨r, rfl⟩ := Nat.exists_eq_add_of_le (Nat.le_of_not_lt hpadding)
        have hdrop : type.size ≤ (bytes.drop (alignUp offset type.align)).length := by
          rw [List.length_drop]
          omega
        have hr : r < type.size := Nat.lt_of_add_lt_add_left htype
        have hfield := type.getElem?_encode_decode (addr + alignUp offset type.align) hdrop hr
        have haddr : addr + alignUp offset type.align + r = addr + offset + (pad + r) := by omega
        have hoffset : alignUp offset type.align + r = offset + (pad + r) := by omega
        rw [List.getElem?_drop, haddr, hoffset] at hfield
        simp only [Fields.isCovered_cons_of_lt (show addr + offset + (pad + r) <
          addr + alignUp offset type.align + type.size by omega), ← hfield]
        rw [List.getElem?_append_left (by omega),
          List.getElem?_append_right (by rw [List.length_replicate]; omega), List.length_replicate,
          Nat.add_sub_cancel_left]
      · obtain ⟨r, rfl⟩ := Nat.exists_eq_add_of_le (Nat.le_of_not_lt htype)
        have hrest := rest.getElem?_encode_decode addr (alignUp offset type.align + type.size) hlen
          (i := r) (by omega)
        have haddr : addr + (alignUp offset type.align + type.size) + r =
            addr + offset + (pad + type.size + r) := by omega
        have hoffset : alignUp offset type.align + type.size + r =
            offset + (pad + type.size + r) := by omega
        rw [haddr, hoffset] at hrest
        simp only [Fields.isCovered_cons_of_le (show addr + alignUp offset type.align + type.size ≤
          addr + offset + (pad + type.size + r) by omega), ← hrest]
        rw [List.getElem?_append_right (by omega), hlen', Nat.add_sub_cancel_left]

end

/-- **Decoding and encoding makes padding zero** and changes nothing else. -/
theorem GuestType.getElem?_normalised (t : GuestType) {bytes : List UInt8}
    (h : bytes.length = t.size) (i : Nat) :
    (t.encode (t.decode bytes))[i]? = if t.IsPadding i then some 0 else bytes[i]? := by
  by_cases hi : i < t.size
  · have hbyte := t.getElem?_encode_decode 0 (Nat.le_of_eq h.symm) hi
    rw [Nat.zero_add] at hbyte
    by_cases hcovered : IsCovered (t.leaves 0) i
    · rw [hbyte, if_pos hcovered, if_neg fun hpadding => hpadding.2 hcovered]
    · rw [hbyte, if_neg hcovered, if_pos ⟨hi, hcovered⟩]
  · rw [if_neg fun hpadding => hi hpadding.1, List.getElem?_eq_none (by rw [t.length_encode]; omega),
      List.getElem?_eq_none (by omega)]

end WasmEngine
