import WasmEngine.Guest.Codec
import WasmEngine.Proofs.Syntax.Reading

/-!
# Proofs/Guest/Codec — guest values survive encoding

An encoding fills exactly the size of its type, `GuestType.length_encode`, and the value is read
back from its front, `GuestType.decode_encode_append`.  Encoding in place leaves nothing of what the
buffer held, `GuestType.encodeInto_eq`, and decoding does not look behind the end of its value,
`GuestType.decode_take`.
-/

namespace WasmEngine

mutual

theorem GuestType.align_pos : (t : GuestType) → 0 < t.align
  | .scalar s => by cases s <;> decide
  | .array elem _ => elem.align_pos
  | .struct fields => fields.align_pos

theorem Fields.align_pos : (fields : Fields) → 0 < fields.align
  | .nil => Nat.one_pos
  | .cons _ type _ => Nat.lt_of_lt_of_le type.align_pos (Nat.le_max_left ..)

end

/-- The fields end after the place where they start. -/
theorem Fields.le_stop (fields : Fields) (offset : Nat) : offset ≤ fields.stop offset := by
  cases fields with
  | nil => exact Nat.le_refl _
  | cons _ type rest =>
    have hstart := le_alignUp offset type.align_pos
    have hrest := rest.le_stop (alignUp offset type.align + type.size)
    rw [Fields.stop]
    omega

/-! ## The length of an encoding -/

theorem length_flatMap_of_length_eq {α : Type} {f : α → List UInt8} {n : Nat} (xs : List α)
    (h : ∀ x ∈ xs, (f x).length = n) : (xs.flatMap f).length = xs.length * n := by
  induction xs with
  | nil => simp
  | cons x xs ih =>
    rw [List.flatMap_cons, List.length_append, h x List.mem_cons_self,
      ih fun y hy => h y (List.mem_cons_of_mem x hy), List.length_cons, Nat.succ_mul, Nat.add_comm]

mutual

/-- **An encoding fills the size of its type.** -/
@[simp] theorem GuestType.length_encode : (t : GuestType) → (v : t.Value) →
    (t.encode v).length = t.size
  | .scalar _, _ => length_bytesOfNat ..
  | .array elem length, vs => by
    have hlen := length_flatMap_of_length_eq vs.toList fun v _ => elem.length_encode v
    rw [GuestType.encode, hlen, Vector.length_toList, GuestType.size, Nat.mul_comm]
  | .struct fields, v => by
    have hlen := fields.length_encode 0 v
    have hstop := le_alignUp (fields.stop 0) fields.align_pos
    rw [GuestType.encode, List.length_append, List.length_replicate, GuestType.size]
    omega

theorem Fields.length_encode : (fields : Fields) → (offset : Nat) → (v : fields.Value) →
    (fields.encode offset v).length = fields.stop offset - offset
  | .nil, offset, () => by simp [Fields.encode, Fields.stop]
  | .cons _ type rest, offset, (v, vs) => by
    have hstart := le_alignUp offset type.align_pos
    have hstop := rest.le_stop (alignUp offset type.align + type.size)
    simp only [Fields.encode, Fields.stop, List.length_append, List.length_replicate,
      type.length_encode v, rest.length_encode _ vs]
    omega

end

/-! ## Decoding an encoding -/

/-- In a concatenation of pieces of one length, each piece starts at a multiple of it. -/
theorem exists_drop_flatMap {α : Type} {f : α → List UInt8} {n : Nat} (xs : List α)
    (h : ∀ x ∈ xs, (f x).length = n) (rest : List UInt8) {i : Nat} (hi : i < xs.length) :
    ∃ rest', (xs.flatMap f ++ rest).drop (i * n) = f xs[i] ++ rest' := by
  induction xs generalizing i with
  | nil => simp at hi
  | cons x xs ih =>
    have hx := h x List.mem_cons_self
    cases i with
    | zero => exact ⟨xs.flatMap f ++ rest, by simp⟩
    | succ i =>
      obtain ⟨rest', hrest'⟩ := ih (fun y hy => h y (List.mem_cons_of_mem x hy))
        (Nat.lt_of_succ_lt_succ hi)
      refine ⟨rest', ?_⟩
      rw [List.flatMap_cons, List.append_assoc, Nat.succ_mul, Nat.add_comm, ← List.drop_drop,
        List.drop_left' hx, hrest', List.getElem_cons_succ]

/-- Padding takes what stands before a field up to the start of the field, and the field up to its
end. -/
theorem GuestType.length_padded (type : GuestType) (v : type.Value) {before : List UInt8}
    {offset : Nat} (hlen : before.length = offset) :
    (before ++ List.replicate (alignUp offset type.align - offset) 0).length =
        alignUp offset type.align ∧
      ((before ++ List.replicate (alignUp offset type.align - offset) 0) ++
        type.encode v).length = alignUp offset type.align + type.size := by
  have hstart := le_alignUp offset type.align_pos
  have hpad : (before ++ List.replicate (alignUp offset type.align - offset) 0).length =
      alignUp offset type.align := by
    rw [List.length_append, List.length_replicate, hlen]
    omega
  exact ⟨hpad, by rw [List.length_append, hpad, type.length_encode]⟩

mutual

/-- **A value is read back from the front of its encoding.** -/
theorem GuestType.decode_encode_append : (t : GuestType) → (v : t.Value) → (rest : List UInt8) →
    t.decode (t.encode v ++ rest) = v
  | .scalar s, v, rest => by
    have hpow : 256 ^ s.bytes = 2 ^ (8 * s.bytes) := by rw [Nat.pow_mul]
    rw [GuestType.decode, GuestType.encode, List.take_left' (length_bytesOfNat ..),
      natOfBytes_bytesOfNat, hpow, Nat.mod_eq_of_lt v.isLt, BitVec.ofNat_toNat, BitVec.setWidth_eq]
  | .array elem length, vs, rest => by
    rw [GuestType.decode, GuestType.encode]
    ext i hi
    obtain ⟨rest', hrest'⟩ := exists_drop_flatMap vs.toList (fun v _ => elem.length_encode v)
      rest (i := i) (by simpa using hi)
    rw [Vector.getElem_ofFn, hrest', elem.decode_encode_append]
    simp
  | .struct fields, v, rest => by
    rw [GuestType.decode, GuestType.encode, List.append_assoc]
    exact fields.decode_encode_append 0 v [] _ rfl

theorem Fields.decode_encode_append : (fields : Fields) → (offset : Nat) → (v : fields.Value) →
    (before rest : List UInt8) → before.length = offset →
    fields.decode offset (before ++ (fields.encode offset v ++ rest)) = v
  | .nil, _, (), _, _, _ => rfl
  | .cons _ type fields, offset, (v, vs), before, rest, hlen => by
    obtain ⟨hpad, hlen'⟩ := type.length_padded v hlen
    have hrest := fields.decode_encode_append _ vs _ rest hlen'
    simp only [Fields.encode, Fields.decode, List.append_assoc] at hrest ⊢
    rw [hrest, ← List.append_assoc before, List.drop_left' hpad, type.decode_encode_append]

end

theorem GuestType.decode_encode_value (t : GuestType) (v : t.Value) : t.decode (t.encode v) = v := by
  have h := t.decode_encode_append v []
  rwa [List.append_nil] at h

/-! ## Encoding in place -/

theorem updateSlice_append {start n : Nat} (before : List UInt8) {slice : List UInt8}
    (rest : List UInt8) (f : List UInt8 → List UInt8) (hstart : before.length = start)
    (hn : slice.length = n) :
    updateSlice start n f (before ++ (slice ++ rest)) = before ++ f slice ++ rest := by
  rw [updateSlice, ← List.drop_drop, List.take_left' hstart, List.drop_left' hstart,
    List.take_left' hn, List.drop_left' hn]

theorem writeEach_eq {α : Type} {write : α → List UInt8 → List UInt8} {encode : α → List UInt8}
    {n : Nat} (hwrite : ∀ v slice, slice.length = n → write v slice = encode v)
    (hencode : ∀ v, (encode v).length = n) (vs : List α) {start : Nat} (before : List UInt8)
    {slices : List UInt8} (hstart : before.length = start) (hlen : slices.length = vs.length * n) :
    writeEach write n start vs (before ++ slices) = before ++ vs.flatMap encode := by
  induction vs generalizing start before slices with
  | nil =>
    rw [List.length_nil, Nat.zero_mul, List.length_eq_zero_iff] at hlen
    rw [writeEach, hlen, List.flatMap_nil]
  | cons v vs ih =>
    rw [List.length_cons, Nat.succ_mul] at hlen
    have hslice : (slices.take n).length = n := by
      rw [List.length_take]
      omega
    have hrest : (slices.drop n).length = vs.length * n := by
      rw [List.length_drop]
      omega
    have hfront : (before ++ encode v).length = start + n := by
      rw [List.length_append, hstart, hencode]
    have hupdate := updateSlice_append before (slices.drop n) (write v) hstart hslice
    rw [List.take_append_drop, hwrite v _ hslice] at hupdate
    rw [writeEach, hupdate, ih _ hfront hrest, List.flatMap_cons, List.append_assoc]

mutual

/-- **Encoding in place** does not depend on what the buffer holds. -/
theorem GuestType.encodeInto_eq : (t : GuestType) → (v : t.Value) → {buffer : List UInt8} →
    buffer.length = t.size → t.encodeInto v buffer = t.encode v
  | .scalar s, v, buffer, hlen => by
    have hupdate := updateSlice_append [] [] (fun _ => bytesOfNat v.toNat s.bytes) rfl hlen
    rw [List.append_nil, List.append_nil, List.nil_append, List.nil_append] at hupdate
    exact hupdate
  | .array elem length, vs, buffer, hlen => by
    have hsize : buffer.length = vs.toList.length * elem.size := by
      rw [hlen, GuestType.size, Vector.length_toList, Nat.mul_comm]
    exact writeEach_eq (fun v _ hslice => elem.encodeInto_eq v hslice) elem.length_encode
      vs.toList [] rfl hsize
  | .struct fields, v, buffer, hlen => by
    have hstop : fields.stop 0 ≤ 0 + buffer.length := by
      rw [Nat.zero_add, hlen]
      exact le_alignUp (fields.stop 0) fields.align_pos
    have hfields := fields.encodeInto_eq 0 v List.length_nil hstop
    rw [List.nil_append, List.nil_append, Nat.zero_add, hlen] at hfields
    rw [GuestType.encodeInto, GuestType.encode, fields.length_encode 0 v, hlen]
    exact hfields

theorem Fields.encodeInto_eq : (fields : Fields) → (offset : Nat) → (v : fields.Value) →
    {before : List UInt8} → {n : Nat} → before.length = offset → fields.stop offset ≤ offset + n →
    fields.encodeInto offset v (before ++ List.replicate n 0) =
      before ++ fields.encode offset v ++ List.replicate (offset + n - fields.stop offset) 0
  | .nil, offset, (), before, n, _, _ => by
    rw [Fields.encodeInto, Fields.encode, Fields.stop, List.append_nil, Nat.add_sub_cancel_left]
  | .cons _ type rest, offset, (v, vs), before, n, hlen, hle => by
    have hstart := le_alignUp offset type.align_pos
    have hstop := rest.le_stop (alignUp offset type.align + type.size)
    rw [Fields.stop] at hle
    -- The zeros behind `before` are the padding, the place of the field, and the rest.
    obtain ⟨pad, hpad⟩ := Nat.exists_eq_add_of_le hstart
    obtain ⟨k, rfl⟩ : ∃ k, n = pad + (type.size + k) := ⟨n - pad - type.size, by omega⟩
    have hbefore : (before ++ List.replicate pad (0 : UInt8)).length =
        alignUp offset type.align := by
      rw [List.length_append, List.length_replicate, hlen, hpad]
    have hbefore' : (before ++ List.replicate pad 0 ++ type.encode v).length =
        alignUp offset type.align + type.size := by
      rw [List.length_append, hbefore, type.length_encode]
    have hslice : (List.replicate type.size (0 : UInt8)).length = type.size :=
      List.length_replicate
    have hupdate := updateSlice_append _ (List.replicate k 0) (type.encodeInto v) hbefore hslice
    rw [type.encodeInto_eq v hslice, List.append_assoc before, List.replicate_append_replicate,
      List.replicate_append_replicate] at hupdate
    have hrest := rest.encodeInto_eq _ vs hbefore' (n := k) (by omega)
    have hpad' : alignUp offset type.align - offset = pad := by omega
    have hend : alignUp offset type.align + type.size + k = offset + (pad + (type.size + k)) := by
      omega
    rw [Fields.encodeInto, hupdate, hrest, Fields.encode, Fields.stop, hpad', hend]
    simp only [List.append_assoc]

end

/-! ## Decoding looks at the value alone -/

mutual

/-- **Decoding does not look behind the end of the value.** -/
theorem GuestType.decode_take : (t : GuestType) → (bytes : List UInt8) → {n : Nat} → t.size ≤ n →
    t.decode (bytes.take n) = t.decode bytes
  | .scalar s, bytes, n, hn => by
    have hmin : min s.bytes n = s.bytes := Nat.min_eq_left hn
    rw [GuestType.decode, GuestType.decode, List.take_take, hmin]
  | .array elem length, bytes, n, hn => by
    rw [GuestType.decode, GuestType.decode]
    refine congrArg Vector.ofFn (funext fun i => ?_)
    have hi : i * elem.size + elem.size ≤ n := by
      have hle := Nat.mul_le_mul_right elem.size i.isLt
      rw [GuestType.size, Nat.mul_comm] at hn
      rw [Nat.succ_mul] at hle
      exact Nat.le_trans hle hn
    rw [List.drop_take]
    exact elem.decode_take _ (by omega)
  | .struct fields, bytes, n, hn => by
    rw [GuestType.decode, GuestType.decode]
    exact fields.decode_take 0 bytes (Nat.le_trans (le_alignUp _ fields.align_pos) hn)

theorem Fields.decode_take : (fields : Fields) → (offset : Nat) → (bytes : List UInt8) →
    {n : Nat} → fields.stop offset ≤ n →
    fields.decode offset (bytes.take n) = fields.decode offset bytes
  | .nil, _, _, _, _ => rfl
  | .cons _ type rest, offset, bytes, n, hn => by
    have hstop := rest.le_stop (alignUp offset type.align + type.size)
    rw [Fields.stop] at hn
    rw [Fields.decode, Fields.decode, rest.decode_take _ bytes hn, List.drop_take,
      type.decode_take _ (by omega)]

end

end WasmEngine
