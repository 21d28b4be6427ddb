import WasmEngine.Proofs.Leb128.Format

/-!
# Proofs/Bytes — byte arrays as lists

What a window spells is a segment of its bytes: `Window.spells_iff_extract`.
-/

namespace WasmEngine

theorem toList_loop_eq_append (bytes : ByteArray) (i : Nat) (acc : List UInt8) :
    ByteArray.toList.loop bytes i acc = acc.reverse ++ bytes.data.toList.drop i := by
  fun_induction ByteArray.toList.loop bytes i acc with
  | case1 i acc h ih =>
    have hi : i < bytes.data.toList.length := h
    have hget : bytes.get! i = bytes.data.toList[i] := getElem!_pos bytes.data i h
    rw [ih, List.drop_eq_getElem_cons hi, hget, List.reverse_cons, List.append_assoc]
    rfl
  | case2 i acc h =>
    have hi : bytes.data.toList.length ≤ i := Nat.le_of_not_lt h
    rw [List.drop_eq_nil_of_le hi, List.append_nil]

/-- The bytes of an array, one by one. -/
theorem toList_eq_data (bytes : ByteArray) : bytes.toList = bytes.data.toList :=
  toList_loop_eq_append bytes 0 []

theorem toList_extract_eq (bytes : ByteArray) (start stop : Nat) :
    (bytes.extract start stop).toList = (bytes.data.toList.drop start).take (stop - start) := by
  rw [toList_eq_data, ByteArray.data_extract, Array.toList_extract, List.extract_eq_take_drop]

theorem getElem?_eq_head?_drop (bytes : ByteArray) (pos : Nat) :
    bytes[pos]? = (bytes.data.toList.drop pos).head? := by
  rw [List.head?_drop, Array.getElem?_toList]
  rfl

/-- **A run of bytes is what lies between its ends.** -/
theorem Window.spells_iff_extract {w : Window} {pos stop : Nat} {bs : List UInt8}
    (hw : w.stop ≤ w.bytes.size) (hpos : pos ≤ w.stop) :
    w.Spells pos bs stop ↔
      pos ≤ stop ∧ stop ≤ w.stop ∧ (w.bytes.extract pos stop).toList = bs := by
  rw [toList_extract_eq]
  induction bs generalizing pos with
  | nil =>
    have hlen : w.bytes.data.toList.length = w.bytes.size := rfl
    simp only [spells_nil, List.take_eq_nil_iff, List.drop_eq_nil_iff]
    omega
  | cons b bs ih =>
    rw [spells_cons, get?_eq_some_iff, getElem?_eq_head?_drop]
    constructor
    · rintro ⟨⟨hlt, hb⟩, hs⟩
      obtain ⟨h₁, h₂, h₃⟩ := (ih (Nat.succ_le_of_lt hlt)).1 hs
      have hn : stop - pos = (stop - (pos + 1)) + 1 := by omega
      refine ⟨by omega, h₂, ?_⟩
      rw [hn, ← h₃, Nat.succ_eq_add_one, ← List.drop_drop, List.drop_one]
      cases hd : w.bytes.data.toList.drop pos with
      | nil => simp [hd] at hb
      | cons c cs => simpa [hd] using hb
    · rintro ⟨h₁, h₂, h₃⟩
      cases hd : w.bytes.data.toList.drop pos with
      | nil => simp [hd] at h₃
      | cons c cs =>
        have hlt : pos < stop := by
          refine Nat.lt_of_le_of_ne h₁ ?_
          rintro rfl
          simp at h₃
        have hn : stop - pos = (stop - (pos + 1)) + 1 := by omega
        rw [hd, hn, List.take_succ_cons, List.cons.injEq] at h₃
        refine ⟨⟨by omega, by rw [h₃.1]; rfl⟩, (ih (by omega)).2 ⟨hlt, h₂, ?_⟩⟩
        rw [← List.drop_drop, List.drop_one, hd]
        exact h₃.2

end WasmEngine
