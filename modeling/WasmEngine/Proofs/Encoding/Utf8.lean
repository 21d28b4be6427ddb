import WasmEngine.Text.Utf8

/-!
# Proofs/Encoding/Utf8 — decoding undoes the encoding of text

A character is written in one to four bytes, and `scan` gathers its bits from them
(`scan_utf8EncodeChar`).  So the bytes of a text decode to that text: `decode?_bytes`.
-/

namespace WasmEngine.Utf8

/-- The bytes of a text. -/
def bytes (s : String) : List UInt8 := s.toByteArray.data.toList

theorem bytes_eq (s : String) : bytes s = s.toList.flatMap String.utf8EncodeChar := by
  rw [bytes, ← String.utf8Encode_toList, List.utf8Encode, List.data_toByteArray]

variable {n bits k : Nat} {low high : UInt8} {rest : List UInt8}

/-- A first byte below `0x80` is a character of its own. -/
theorem scan_ascii (h : n < 0x80) :
    scan none (UInt8.ofNat n :: rest) = some (Char.ofNat n) :: scan none rest := by
  rw [scan, lead, UInt8.toNat_ofNat_of_lt' (show _ < 256 by omega), if_pos h]

/-- The last continuation byte completes a character. -/
theorem scan_last (hn : n < 0x40) (hlow : low.toNat ≤ n + 0x80) (hhigh : n + 0x80 ≤ high.toNat) :
    scan (some ⟨bits, 0, low, high⟩) (UInt8.ofNat (n + 0x80) :: rest) =
      some (Char.ofNat (bits * 64 + n)) :: scan none rest := by
  have hb : (UInt8.ofNat (n + 0x80)).toNat = n + 0x80 :=
    UInt8.toNat_ofNat_of_lt' (show n + 0x80 < 256 by omega)
  rw [scan, if_pos (by simp only [UInt8.le_iff_toNat_le, hb]; exact ⟨hlow, hhigh⟩)]
  simp only [hb, Nat.add_sub_cancel]

/-- A continuation byte adds six bits. -/
theorem scan_more (hn : n < 0x40) (hlow : low.toNat ≤ n + 0x80) (hhigh : n + 0x80 ≤ high.toNat) :
    scan (some ⟨bits, k + 1, low, high⟩) (UInt8.ofNat (n + 0x80) :: rest) =
      scan (some ⟨bits * 64 + n, k, 0x80, 0xbf⟩) rest := by
  have hb : (UInt8.ofNat (n + 0x80)).toNat = n + 0x80 :=
    UInt8.toNat_ofNat_of_lt' (show n + 0x80 < 256 by omega)
  rw [scan, if_pos (by simp only [UInt8.le_iff_toNat_le, hb]; exact ⟨hlow, hhigh⟩)]
  simp only [hb, Nat.add_sub_cancel]

theorem scan_lead {b : UInt8} {p : Partial} (h : lead b = .sequence p) :
    scan none (b :: rest) = scan (some p) rest := by
  rw [scan, h]

theorem lead_two (hn : n < 0x20) (h : 2 ≤ n) :
    lead (UInt8.ofNat (n + 0xc0)) = .sequence ⟨n, 0, 0x80, 0xbf⟩ := by
  rw [lead, UInt8.toNat_ofNat_of_lt' (show _ < 256 by omega), if_neg (by omega),
    if_neg (by omega), if_pos (by omega), Nat.add_sub_cancel]

theorem lead_three (hn : n < 0x10) : lead (UInt8.ofNat (n + 0xe0)) =
    .sequence ⟨n, 1, if n = 0 then 0xa0 else 0x80, if n = 0xd then 0x9f else 0xbf⟩ := by
  rw [lead, UInt8.toNat_ofNat_of_lt' (show _ < 256 by omega), if_neg (by omega),
    if_neg (by omega), if_neg (by omega), if_pos (by omega), Nat.add_sub_cancel]
  simp only [Nat.add_eq_right, Nat.reduceEqDiff]

theorem lead_four (hn : n < 5) : lead (UInt8.ofNat (n + 0xf0)) =
    .sequence ⟨n, 2, if n = 0 then 0x90 else 0x80, if n = 4 then 0x8f else 0xbf⟩ := by
  rw [lead, UInt8.toNat_ofNat_of_lt' (show _ < 256 by omega), if_neg (by omega),
    if_neg (by omega), if_neg (by omega), if_neg (by omega), if_pos (by omega), Nat.add_sub_cancel]
  simp only [Nat.add_eq_right, Nat.reduceEqDiff]

/-- **A character is read back** from its bytes. -/
theorem scan_utf8EncodeChar (c : Char) :
    scan none (String.utf8EncodeChar c ++ rest) = some c :: scan none rest := by
  have hc : Char.ofNat c.val.toNat = c := Char.ofNat_toNat c
  have hvalid : c.val.toNat < 0xd800 ∨ 0xdfff < c.val.toNat ∧ c.val.toNat < 0x110000 := c.valid
  rw [String.utf8EncodeChar]
  generalize c.val.toNat = v at hc hvalid
  subst hc
  have hhigh : (0xbf : UInt8).toNat = 0xbf := rfl
  have hlow : (0x80 : UInt8).toNat = 0x80 := rfl
  by_cases h₁ : v ≤ 0x7f
  · rw [if_pos h₁]
    exact scan_ascii (by omega)
  rw [if_neg h₁]
  by_cases h₂ : v ≤ 0x7ff
  · rw [if_pos h₂, List.cons_append, scan_lead (lead_two (by omega) (by omega)), List.cons_append,
      scan_last (by omega) (by omega) (by omega), List.nil_append]
    congr 3
    omega
  rw [if_neg h₂]
  by_cases h₃ : v ≤ 0xffff
  · rw [if_pos h₃, List.cons_append, scan_lead (lead_three (by omega)), List.cons_append,
      scan_more (by omega) (by split <;> simp; omega) (by split <;> (simp; omega)),
      List.cons_append, scan_last (by omega) (by omega) (by omega), List.nil_append]
    congr 3
    omega
  rw [if_neg h₃, List.cons_append, scan_lead (lead_four (by omega)), List.cons_append,
      scan_more (by omega) (by split <;> simp; omega) (by split <;> (simp; omega)),
      List.cons_append, scan_more (by omega) (by omega) (by omega), List.cons_append,
      scan_last (by omega) (by omega) (by omega), List.nil_append]
  congr 3
  omega

theorem scan_flatMap (cs : List Char) :
    scan none (cs.flatMap String.utf8EncodeChar) = cs.map some := by
  induction cs with
  | nil => rfl
  | cons c cs ih => rw [List.flatMap_cons, scan_utf8EncodeChar, ih, List.map_cons]

/-- **The bytes of a text decode to it.** -/
theorem decode?_bytes (s : String) : decode? (bytes s) = some s := by
  have hmap (cs : List Char) : (cs.map some).mapM id = some cs := by
    induction cs with
    | nil => rfl
    | cons c cs ih => simp [ih]
  rw [decode?, bytes_eq, scan_flatMap, hmap, Option.map_some, String.ofList_toList]

end WasmEngine.Utf8
