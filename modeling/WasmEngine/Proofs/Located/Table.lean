import WasmEngine.Proofs.Located.Code

/-!
# Proofs/Located/Table — the side table as a map

A side table is a list in ascending order of offsets, so that an entry is found exactly if it is
there: `SideTable.find?_eq_some_iff`.  Entries that are added for different offsets are all found
afterwards, and the others are found as before.
-/

namespace WasmEngine.SideTable

variable {table : SideTable} {entries : List (Nat × BlockJump)} {offset : Nat} {jump : BlockJump}

/-- The offsets of the entries ascend. -/
def IsSorted (table : SideTable) : Prop := table.Pairwise fun a b => a.1 < b.1

theorem IsSorted.nodup (h : table.IsSorted) : (table.map Prod.fst).Nodup := by
  rw [List.Nodup, List.pairwise_map]
  exact h.imp Nat.ne_of_lt

/-- Whoever is in a table after an insertion was inserted, or was there before. -/
theorem mem_insert {e : Nat × BlockJump} (h : e ∈ table.insert offset jump) :
    e = (offset, jump) ∨ e ∈ table := by
  induction table with
  | nil => exact .inl (List.mem_singleton.1 h)
  | cons a t ih =>
    rw [insert] at h
    split at h
    · obtain rfl | h := List.mem_cons.1 h
      · exact .inr List.mem_cons_self
      · exact (ih h).imp_right (List.mem_cons_of_mem _)
    · split at h
      · exact (List.mem_cons.1 h).imp_right (List.mem_cons_of_mem _)
      · exact List.mem_cons.1 h

/-- An insertion keeps the order. -/
theorem IsSorted.insert (h : table.IsSorted) : (table.insert offset jump).IsSorted := by
  induction table with
  | nil => exact List.pairwise_singleton ..
  | cons a t ih =>
    obtain ⟨ha, ht⟩ := List.pairwise_cons.1 h
    rw [SideTable.insert]
    split
    · next hlt =>
      refine List.pairwise_cons.2 ⟨fun e he => ?_, ih ht⟩
      obtain rfl | he := mem_insert he
      · exact hlt
      · exact ha e he
    · split
      · next heq => exact List.pairwise_cons.2 ⟨fun e he => heq ▸ ha e he, ht⟩
      · next hlt hne =>
        refine List.pairwise_cons.2 ⟨fun e he => ?_, h⟩
        have hoff : offset < a.1 := by omega
        obtain rfl | he := List.mem_cons.1 he
        · exact hoff
        · exact Nat.lt_trans hoff (ha e he)

theorem isSorted_insertAll (h : table.IsSorted) : (table.insertAll entries).IsSorted := by
  induction entries generalizing table with
  | nil => exact h
  | cons e entries ih => exact ih h.insert

/-- **An entry is found exactly if it is there.** -/
theorem find?_eq_some_iff (h : table.IsSorted) :
    table.find? offset = some jump ↔ (offset, jump) ∈ table := by
  induction table with
  | nil => simp [find?]
  | cons a t ih =>
    obtain ⟨ha, ht⟩ := List.pairwise_cons.1 h
    rw [find?]
    split
    · next heq =>
      subst heq
      constructor
      · intro hj
        rw [← Option.some.inj hj]
        exact List.mem_cons_self
      · intro hmem
        obtain heq | hmem := List.mem_cons.1 hmem
        · rw [← heq]
        · exact absurd (ha _ hmem) (Nat.lt_irrefl _)
    · next hne =>
      rw [ih ht, List.mem_cons]
      exact ⟨.inr, fun hmem => hmem.resolve_left fun heq => hne (heq ▸ rfl)⟩

/-- Entries at other offsets do not hide an entry. -/
theorem find?_insertAll_of_not_mem (h : offset ∉ entries.map Prod.fst) :
    (table.insertAll entries).find? offset = table.find? offset := by
  induction entries generalizing table with
  | nil => rfl
  | cons e entries ih =>
    rw [List.map_cons, List.mem_cons, not_or] at h
    exact (ih h.2).trans (find?_insert_of_ne h.1 ..)

/-- **Entries for different offsets are all found** after they have been added. -/
theorem find?_insertAll_of_mem (h : (entries.map Prod.fst).Nodup) (hmem : (offset, jump) ∈ entries) :
    (table.insertAll entries).find? offset = some jump := by
  induction entries generalizing table with
  | nil => cases hmem
  | cons e entries ih =>
    obtain ⟨hnot, h⟩ := List.nodup_cons.1 h
    obtain rfl | hmem := List.mem_cons.1 hmem
    · exact (find?_insertAll_of_not_mem hnot).trans (find?_insert_self ..)
    · exact ih h hmem

theorem mem_of_find?_insertAll_nil (h : (insertAll [] entries).find? offset = some jump) :
    offset ∈ entries.map Prod.fst := by
  by_contra hnot
  rw [find?_insertAll_of_not_mem hnot] at h
  cases h

end WasmEngine.SideTable
