import WasmEngine.Proofs.ConstExpr.Evaluation

/-!
# Proofs/ConstExpr/Agreement — what has been checked is evaluated

The checker keeps a stack of types and runs over readers that refuse malformed bytes; evaluation keeps a
stack of slots and trusts the bytes.  Both go over the one tree that stands there (`check_eq_ok_iff`,
`Term.StandsAt.eval_eq`), so that what the checker accepts has a value for all values of the globals,
of the type that was checked and up to the place where the checker stopped: `eval_of_check`.
-/

namespace WasmEngine

/-- A slot holds one value of each type. -/
theorem Value.eq_of_toSlot_eq {v v' : Value} (htype : v.type = v'.type) (h : v.toSlot = v'.toSlot) :
    v = v' := by
  rw [← v.ofSlot_toSlot, ← v'.ofSlot_toSlot, htype, h]

/-- **A value of 32 bits** leaves the upper half of its slot zero. -/
theorem Value.toNat_toSlot_lt {v : Value} (h : v.type = .i32 ∨ v.type = .f32) :
    v.toSlot.toNat < 2 ^ 32 := by
  cases v with
  | i32 bits | f32 bits => exact (UInt32.toNat_toUInt64 bits).symm ▸ bits.toNat_lt
  | i64 | f64 => rcases h with h | h <;> cases h

namespace ConstExpr

variable {globals : Array Global} {values : List Value} {w : Window} {pos next : Nat} {type : ValType}

/-- Values of the declared types, in slots of their own, one for each global. -/
theorem Holds.of_haveTypes (h : Value.HaveTypes values (globals.toList.map (·.type))) :
    Holds globals values (values.map Value.toSlot).toArray := by
  have hvalue {i : Nat} {g : Global} (hg : globals[i]? = some g) :
      ∃ v, values[i]? = some v ∧ v.type = g.type := by
    have htype : (values.map Value.type)[i]? = some g.type := by
      rw [h, List.getElem?_map, Array.getElem?_toList, hg, Option.map_some]
    rw [List.getElem?_map] at htype
    exact Option.map_eq_some_iff.1 htype
  constructor
  case type_eq =>
    intro i g hg
    obtain ⟨v, hv, htype⟩ := hvalue hg
    rw [valueAt, List.getD_eq_getElem?_getD, hv, Option.getD_some, htype]
  case slot_eq =>
    intro i g hg
    obtain ⟨v, hv, -⟩ := hvalue hg
    rw [List.getElem?_toArray, List.getElem?_map, valueAt, List.getD_eq_getElem?_getD, hv,
      Option.map_some, Option.getD_some]

/-- **Trees that stand at one position** end together and have one value. -/
theorem Term.StandsAt.denote_unique {t t' : Term} {next' : Nat} (hw : w.stop ≤ w.bytes.size)
    (h : t.StandsAt w pos next) (ht : t.HasType globals type) (h' : t'.StandsAt w pos next')
    (ht' : t'.HasType globals type)
    (hvalues : Value.HaveTypes values (globals.toList.map (·.type))) :
    next' = next ∧ t'.denote values = t.denote values := by
  have hglobals := Holds.of_haveTypes hvalues
  have heval := (h'.eval_eq hw ht' hglobals).symm.trans (h.eval_eq hw ht hglobals)
  obtain ⟨hslot, hnext⟩ := Prod.mk.inj (Except.ok.inj heval)
  have htype : (t'.denote values).type = (t.denote values).type :=
    (ht'.type_denote hglobals.type_eq).trans (ht.type_denote hglobals.type_eq).symm
  exact ⟨hnext, Value.eq_of_toSlot_eq htype hslot⟩

/-- **Checking and evaluating agree.**  An expression that the checker accepts is evaluated without a
fault, whatever values of their types the globals have got; evaluation stops where the checker did and
yields a value of the checked type, the upper half of whose slot is zero if it has 32 bits.  It is the
value of the expression: of the well-typed tree that stands there, and of any other such tree. -/
theorem eval_of_check (hw : w.stop ≤ w.bytes.size) {u : Unit}
    (h : check globals type w pos = .ok (u, next))
    (hvalues : Value.HaveTypes values (globals.toList.map (·.type))) :
    ∃ v : Value, v.type = type ∧
      eval w.bytes (values.map Value.toSlot).toArray pos = .ok (v.toSlot, next) ∧
      (type = .i32 ∨ type = .f32 → v.toSlot.toNat < 2 ^ 32) ∧
      (∃ t : Term, t.StandsAt w pos next ∧ t.HasType globals type ∧ t.denote values = v) ∧
      ∀ (t : Term) (stop : Nat), t.StandsAt w pos stop → t.HasType globals type →
        stop = next ∧ t.denote values = v := by
  obtain ⟨t, hstands, ht⟩ := (check_eq_ok_iff hw).1 h
  have hglobals := Holds.of_haveTypes hvalues
  have htype : (t.denote values).type = type := ht.type_denote hglobals.type_eq
  refine ⟨t.denote values, htype, hstands.eval_eq hw ht hglobals, fun h32 => ?_,
    ⟨t, hstands, ht, rfl⟩, fun t' stop hstands' ht' => ?_⟩
  · exact Value.toNat_toSlot_lt (htype.symm ▸ h32)
  · exact hstands.denote_unique hw ht hstands' ht' hvalues

/-- The sum of a literal and a global. -/
theorem eval_of_check_sum :
    let bytes : ByteArray := ⟨#[0x41, 0x0b, 0x23, 0x00, 0x6a, 0x0b]⟩
    check #[⟨.i32, false, 0, none⟩] .i32 (.ofBytes bytes) 0 = .ok ((), 6) ∧
    ∃ v : Value, v.type = .i32 ∧ eval bytes #[5] 0 = .ok (v.toSlot, 6) := by
  have hcheck : check #[⟨.i32, false, 0, none⟩] .i32
      (.ofBytes ⟨#[0x41, 0x0b, 0x23, 0x00, 0x6a, 0x0b]⟩) 0 = .ok ((), 6) := rfl
  have hvalues : Value.HaveTypes [.i32 5] [.i32] := rfl
  obtain ⟨v, htype, heval, -⟩ := eval_of_check (Nat.le_refl _) hcheck hvalues
  exact ⟨hcheck, v, htype, heval⟩

end ConstExpr

end WasmEngine
