import WasmEngine.Proofs.ConstExpr.Term
import WasmEngine.Proofs.Syntax.Fetching

/-!
# Proofs/ConstExpr/Evaluation — the value of a constant expression

`ConstExpr.eval` runs over the bytes of an expression with a stack of slots.  On a well-typed tree it
finds the value of the tree, as soon as the globals that the tree may read have got theirs:
`Term.StandsAt.eval_eq`.
-/

namespace WasmEngine.ConstExpr

variable {globals : Array Global} {values : List Value} {slots : Array Slot} {t : Term}
  {type : ValType}

/-- The value of a global, out of those of all globals. -/
abbrev valueAt (values : List Value) (i : Nat) : Value := values.getD i (.i32 0)

/-- The values are of the types of the globals, and the slots hold them. -/
structure Holds (globals : Array Global) (values : List Value) (slots : Array Slot) : Prop where
  type_eq : ∀ (i : Nat) g, globals[i]? = some g → (valueAt values i).type = g.type
  slot_eq : ∀ (i : Nat) g, globals[i]? = some g → slots[i]? = some (valueAt values i).toSlot

/-! ## Types and dependence -/

/-- An operator keeps the type of its operands. -/
theorem Term.type_apply (op : IntBinOp) (x y : Value) : (apply op x y).type = x.type := by
  unfold apply
  split <;> rfl

/-- The value of a well-typed tree has the type of the tree. -/
theorem Term.HasType.type_denote (h : t.HasType globals type)
    (htype : ∀ (i : Nat) g, globals[i]? = some g → (valueAt values i).type = g.type) :
    (t.denote values).type = type := by
  induction h with
  | value v => rfl
  | global h _ => exact htype _ _ h
  | arith _ _ iha _ => exact (type_apply ..).trans iha

/-- The value of a tree depends on the globals that it reads and on no others. -/
theorem Term.denote_congr {values' : List Value}
    (h : ∀ i ∈ t.reads, valueAt values i = valueAt values' i) :
    t.denote values = t.denote values' := by
  induction t with
  | value v => rfl
  | global index => exact h index (List.mem_singleton_self _)
  | arith w op a b iha ihb =>
    rw [denote, denote, iha fun i hi => h i (List.mem_append_left _ hi),
      ihb fun i hi => h i (List.mem_append_right _ hi)]

/-! ## Operators -/

theorem exists_i32_of_type {v : Value} (h : v.type = Width.w32.intType) : ∃ x, v = .i32 x := by
  cases v with
  | i32 x => exact ⟨x, rfl⟩
  | i64 | f32 | f64 => cases h

theorem exists_i64_of_type {v : Value} (h : v.type = Width.w64.intType) : ∃ x, v = .i64 x := by
  cases v with
  | i64 x => exact ⟨x, rfl⟩
  | i32 | f32 | f64 => cases h

/-- An `i32` is read back from its slot as its bits. -/
theorem read_toSlot_i32 (x : UInt32) : Width.w32.read (Value.i32 x).toSlot = x.toBitVec := by
  apply BitVec.eq_of_toNat_eq
  change x.toUInt64.toNat % 2 ^ 32 = x.toNat
  rw [UInt32.toNat_toUInt64, Nat.mod_eq_of_lt x.toNat_lt]

/-- Its bits are written as its slot, with zeros above. -/
theorem write_toBitVec_i32 (x : UInt32) : Width.w32.write x.toBitVec = (Value.i32 x).toSlot := by
  apply UInt64.toBitVec_inj.1
  apply BitVec.eq_of_toNat_eq
  rw [Width.write, UInt64.toBitVec_ofBitVec, BitVec.toNat_setWidth]
  change x.toNat % 2 ^ 64 = x.toUInt64.toNat
  rw [UInt32.toNat_toUInt64, Nat.mod_eq_of_lt (Nat.lt_trans x.toNat_lt (by decide))]

/-- **An operator on slots is the operator on values.** -/
theorem eval_toSlot {c : UInt8} {w : Width} {op : IntBinOp} (hop : operator? c = some (w, op))
    {x y : Value} (hx : x.type = w.intType) (hy : y.type = w.intType) :
    (BinaryOp.int w op).eval x.toSlot y.toSlot = .ok (Term.apply op x y).toSlot := by
  cases w with
  | w32 =>
    obtain ⟨x, rfl⟩ := exists_i32_of_type hx
    obtain ⟨y, rfl⟩ := exists_i32_of_type hy
    rcases op_of_operator? hop with rfl | rfl | rfl
    all_goals
      rw [BinaryOp.eval, read_toSlot_i32, read_toSlot_i32]
      exact congrArg Except.ok (write_toBitVec_i32 _)
  | w64 =>
    obtain ⟨x, rfl⟩ := exists_i64_of_type hx
    obtain ⟨y, rfl⟩ := exists_i64_of_type hy
    rcases op_of_operator? hop with rfl | rfl | rfl
    all_goals
      refine congrArg Except.ok (UInt64.toBitVec_inj.1 ?_)
      simp [Width.read, Width.write, Width.bits, Term.apply, Value.toSlot]

/-! ## Literals -/

section Literals

variable {w : Window} {pos next : Nat} {bs : List UInt8} {stack : List Slot}

/-- A literal is pushed as it was spelled, of either integer type and of either float type. -/
theorem evalInstr_i32 {v : UInt32} (hs : w.Spells pos bs next)
    (h : Leb128.EncodesSigned 32 v.toInt32.toInt bs) :
    evalInstr w.bytes slots 0x41 pos stack = .ok ((Value.i32 v).toSlot :: stack, next) := by
  obtain ⟨u, hu, hmod⟩ := Fetch.signed_of_read (by decide) (by decide)
    ((Leb128.readSigned_eq_ok_iff (by decide)).2 ⟨bs, hs, h⟩)
  have hv : u.toUInt32 = v := (Fetch.toUInt32_eq_of_mod hmod).trans (by simp)
  rw [evalInstr, show Leb128.trustedSigned w.bytes pos = some (u, next) from hu]
  simp only [hv, Value.toSlot]

theorem evalInstr_i64 {v : UInt64} (hs : w.Spells pos bs next)
    (h : Leb128.EncodesSigned 64 v.toInt64.toInt bs) :
    evalInstr w.bytes slots 0x42 pos stack = .ok ((Value.i64 v).toSlot :: stack, next) := by
  obtain ⟨u, hu, hmod⟩ := Fetch.signed_of_read (by decide) (by decide)
    ((Leb128.readSigned_eq_ok_iff (by decide)).2 ⟨bs, hs, h⟩)
  have hv : u = v := (Fetch.eq_of_mod hmod).trans (by simp)
  rw [evalInstr, show Leb128.trustedSigned w.bytes pos = some (u, next) from hu, hv, Value.toSlot]

theorem evalInstr_f32 {v : UInt32} (hs : w.Spells pos (bytesOfNat v.toNat 4) next) :
    evalInstr w.bytes slots 0x43 pos stack = .ok ((Value.f32 v).toSlot :: stack, next) := by
  obtain ⟨u, hu, hnat⟩ := Fetch.word_of_spells hs (by decide) v.toNat_lt
  have hv : u = v.toUInt64 := UInt64.toNat_inj.1 (hnat.trans (UInt32.toNat_toUInt64 v).symm)
  rw [evalInstr, hu, hv, Value.toSlot]

theorem evalInstr_f64 {v : UInt64} (hs : w.Spells pos (bytesOfNat v.toNat 8) next) :
    evalInstr w.bytes slots 0x44 pos stack = .ok ((Value.f64 v).toSlot :: stack, next) := by
  obtain ⟨u, hu, hnat⟩ := Fetch.word_of_spells hs (by decide) v.toNat_lt
  rw [evalInstr, hu, UInt64.toNat_inj.1 hnat, Value.toSlot]

/-- A global is pushed as it is. -/
theorem evalInstr_global {index : Nat} {v : Slot} (hs : w.Spells pos bs next)
    (h : EncodesU32 index bs) (hv : slots[index]? = some v) :
    evalInstr w.bytes slots 0x23 pos stack = .ok (v :: stack, next) := by
  have hread : Leb128.trustedUnsigned w.bytes pos = some (index.toUInt32, next) :=
    Leb128.trustedUnsigned_of_readUnsigned
      ((Leb128.readUnsigned_eq_ok_iff (by decide)).2 ⟨bs, hs, h⟩)
  have hindex : index.toUInt32.toNat = index := Nat.mod_eq_of_lt h.lt
  simp only [evalInstr, hread, hindex, hv]

/-- An operator takes two operands, the right one first, and pushes what it computes. -/
theorem evalInstr_operator {c : UInt8} {width : Width} {op : IntBinOp} {x y : Value}
    (hop : operator? c = some (width, op)) (hx : x.type = width.intType)
    (hy : y.type = width.intType) :
    evalInstr w.bytes slots c pos (y.toSlot :: x.toSlot :: stack) =
      .ok ((Term.apply op x y).toSlot :: stack, pos) := by
  unfold evalInstr
  split
  · cases hop
  · cases hop
  · cases hop
  · cases hop
  · cases hop
  · simp only [hop, eval_toSlot hop hx hy]

/-! ## Trees -/

/-- An instruction is evaluated before the rest. -/
theorem evalRest_of_instr {op : UInt8} {left : Nat} {stack' : List Slot}
    (hget : w.get? pos = some op) (hop : op ≠ 0x0b)
    (hinstr : evalInstr w.bytes slots op (pos + 1) stack = .ok (stack', next)) :
    evalRest w.bytes slots (left + 1) pos stack = evalRest w.bytes slots left next stack' := by
  rw [evalRest, (Window.get?_eq_some_iff.1 hget).2]
  split
  · next h => cases h
  · next h => exact absurd (Option.some.inj h) hop
  · next h =>
    cases h
    rw [hinstr]

/-- **Evaluation goes over a well-typed tree** and leaves its value on the stack. -/
theorem Term.Encodes.evalRest_eq {left : Nat} (he : t.Encodes bs) (ht : t.HasType globals type)
    (hglobals : Holds globals values slots) (hs : w.Spells pos bs next) :
    evalRest w.bytes slots (t.size + left) pos stack =
      evalRest w.bytes slots left next ((t.denote values).toSlot :: stack) := by
  induction he generalizing pos next left stack type with
  | value h =>
    rw [Term.size, Nat.add_comm]
    cases h with
    | constI32 h => exact evalRest_of_instr hs.1 (by decide) (evalInstr_i32 hs.2 h)
    | constI64 h => exact evalRest_of_instr hs.1 (by decide) (evalInstr_i64 hs.2 h)
    | constF32 => exact evalRest_of_instr hs.1 (by decide) (evalInstr_f32 hs.2)
    | constF64 => exact evalRest_of_instr hs.1 (by decide) (evalInstr_f64 hs.2)
  | global h =>
    rw [Term.size, Nat.add_comm]
    cases ht with
    | global hg _ =>
    cases h with
    | globalGet h =>
    exact evalRest_of_instr hs.1 (by decide) (evalInstr_global hs.2 h (hglobals.slot_eq _ _ hg))
  | @arith width operator a b c as bs hop _ _ iha ihb =>
    cases ht with
    | arith ha hb =>
    obtain ⟨p₁, hs₁, hs⟩ := Window.spells_append.1 hs
    obtain ⟨p₂, hs₂, hget, rfl⟩ := Window.spells_append.1 hs
    have hsize : (Term.arith width operator a b).size + left =
        a.size + (b.size + (left + 1)) := by
      simp only [Term.size]
      omega
    have hc : c ≠ 0x0b := fun h => by simp [operator?_eq_none (.inl h)] at hop
    rw [hsize, iha ha hs₁, ihb hb hs₂]
    exact evalRest_of_instr hget hc (evalInstr_operator hop (ha.type_denote hglobals.type_eq)
      (hb.type_denote hglobals.type_eq))

/-- **A constant expression has the value of its tree.** -/
theorem Term.StandsAt.eval_eq (h : t.StandsAt w pos next) (hw : w.stop ≤ w.bytes.size)
    (ht : t.HasType globals type) (hglobals : Holds globals values slots) :
    eval w.bytes slots pos = .ok ((t.denote values).toSlot, next) := by
  obtain ⟨bs, hs, he⟩ := h
  obtain ⟨stop, hterm, hend⟩ := Window.spells_append.1 hs
  obtain ⟨hget, rfl⟩ := Window.spells_singleton.1 hend
  obtain ⟨hlt, hbyte⟩ := Window.get?_eq_some_iff.1 hget
  -- The bytes left bound the number of instructions.
  obtain ⟨left, hleft⟩ : ∃ left, w.bytes.size - pos = t.size + (left + 1) := by
    have hsize := he.size_le
    have hstop := hterm.stop_eq
    exact ⟨w.bytes.size - pos - t.size - 1, by omega⟩
  have hrest : evalRest w.bytes slots (w.bytes.size - pos) pos [] =
      .ok ([(t.denote values).toSlot], stop + 1) := by
    rw [hleft, he.evalRest_eq ht hglobals hterm, evalRest, hbyte]
    rfl
  rw [eval, hrest]

end Literals

end WasmEngine.ConstExpr
