import Mathlib.Data.List.Forall2
import WasmEngine.Module.ConstExpr
import WasmEngine.Proofs.Syntax.Reading

/-!
# Proofs/ConstExpr/Term — constant expressions are trees in postfix form

Literals and globals push a value and operators replace two, so that code which leaves one value is
the postfix form of a tree.  `Term` is that tree, with its bytes (`Term.Encodes`), its type
(`Term.HasType`) and its value (`Term.denote`).  The checker accepts exactly the bytes of well-typed
trees: `check_eq_ok_iff`.
-/

namespace WasmEngine.ConstExpr

/-- A constant expression. -/
inductive Term where
  | value (v : Value)
  | global (index : Nat)
  | arith (w : Width) (op : IntBinOp) (a b : Term)
deriving DecidableEq, Repr

namespace Term

/-- The bytes of a constant expression, without the `end` behind it: its operands, then its
operator. -/
inductive Encodes : Term → List UInt8 → Prop where
  | value {v bs} (h : (Instr.const v).Encodes bs) : Encodes (.value v) bs
  | global {index bs} (h : (Instr.globalGet index).Encodes bs) : Encodes (.global index) bs
  | arith {w op a b c as bs} (hop : operator? c = some (w, op)) (ha : a.Encodes as)
      (hb : b.Encodes bs) : Encodes (.arith w op a b) (as ++ (bs ++ [c]))

/-- The type of a constant expression that may read immutable globals. -/
inductive HasType (globals : Array Global) : Term → ValType → Prop where
  | value (v) : HasType globals (.value v) v.type
  | global {index g} (h : globals[index]? = some g) (hconst : g.isMutable = false) :
      HasType globals (.global index) g.type
  | arith {w op a b} (ha : HasType globals a w.intType) (hb : HasType globals b w.intType) :
      HasType globals (.arith w op a b) w.intType

/-- The value of an operator of constant expressions, modulo the width of its operands. -/
def apply : IntBinOp → Value → Value → Value
  | .add, .i32 x, .i32 y => .i32 (x + y)
  | .sub, .i32 x, .i32 y => .i32 (x - y)
  | .mul, .i32 x, .i32 y => .i32 (x * y)
  | .add, .i64 x, .i64 y => .i64 (x + y)
  | .sub, .i64 x, .i64 y => .i64 (x - y)
  | .mul, .i64 x, .i64 y => .i64 (x * y)
  | _, x, _ => x

/-- The value of a constant expression, given those of the globals. -/
def denote (globals : List Value) : Term → Value
  | value v => v
  | global index => globals.getD index (.i32 0)
  | arith _ op a b => apply op (a.denote globals) (b.denote globals)

/-- The globals that a constant expression reads. -/
def reads : Term → List Nat
  | value _ => []
  | global index => [index]
  | arith _ _ a b => a.reads ++ b.reads

/-- The number of instructions of a constant expression. -/
def size : Term → Nat
  | value _ | global _ => 1
  | arith _ _ a b => a.size + (b.size + 1)

/-- The constant expression stands at a position, with an `end` behind it. -/
def StandsAt (t : Term) (w : Window) (pos next : Nat) : Prop :=
  ∃ bs, w.Spells pos (bs ++ [0x0b]) next ∧ t.Encodes bs

variable {t : Term} {type : ValType} {globals : Array Global}

/-- A well-typed expression reads nothing but immutable globals that there are. -/
theorem HasType.exists_of_mem_reads (h : t.HasType globals type) {index : Nat}
    (hmem : index ∈ t.reads) : ∃ g, globals[index]? = some g ∧ g.isMutable = false := by
  induction h with
  | value => cases hmem
  | global h hconst =>
    obtain rfl := List.mem_singleton.1 hmem
    exact ⟨_, h, hconst⟩
  | arith _ _ iha ihb => exact (List.mem_append.1 hmem).elim iha ihb

/-- Adding globals changes no type. -/
theorem HasType.mono {more : Array Global} (h : t.HasType globals type)
    (hmore : ∀ (i : Nat) g, globals[i]? = some g → more[i]? = some g) : t.HasType more type := by
  induction h with
  | value v => exact .value v
  | global h hconst => exact .global (hmore _ _ h) hconst
  | arith _ _ iha ihb => exact .arith iha ihb

theorem StandsAt.mono {v w : Window} {pos next : Nat} (h : t.StandsAt w pos next)
    (hv : ∀ p b, w.get? p = some b → v.get? p = some b) : t.StandsAt v pos next := by
  obtain ⟨bs, hs, he⟩ := h
  exact ⟨bs, hs.mono hv, he⟩

/-- Each instruction has a byte of its own. -/
theorem Encodes.size_le {bs : List UInt8} (h : t.Encodes bs) : t.size ≤ bs.length := by
  induction h with
  | value h | global h => cases h <;> exact Nat.succ_le_of_lt (Nat.succ_pos _)
  | arith _ _ _ iha ihb =>
    simp only [size, List.length_append, List.length_singleton]
    omega

end Term

/-! ## The operators -/

/-- Bytes that are not operators do something else in a constant expression. -/
theorem operator?_eq_none {c : UInt8}
    (h : c = 0x0b ∨ c = 0x41 ∨ c = 0x42 ∨ c = 0x43 ∨ c = 0x44 ∨ c = 0x23) :
    operator? c = none := by
  rcases h with rfl | rfl | rfl | rfl | rfl | rfl <;> rfl

/-- The operators are addition, subtraction and multiplication. -/
theorem op_of_operator? {c : UInt8} {w : Width} {op : IntBinOp}
    (h : operator? c = some (w, op)) : op = .add ∨ op = .sub ∨ op = .mul := by
  unfold operator? at h
  split at h <;> simp_all

/-! ## From the checker to a tree -/

section Check

variable {globals : Array Global} {w : Window} {pos next start left : Nat}
  {stack stack' : List ValType} {ts : List Term} {bs : List UInt8} {type : ValType} {op : UInt8}

/-- The bytes of the expressions on a stack, the topmost of them last. -/
inductive Stacked : List Term → List UInt8 → Prop where
  | nil : Stacked [] []
  | push {t ts as bs} (h : Stacked ts as) (ht : t.Encodes bs) : Stacked (t :: ts) (as ++ bs)

/-- What has been checked since `start`: a stack of expressions, of the types on the stack. -/
def HasChecked (globals : Array Global) (w : Window) (start pos : Nat)
    (stack : List ValType) : Prop :=
  ∃ ts bs, w.Spells start bs pos ∧ Stacked ts bs ∧ List.Forall₂ (Term.HasType globals) ts stack

theorem HasChecked.push {t : Term} (h : HasChecked globals w start pos stack)
    (hs : w.Spells pos bs next) (he : t.Encodes bs) (ht : t.HasType globals type) :
    HasChecked globals w start next (type :: stack) := by
  obtain ⟨ts, as, has, hts, htypes⟩ := h
  exact ⟨t :: ts, as ++ bs, Window.spells_append.2 ⟨pos, has, hs⟩, .push hts he, .cons ht htypes⟩

theorem HasChecked.apply {width : Width} {operator : IntBinOp}
    (hop : operator? op = some (width, operator)) (hget : w.get? pos = some op)
    (h : HasChecked globals w start pos (width.intType :: width.intType :: stack)) :
    HasChecked globals w start (pos + 1) (width.intType :: stack) := by
  obtain ⟨_, _, hs, hstacked, htypes⟩ := h
  cases htypes with
  | cons hb htypes =>
  cases htypes with
  | cons ha htypes =>
  cases hstacked with
  | push hstacked heb =>
  cases hstacked with
  | push hstacked hea =>
  refine ⟨_, _, ?_, .push hstacked (.arith hop hea heb), .cons (.arith ha hb) htypes⟩
  rw [← List.append_assoc, ← List.append_assoc]
  exact Window.spells_append.2 ⟨pos, hs, hget, rfl⟩

/-- Bytes that are passed over are those of some number. -/
theorem exists_of_skip {n stop : Nat} (hw : w.stop ≤ w.bytes.size)
    (h : Reader.skip n w pos = .ok (start, stop)) :
    ∃ v, v < 256 ^ n ∧ w.Spells pos (bytesOfNat v n) stop := by
  obtain ⟨-, rfl, hle⟩ := Reader.skip_eq_ok_iff.1 h
  have hs := (Window.spells_iff_extract hw (Nat.le_trans (Nat.le_add_right pos n) hle)).2
    ⟨Nat.le_add_right pos n, hle, rfl⟩
  generalize (w.bytes.extract pos (pos + n)).toList = bs at hs
  obtain rfl : n = bs.length := Nat.add_left_cancel hs.stop_eq
  exact ⟨natOfBytes bs, natOfBytes_lt bs, (bytesOfNat_natOfBytes bs).symm ▸ hs⟩

theorem skip_of_spells {n v : Nat} (hget : w.get? pos = some op)
    (hs : w.Spells (pos + 1) (bytesOfNat v n) next) :
    Reader.skip n w (pos + 1) = .ok (pos + 1, next) := by
  have hstop := hs.stop_eq
  rw [length_bytesOfNat] at hstop
  exact Reader.skip_eq_ok_iff.2 ⟨rfl, hstop, hs.stop_le (Window.get?_eq_some_iff.1 hget).1⟩

/-- **One instruction** puts an expression on the stack, or joins two of them. -/
theorem HasChecked.instr (hw : w.stop ≤ w.bytes.size) (hget : w.get? pos = some op)
    (h : HasChecked globals w start pos stack)
    (hc : checkInstr globals op stack w (pos + 1) = .ok (stack', next)) :
    HasChecked globals w start next stack' := by
  unfold checkInstr at hc
  split at hc
  · obtain ⟨_, mid, hread, hc⟩ := Reader.bind_eq_ok_iff.1 hc
    obtain ⟨v, hread, -⟩ := Reader.map_eq_ok_iff.1 hread
    obtain ⟨rfl, rfl⟩ := Reader.pure_eq_ok_iff.1 hc
    obtain ⟨bs, hs, hv⟩ := (Reader.accepts_signed (by decide) hw).1 hread
    exact h.push (Window.spells_cons.2 ⟨hget, hs⟩) (.value (Instr.encodes_i32 hv)) (.value _)
  · obtain ⟨_, mid, hread, hc⟩ := Reader.bind_eq_ok_iff.1 hc
    obtain ⟨v, hread, -⟩ := Reader.map_eq_ok_iff.1 hread
    obtain ⟨rfl, rfl⟩ := Reader.pure_eq_ok_iff.1 hc
    obtain ⟨bs, hs, hv⟩ := (Reader.accepts_signed (by decide) hw).1 hread
    exact h.push (Window.spells_cons.2 ⟨hget, hs⟩) (.value (Instr.encodes_i64 hv)) (.value _)
  · obtain ⟨_, mid, hread, hc⟩ := Reader.bind_eq_ok_iff.1 hc
    obtain ⟨_, hread, -⟩ := Reader.map_eq_ok_iff.1 hread
    obtain ⟨rfl, rfl⟩ := Reader.pure_eq_ok_iff.1 hc
    obtain ⟨v, hv, hs⟩ := exists_of_skip hw hread
    exact h.push (Window.spells_cons.2 ⟨hget, hs⟩) (.value (Instr.encodes_f32 hv)) (.value _)
  · obtain ⟨_, mid, hread, hc⟩ := Reader.bind_eq_ok_iff.1 hc
    obtain ⟨_, hread, -⟩ := Reader.map_eq_ok_iff.1 hread
    obtain ⟨rfl, rfl⟩ := Reader.pure_eq_ok_iff.1 hc
    obtain ⟨v, hv, hs⟩ := exists_of_skip hw hread
    exact h.push (Window.spells_cons.2 ⟨hget, hs⟩) (.value (Instr.encodes_f64 hv)) (.value _)
  · obtain ⟨index, mid, hread, hc⟩ := Reader.bind_eq_ok_iff.1 hc
    obtain ⟨bs, hs, hi⟩ := (Reader.accepts_u32 hw).1 hread
    cases hg : globals[index]? with
    | none =>
      rw [hg] at hc
      exact absurd hc Reader.invalid_ne_ok
    | some g =>
      rw [hg] at hc
      dsimp only at hc
      split at hc
      · exact absurd hc Reader.invalid_ne_ok
      · next hmut =>
        obtain ⟨rfl, rfl⟩ := Reader.pure_eq_ok_iff.1 hc
        exact h.push (Window.spells_cons.2 ⟨hget, hs⟩) (.global (.globalGet hi))
          (.global hg (Bool.eq_false_iff.2 hmut))
  · cases hop : operator? op with
    | none =>
      rw [hop] at hc
      exact absurd hc Reader.invalid_ne_ok
    | some p =>
      obtain ⟨width, operator⟩ := p
      rw [hop] at hc
      dsimp only at hc
      split at hc
      · split at hc
        · next heq =>
          obtain ⟨rfl, rfl⟩ := heq
          obtain ⟨rfl, rfl⟩ := Reader.pure_eq_ok_iff.1 hc
          exact h.apply hop hget
        · exact absurd hc Reader.invalid_ne_ok
      · exact absurd hc Reader.invalid_ne_ok

theorem HasChecked.rest (hw : w.stop ≤ w.bytes.size) (h : HasChecked globals w start pos stack)
    (hc : checkRest globals left stack w pos = .ok (stack', next)) :
    ∃ stop, next = stop + 1 ∧ w.get? stop = some 0x0b ∧
      HasChecked globals w start stop stack' := by
  induction left generalizing pos stack with
  | zero => exact absurd hc Reader.malformed_ne_ok
  | succ left ih =>
    obtain ⟨op, mid, hbyte, hc⟩ := Reader.bind_eq_ok_iff.1 hc
    obtain ⟨hget, rfl⟩ := Reader.byte_eq_ok_iff.1 hbyte
    split at hc
    · obtain ⟨rfl, rfl⟩ := Reader.pure_eq_ok_iff.1 hc
      exact ⟨pos, rfl, hget, h⟩
    · obtain ⟨stack₁, mid, hinstr, hc⟩ := Reader.bind_eq_ok_iff.1 hc
      exact ih (h.instr hw hget hinstr) hc

/-! ## From a tree to the checker -/

theorem checkRest_of_instr (hget : w.get? pos = some op) (hop : op ≠ 0x0b)
    (hinstr : checkInstr globals op stack w (pos + 1) = .ok (stack', next)) :
    checkRest globals (left + 1) stack w pos = checkRest globals left stack' w next := by
  rw [checkRest, Reader.bind_of_eq_ok (Reader.byte_eq_ok_iff.2 ⟨hget, rfl⟩)]
  split
  · exact absurd rfl hop
  · exact Reader.bind_of_eq_ok hinstr

theorem checkInstr_of_operator {width : Width} {operator : IntBinOp}
    (hop : operator? op = some (width, operator)) :
    checkInstr globals op (width.intType :: width.intType :: stack) =
      pure (width.intType :: stack) := by
  unfold operator? at hop
  split at hop <;> cases hop <;> rfl

/-- **The checker goes over a well-typed tree** and leaves its type on the stack. -/
theorem Term.Encodes.checkRest_eq {t : Term} (he : t.Encodes bs) (hw : w.stop ≤ w.bytes.size)
    (ht : t.HasType globals type) (hs : w.Spells pos bs next) :
    checkRest globals (t.size + left) stack w pos =
      checkRest globals left (type :: stack) w next := by
  induction he generalizing pos next left stack type with
  | value h =>
    rw [Term.size, Nat.add_comm]
    cases ht
    cases h with
    | constI32 h =>
      exact checkRest_of_instr hs.1 (by decide) (Reader.bind_eq_ok_iff.2 ⟨(), next,
        Reader.map_eq_ok_iff.2 ⟨_, (Reader.accepts_signed (by decide) hw).2 ⟨_, hs.2, h⟩, rfl⟩,
        rfl⟩)
    | constI64 h =>
      exact checkRest_of_instr hs.1 (by decide) (Reader.bind_eq_ok_iff.2 ⟨(), next,
        Reader.map_eq_ok_iff.2 ⟨_, (Reader.accepts_signed (by decide) hw).2 ⟨_, hs.2, h⟩, rfl⟩,
        rfl⟩)
    | constF32 =>
      exact checkRest_of_instr hs.1 (by decide) (Reader.bind_eq_ok_iff.2 ⟨(), next,
        Reader.map_eq_ok_iff.2 ⟨_, skip_of_spells hs.1 hs.2, rfl⟩, rfl⟩)
    | constF64 =>
      exact checkRest_of_instr hs.1 (by decide) (Reader.bind_eq_ok_iff.2 ⟨(), next,
        Reader.map_eq_ok_iff.2 ⟨_, skip_of_spells hs.1 hs.2, rfl⟩, rfl⟩)
  | global h =>
    rw [Term.size, Nat.add_comm]
    cases ht with
    | global hg hconst =>
    cases h with
    | globalGet h =>
    refine checkRest_of_instr hs.1 (by decide) (Reader.bind_eq_ok_iff.2
      ⟨_, next, (Reader.accepts_u32 hw).2 ⟨_, hs.2, h⟩, ?_⟩)
    simp only [hg, hconst]
    rfl
  | @arith width operator a b c as bs hop _ _ iha ihb =>
    cases ht with
    | arith ha hb =>
    obtain ⟨p₁, hs₁, hs⟩ := Window.spells_append.1 hs
    obtain ⟨p₂, hs₂, hget, rfl⟩ := Window.spells_append.1 hs
    have hsize : (Term.arith width operator a b).size + left =
        a.size + (b.size + (left + 1)) := by
      simp only [Term.size]
      omega
    have hc : c ≠ 0x0b := fun h => by simp [operator?_eq_none (.inl h)] at hop
    rw [hsize, iha ha hs₁, ihb hb hs₂]
    exact checkRest_of_instr hget hc (by rw [checkInstr_of_operator hop]; rfl)

/-- **The checker accepts exactly the well-typed trees.** -/
theorem check_eq_ok_iff (hw : w.stop ≤ w.bytes.size) {u : Unit} :
    check globals type w pos = .ok (u, next) ↔
      ∃ t : Term, t.StandsAt w pos next ∧ t.HasType globals type := by
  rw [check]
  simp only [Reader.bind_eq_ok_iff, Reader.window_eq_ok_iff, Reader.position_eq_ok_iff]
  constructor
  · rintro ⟨_, _, ⟨rfl, rfl⟩, _, _, ⟨rfl, rfl⟩, stack, mid, hrest, h⟩
    split at h
    · next hstack =>
      obtain ⟨-, rfl⟩ := Reader.pure_eq_ok_iff.1 h
      obtain ⟨stop, rfl, hget, ts, bs, hs, hstacked, htypes⟩ :=
        HasChecked.rest hw ⟨[], [], rfl, .nil, .nil⟩ hrest
      subst hstack
      cases htypes with
      | cons ht htypes =>
      cases htypes
      cases hstacked with
      | push hstacked he =>
      cases hstacked
      exact ⟨_, ⟨_, Window.spells_append.2 ⟨stop, hs, hget, rfl⟩, he⟩, ht⟩
    · exact absurd h Reader.invalid_ne_ok
  · rintro ⟨t, ⟨bs, hs, he⟩, ht⟩
    obtain ⟨stop, hterm, hend⟩ := Window.spells_append.1 hs
    obtain ⟨hget, rfl⟩ := Window.spells_singleton.1 hend
    -- The bytes left bound the number of instructions.
    obtain ⟨left, hleft⟩ : ∃ left, w.stop - pos + 1 = t.size + (left + 1) := by
      have hsize := he.size_le
      have hstop := hterm.stop_eq
      have hlt := (Window.get?_eq_some_iff.1 hget).1
      exact ⟨w.stop - pos - t.size, by omega⟩
    refine ⟨w, pos, ⟨rfl, rfl⟩, pos, pos, ⟨rfl, rfl⟩, [type], stop + 1, ?_, ?_⟩
    · rw [hleft, he.checkRest_eq hw ht hterm]
      exact Reader.bind_eq_ok_iff.2 ⟨0x0b, stop + 1, Reader.byte_eq_ok_iff.2 ⟨hget, rfl⟩, rfl⟩
    · rw [if_pos rfl]
      rfl

end Check

end WasmEngine.ConstExpr
