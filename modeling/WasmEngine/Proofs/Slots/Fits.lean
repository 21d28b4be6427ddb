import WasmEngine.Machine.Access
import WasmEngine.Proofs.Memory.Accesses
import WasmEngine.Proofs.Numeric.Instructions
import WasmEngine.Proofs.Typing.Declarative

/-!
# Proofs/Slots/Fits — slots at their types

A slot carries no type.  It fits a 32-bit type if its upper half is zero, and a 64-bit type always;
then it is the slot of a value of that type (`Slot.Fits.toSlot_ofSlot`).  Everything that an
instruction computes fits the type that its typing rule announces: numeric results
(`NumOp.fits_of_numeric`), loads (`LoadOp.fits_extend`), and the answers of growth.
-/

namespace WasmEngine

/-- A slot fits a type.  What fits the unknown type fits all. -/
def Slot.Fits (v : Slot) : OperandType → Prop
  | some .i64 | some .f64 => True
  | _ => v.toNat < 2 ^ 32

/-- Slots fit types, each the type at its place. -/
abbrev FitAll (vs : List Slot) (xs : List OperandType) : Prop := List.Forall₂ Slot.Fits vs xs

variable {v : Slot} {x y : OperandType} {vs ws : List Slot} {xs ys : List OperandType}
  {ts : List ValType}

namespace Slot

/-- What is below `2 ^ 32` fits every type. -/
theorem fits_of_lt (h : v.toNat < 2 ^ 32) (x : OperandType) : v.Fits x := by
  obtain _ | t := x
  · exact h
  · cases t with
    | i32 | f32 => exact h
    | i64 | f64 => trivial

/-- What fits a type fits where the type is expected. -/
theorem Fits.mono (h : v.Fits x) (hm : x.Matches y) : v.Fits y := by
  obtain rfl | rfl := hm
  · exact fits_of_lt h y
  · exact h

theorem fits_zero (x : OperandType) : (0 : Slot).Fits x := fits_of_lt (by decide) x

/-- A 32-bit word fits every type. -/
theorem fits_toUInt64 (v : UInt32) (x : OperandType) : Slot.Fits v.toUInt64 x :=
  fits_of_lt ((UInt32.toNat_toUInt64 v).symm ▸ v.toNat_lt) x

/-- **The slot of a value fits the type of the value.** -/
theorem fits_toSlot (v : Value) : v.toSlot.Fits (some v.type) := by
  cases v with
  | i32 bits | f32 bits => exact fits_toUInt64 bits _
  | i64 | f64 => trivial

/-- **A slot that fits a type is the slot of the value** that it holds at this type. -/
theorem Fits.toSlot_ofSlot {t : ValType} (h : v.Fits (some t)) : (Value.ofSlot v t).toSlot = v := by
  cases t with
  | i64 | f64 => rfl
  | i32 | f32 =>
    apply UInt64.toNat_inj.1
    rw [Value.ofSlot, Value.toSlot, UInt32.toNat_toUInt64, UInt64.toNat_toUInt32]
    exact Nat.mod_eq_of_lt h

/-- The result of a comparison fits every type. -/
theorem fits_ofBool (b : Bool) (x : OperandType) : (Slot.ofBool b).Fits x :=
  fits_of_lt (by cases b <;> decide) x

end Slot

/-! ## Lists of slots -/

/-- Slots that fit types fit where these are expected. -/
theorem FitAll.mono (h : FitAll vs xs) (hm : MatchAll xs ys) : FitAll vs ys := by
  induction h generalizing ys with
  | nil =>
    cases hm
    exact .nil
  | cons hv _ ih =>
    cases hm with
    | cons hx hm => exact .cons (hv.mono hx) (ih hm)

/-- Slots fit one run of types after the other. -/
theorem FitAll.append (h : FitAll vs xs) (h' : FitAll ws ys) : FitAll (vs ++ ws) (xs ++ ys) :=
  List.rel_append h h'

/-- Slots that fit a list of types in two parts come in two parts. -/
theorem FitAll.split (h : FitAll vs (xs ++ ys)) :
    ∃ us ws, vs = us ++ ws ∧ FitAll us xs ∧ FitAll ws ys :=
  ⟨vs.take xs.length, vs.drop xs.length, (List.take_append_drop ..).symm,
    List.forall₂_take_append _ _ _ h, List.forall₂_drop_append _ _ _ h⟩

/-- Values fit their own types. -/
theorem FitAll.of_haveTypes {values : List Value} (h : Value.HaveTypes values ts) :
    FitAll (values.map Value.toSlot) (known ts) := by
  subst h
  rw [known, List.map_map]
  exact List.forall₂_map_left_iff.2 (List.forall₂_map_right_iff.2
    (List.forall₂_same.2 fun v _ => Slot.fits_toSlot v))

/-- What fits known types is of their number. -/
theorem FitAll.length_known (h : FitAll vs (known ts)) : vs.length = ts.length :=
  h.length_eq.trans (List.length_map some)

/-- Where there is a type there is a slot that fits it. -/
theorem FitAll.exists_getElem? (h : FitAll vs xs) {i : Nat} (hx : xs[i]? = some x) :
    ∃ v, vs[i]? = some v ∧ v.Fits x := by
  induction h generalizing i with
  | nil => simp at hx
  | @cons v _ vs _ hv _ ih =>
    cases i with
    | zero => exact ⟨v, rfl, Option.some.inj hx ▸ hv⟩
    | succ i => exact ih hx

/-- A slot may be replaced by another that fits. -/
theorem FitAll.set (h : FitAll vs xs) {i : Nat} (hx : xs[i]? = some x) (hv : v.Fits x) :
    FitAll (vs.set i v) xs := by
  induction h generalizing i with
  | nil => exact .nil
  | cons hv' hvs ih =>
    cases i with
    | zero => exact .cons (Option.some.inj hx ▸ hv) hvs
    | succ i => exact .cons hv' (ih hx)

/-- Zeros fit all types: locals start as zeros. -/
theorem fitAll_replicate (ts : List ValType) : FitAll (List.replicate ts.length 0) (known ts) := by
  induction ts with
  | nil => exact .nil
  | cons t ts ih => exact .cons (Slot.fits_zero _) ih

/-! ## Numeric results -/

namespace Width

variable {w : Width} {a b : Slot}

/-- What is below the bound of a width fits its integers. -/
theorem fits_intType (h : v.toNat < 2 ^ w.bits) : v.Fits (some w.intType) := by
  cases w with
  | w32 => exact h
  | w64 => trivial

/-- What is below the bound of a width fits its floats. -/
theorem fits_floatType (h : v.toNat < 2 ^ w.bits) : v.Fits (some w.floatType) := by
  cases w with
  | w32 => exact h
  | w64 => trivial

/-- An integer of a width is written below its bound. -/
theorem toNat_write_lt (w : Width) (n : BitVec w.bits) : (w.write n).toNat < 2 ^ w.bits := by
  rw [write_eq, toNat_ofNat n.isLt]
  exact n.isLt

/-- A float operation fits its width, whatever it computes. -/
theorem fits_map (f : Float32 → Float32) (g : Float → Float) (a : Slot) :
    (w.map f g a).Fits (some w.floatType) := by
  cases w with
  | w32 => exact Slot.fits_toUInt64 _ _
  | w64 => trivial

/-- So does one of two operands. -/
theorem fits_map₂ (f : Float32 → Float32 → Float32) (g : Float → Float → Float) (a b : Slot) :
    (w.map₂ f g a b).Fits (some w.floatType) := by
  cases w with
  | w32 => exact Slot.fits_toUInt64 _ _
  | w64 => trivial

/-- What is masked with bits of a width is a number of this width. -/
theorem toNat_and_lt {m : Slot} (hm : m.toNat < 2 ^ w.bits) : (a &&& m).toNat < 2 ^ w.bits := by
  rw [UInt64.toNat_and]
  exact Nat.and_lt_two_pow _ hm

theorem toNat_mask_lt (w : Width) : w.mask.toNat < 2 ^ w.bits := by cases w <;> decide

theorem toNat_signBit_lt (w : Width) : w.signBit.toNat < 2 ^ w.bits := by cases w <;> decide

/-- Masking the sign off leaves a slot below the bound, whatever was in its upper half. -/
theorem toNat_abs_lt (w : Width) (a : Slot) : (w.abs a).toNat < 2 ^ w.bits := by
  refine toNat_and_lt ?_
  rw [UInt64.toNat_xor]
  exact Nat.xor_lt_two_pow w.toNat_mask_lt w.toNat_signBit_lt

/-- A sign that is copied is one bit within the width. -/
theorem fits_copysign (w : Width) (a b : Slot) : (w.copysign a b).Fits (some w.floatType) := by
  refine fits_floatType ?_
  rw [copysign, UInt64.toNat_or]
  exact Nat.or_lt_two_pow (w.toNat_abs_lt a) (toNat_and_lt w.toNat_signBit_lt)

/-- A minimum or maximum fits: it is NaN or one of its operands, cut to the width. -/
theorem fits_extremum (w : Width) (least : Bool) (a b : Slot) :
    (w.extremum least a b).Fits (some w.floatType) := by
  refine fits_floatType ?_
  unfold extremum
  split
  · cases w <;> decide
  · split <;> exact toNat_and_lt w.toNat_mask_lt

end Width

/-- A float operation of one operand fits its width. -/
theorem FloatUnOp.fits_eval (w : Width) (a : Slot) (op : FloatUnOp) :
    (op.eval w a).Fits (some w.floatType) := by
  cases op with
  | abs => exact Width.fits_floatType (w.toNat_abs_lt a)
  | neg =>
    refine Width.fits_floatType ?_
    rw [FloatUnOp.eval, Width.neg, UInt64.toNat_xor]
    exact Nat.xor_lt_two_pow (Width.toNat_and_lt w.toNat_mask_lt) w.toNat_signBit_lt
  | ceil | floor | sqrt => exact Width.fits_map ..
  | trunc =>
    rw [FloatUnOp.eval, Width.truncate]
    split <;> exact Width.fits_map ..
  | nearest =>
    refine iteInduction (motive := fun v => Slot.Fits v _) (fun _ => w.fits_copysign _ _)
      fun _ => Width.fits_floatType (Width.toNat_and_lt w.toNat_mask_lt)

/-- A float operation of two operands fits its width. -/
theorem FloatBinOp.fits_eval (w : Width) (a b : Slot) (op : FloatBinOp) :
    (op.eval w a b).Fits (some w.floatType) := by
  cases op with
  | add | sub | mul | div => exact Width.fits_map₂ ..
  | min | max => exact w.fits_extremum ..
  | copysign => exact w.fits_copysign a b

namespace Conversion

/-- An integer is written modulo its width. -/
theorem fits_ofInt (w : Width) (n : Int) : (ofInt w n).Fits (some w.intType) :=
  Width.fits_intType (w.toNat_write_lt _)

/-- A float that is truncated fits the integers it is truncated to, if it is one of them. -/
theorem fits_truncateSlot {target source : Width} {signed : Bool} {a : Slot}
    (h : truncateSlot target source signed a = .ok v) : v.Fits (some target.intType) := by
  unfold truncateSlot at h
  split at h
  · cases h
  · split at h
    · split at h
      · cases h
        exact fits_ofInt ..
      · cases h
    · cases h

/-- A float that is truncated with saturation fits them always. -/
theorem fits_saturateSlot (target source : Width) (signed : Bool) (a : Slot) :
    (saturateSlot target source signed a).Fits (some target.intType) := by
  unfold saturateSlot
  split
  · exact Slot.fits_zero _
  · exact fits_ofInt ..
  · exact fits_ofInt ..
  · split
    · exact fits_ofInt ..
    · exact Slot.fits_zero _

/-- An integer that is converted fits the floats it is rounded to. -/
theorem fits_roundSlot (target source : Width) (signed : Bool) (a : Slot) :
    (roundSlot target source signed a).Fits (some target.floatType) := by
  cases target with
  | w64 => trivial
  | w32 =>
    unfold roundSlot
    split <;> exact Slot.fits_toUInt64 _ _

/-- **A conversion yields its type**, from an operand of its type. -/
theorem fits_eval {op : Conversion} {a : Slot} (ha : a.Fits (some op.operand))
    (h : op.eval a = .ok v) : v.Fits (some op.result) := by
  cases op with
  | wrap =>
    cases h
    exact Width.toNat_write_lt .w32 _
  | extend signed => trivial
  | truncate target source signed => exact fits_truncateSlot h
  | truncateSat target source signed =>
    cases h
    exact fits_saturateSlot ..
  | convert target source signed =>
    cases h
    exact fits_roundSlot ..
  | demote =>
    cases h
    exact Slot.fits_toUInt64 _ _
  | promote => trivial
  | floatBits w | floatOfBits w =>
    cases h
    cases w with
    | w32 => exact ha
    | w64 => trivial
  | signExtend w n =>
    cases h
    exact Width.fits_intType (w.toNat_write_lt _)

end Conversion

/-- The result of an operator fits its type, if the operand does. -/
theorem UnaryOp.fits_eval {op : UnaryOp} {a : Slot} (ha : a.Fits (some op.operand))
    (h : op.eval a = .ok v) : v.Fits (some op.result) := by
  cases op with
  | isZero w =>
    cases h
    exact Slot.fits_ofBool ..
  | int w op =>
    cases h
    exact Width.fits_intType (w.toNat_write_lt _)
  | float w op =>
    cases h
    exact op.fits_eval w a
  | convert op => exact Conversion.fits_eval ha h

/-- The result of an operator of two operands fits its type, whatever the operands are. -/
theorem BinaryOp.fits_eval {op : BinaryOp} {a b : Slot} (h : op.eval a b = .ok v) :
    v.Fits (some op.result) := by
  cases op with
  | int w op =>
    rw [BinaryOp.eval] at h
    cases hop : op.eval (w.read a) (w.read b) with
    | error t =>
      rw [hop] at h
      cases h
    | ok n =>
      rw [hop] at h
      cases h
      exact Width.fits_intType (w.toNat_write_lt n)
  | float w op =>
    cases h
    exact op.fits_eval w a b
  | intRel w op | floatRel w op =>
    cases h
    exact Slot.fits_ofBool ..

/-! ## Loads -/

/-- The loads that there are: a narrow or a 32-bit result comes from four bytes at most. -/
def LoadOp.IsStandard (op : LoadOp) : Prop := op ∈ LoadOp.all

/-- Opcodes name no loads but the standard ones. -/
theorem LoadOp.isStandard_of_ofOpcode? {b : UInt8} {op : LoadOp} (h : ofOpcode? b = some op) :
    op.IsStandard := by
  unfold ofOpcode? at h
  split at h
  · exact Array.mem_of_getElem? h
  · cases h

/-- **A load yields its type.** -/
theorem LoadOp.fits_extend {op : LoadOp} (hop : op.IsStandard) {m : Memory} {ptr offset : UInt32}
    {n : Nat} (h : m.load (1 <<< op.logWidth) ptr offset = .ok n) :
    (op.extend n).Fits (some op.type) := by
  have hwidth : ∀ op ∈ LoadOp.all, op.type = .i32 ∨ op.type = .f32 →
      256 ^ (1 <<< op.logWidth) ≤ 2 ^ 32 := by decide
  have hn : n < 256 ^ (1 <<< op.logWidth) := by
    unfold Memory.load at h
    split at h
    · cases h
      rw [Memory.decodeLE_eq_numberAt]
      exact Memory.numberAt_lt ..
    · cases h
  have hnarrow (h32 : op.type = .i32 ∨ op.type = .f32) : (op.extend n).toNat < 2 ^ 32 := by
    unfold extend
    split
    · rcases h32 with h32 | h32 <;> rw [h32] <;>
        exact (UInt32.toNat_toUInt64 _).symm ▸ UInt32.toNat_lt _
    · have hlt := Nat.lt_of_lt_of_le hn (hwidth op hop h32)
      rw [Nat.toUInt64, UInt64.toNat_ofNat', Nat.mod_eq_of_lt (Nat.lt_trans hlt (by decide))]
      exact hlt
  cases htype : op.type with
  | i32 => exact hnarrow (.inl htype)
  | f32 => exact hnarrow (.inr htype)
  | i64 | f64 => trivial

/-- Everything that a computation on code yields has a property. -/
def Fetch.Yields {α : Type} (P : α → Prop) (x : Fetch α) : Prop :=
  ∀ pos a next, x pos = some (a, next) → P a

namespace Fetch

variable {α β : Type} {P : α → Prop}

theorem yields_pure {a : α} (h : P a) : Yields P (pure a) := fun _ _ _ heq => by
  cases heq
  exact h

/-- What a fetch yields at last is what counts. -/
theorem yields_bind {x : Fetch β} {f : β → Fetch α} (h : ∀ b, Yields P (f b)) :
    Yields P (x >>= f) := fun _ _ _ heq => by
  obtain ⟨b, mid, -, heq⟩ := bind_eq_some_iff.1 heq
  exact h b mid _ _ heq

theorem yields_map {x : Fetch β} {f : β → α} (h : ∀ b, P (f b)) : Yields P (f <$> x) :=
  fun _ _ _ heq => by
    obtain ⟨b, -, rfl⟩ := map_eq_some_iff.1 heq
    exact h b

end Fetch

/-- An instruction that loads nothing, or loads in one of the ways that there are. -/
def Instr.LoadsStandard {β : Type} : Instr β → Prop
  | load op _ => op.IsStandard
  | _ => True

/-- No instruction behind the prefix `0xfc` loads. -/
theorem Fetch.yields_extended (code : ByteArray) :
    Yields Instr.LoadsStandard (Fetch.extended code) := by
  refine yields_bind fun n => ?_
  split
  · exact yields_bind fun _ => yields_pure trivial
  · exact yields_bind fun _ => yields_pure trivial
  · exact yields_map fun _ => trivial

/-- **What is fetched loads in one of the ways that there are.** -/
theorem Instr.fetch_loadsStandard (code : ByteArray) (table : SideTable) :
    (fetch code table).Yields LoadsStandard := by
  have hnone {α : Type} {P : α → Prop} : Fetch.Yields P (StateT.lift none) := nofun
  refine Fetch.yields_bind fun opcode => Fetch.yields_bind fun b => ?_
  split
  case h_28 => exact Fetch.yields_extended code
  case h_29 =>
    split
    · exact Fetch.yields_pure trivial
    · split
      · next hload => exact Fetch.yields_map fun _ => LoadOp.isStandard_of_ofOpcode? hload
      · split
        · exact Fetch.yields_map fun _ => trivial
        · exact hnone
  all_goals first
    | exact Fetch.yields_pure trivial
    | exact Fetch.yields_map fun _ => trivial
    | exact Fetch.yields_bind fun _ => Fetch.yields_pure trivial
    | exact Fetch.yields_bind fun _ => Fetch.yields_map fun _ => trivial
    | exact Fetch.yields_bind fun _ => Fetch.yields_bind fun _ => Fetch.yields_map fun _ => trivial

end WasmEngine
