import WasmEngine.Proofs.Nesting.Budgets
import WasmEngine.Proofs.Numeric.Arithmetic
import WasmEngine.Proofs.Syntax.Fetching

/-!
# Proofs/Numeric/Instructions — the integer instructions on untagged slots

An integer instruction reads numbers of one width from its operands and leaves a number of one
width, `IntegerRule`: the bits of a slot above the width of an operand do not matter, and those
above the width of the result are zero.  `NumOp.integers` is the standard's list of the integer
opcodes, and `Store.dispatch_integer` says that the machine executes each of them by its rule.
-/

namespace WasmEngine

/-! ## Slots as numbers -/

namespace Width

/-- The number that a slot holds at a width. -/
def number (w : Width) (x : Slot) : Nat := x.toNat % 2 ^ w.bits

variable {w : Width}

theorem bits_pos (w : Width) : 0 < w.bits := by cases w <;> decide

theorem bits_le (w : Width) : w.bits ≤ 64 := by cases w <;> decide

theorem number_lt (w : Width) (x : Slot) : w.number x < 2 ^ w.bits :=
  Nat.mod_lt _ (Nat.two_pow_pos _)

theorem toNat_read (w : Width) (x : Slot) : (w.read x).toNat = w.number x := by
  rw [read, BitVec.toNat_setWidth]
  rfl

theorem write_eq (w : Width) (v : BitVec w.bits) : w.write v = .ofNat v.toNat := by
  apply UInt64.toNat_inj.1
  rw [write, UInt64.toNat_ofBitVec, BitVec.toNat_setWidth, UInt64.toNat_ofNat']

/-- The slot of a number holds it again, under zeros. -/
theorem toNat_ofNat {k : Nat} (hk : k < 2 ^ w.bits) : (UInt64.ofNat k).toNat = k := by
  rw [UInt64.toNat_ofNat']
  exact Nat.mod_eq_of_lt (Nat.lt_of_lt_of_le hk (Nat.pow_le_pow_right (by decide) w.bits_le))

end Width

theorem Slot.ofBitVec_eq (v : BitVec 64) : UInt64.ofBitVec v = .ofNat v.toNat :=
  congrArg UInt64.ofBitVec (BitVec.ofNat_toNat 64 v).symm

theorem Slot.ofBool_eq (b : Bool) : Slot.ofBool b = .ofNat b.toNat := by cases b <;> rfl

/-! ## Rules -/

/-- How an integer instruction computes: the width of its operands, that of its result, and what
becomes of the numbers in the operands, the deepest first. -/
inductive IntegerRule where
  | unary (source target : Width) (f : Nat → Nat)
  | binary (source target : Width) (f : Nat → Nat → Except Trap Nat)

namespace IntegerRule

/-- The width of the operands. -/
def source : IntegerRule → Width
  | unary w _ _ | binary w _ _ => w

/-- The width of the result. -/
def target : IntegerRule → Width
  | unary _ w _ | binary _ w _ => w

/-- The number of operands. -/
def arity : IntegerRule → Nat
  | unary .. => 1
  | binary .. => 2

/-- The number that a rule yields from those in the operands, top first, or the trap. -/
def number? : IntegerRule → List Nat → Option (Except Trap Nat)
  | unary _ _ f, [i] => some (.ok (f i))
  | binary _ _ f, [j, i] => some (f i j)
  | _, _ => none

/-- The slot that takes the place of the operands, top first, or the trap. -/
def outcome? (rule : IntegerRule) (operands : List Slot) : Option (Except Trap Slot) :=
  (rule.number? (operands.map rule.source.number)).map (·.map .ofNat)

/-- An operator computes as a rule says. -/
def IsFollowedBy : IntegerRule → NumOp → Prop
  | unary w _ f, .unary op => ∀ x, op.eval x = .ok (.ofNat (f (w.number x)))
  | binary w _ f, .binary op =>
    ∀ x y, op.eval x y = (f (w.number x) (w.number y)).map .ofNat
  | _, _ => False

end IntegerRule

namespace NumOp

/-- The rule of an integer operator. -/
def rule? : NumOp → Option IntegerRule
  | unary (.isZero w) => some (.unary w .w32 fun i => (decide (i = 0)).toNat)
  | unary (.int w op) => some (.unary w w (op.count w.bits))
  | unary (.convert .wrap) => some (.unary .w64 .w32 fun i => i % 2 ^ 32)
  | unary (.convert (.extend true)) =>
    some (.unary .w32 .w64 fun i => Binary.ofInt 64 (Binary.signed 32 i))
  | unary (.convert (.extend false)) => some (.unary .w32 .w64 id)
  | unary (.convert (.signExtend w n)) =>
    some (.unary w w fun i => Binary.ofInt w.bits (Binary.signed n (i % 2 ^ n)))
  | binary (.intRel w op) => some (.binary w .w32 fun i j => .ok (op.holds w.bits i j).toNat)
  | binary (.int w op) => some (.binary w w fun i j => op.outcome w.bits i j)
  | _ => none

/-- The integer opcodes of the standard and what they stand for. -/
def integers : List (UInt8 × NumOp) :=
  [(0x45, unary (.isZero .w32)),
    (0x46, binary (.intRel .w32 .eq)), (0x47, binary (.intRel .w32 .ne)),
    (0x48, binary (.intRel .w32 .ltS)), (0x49, binary (.intRel .w32 .ltU)),
    (0x4a, binary (.intRel .w32 .gtS)), (0x4b, binary (.intRel .w32 .gtU)),
    (0x4c, binary (.intRel .w32 .leS)), (0x4d, binary (.intRel .w32 .leU)),
    (0x4e, binary (.intRel .w32 .geS)), (0x4f, binary (.intRel .w32 .geU)),
    (0x50, unary (.isZero .w64)),
    (0x51, binary (.intRel .w64 .eq)), (0x52, binary (.intRel .w64 .ne)),
    (0x53, binary (.intRel .w64 .ltS)), (0x54, binary (.intRel .w64 .ltU)),
    (0x55, binary (.intRel .w64 .gtS)), (0x56, binary (.intRel .w64 .gtU)),
    (0x57, binary (.intRel .w64 .leS)), (0x58, binary (.intRel .w64 .leU)),
    (0x59, binary (.intRel .w64 .geS)), (0x5a, binary (.intRel .w64 .geU)),
    (0x67, unary (.int .w32 .clz)), (0x68, unary (.int .w32 .ctz)),
    (0x69, unary (.int .w32 .popcnt)),
    (0x6a, binary (.int .w32 .add)), (0x6b, binary (.int .w32 .sub)),
    (0x6c, binary (.int .w32 .mul)),
    (0x6d, binary (.int .w32 .divS)), (0x6e, binary (.int .w32 .divU)),
    (0x6f, binary (.int .w32 .remS)), (0x70, binary (.int .w32 .remU)),
    (0x71, binary (.int .w32 .and)), (0x72, binary (.int .w32 .or)),
    (0x73, binary (.int .w32 .xor)),
    (0x74, binary (.int .w32 .shl)), (0x75, binary (.int .w32 .shrS)),
    (0x76, binary (.int .w32 .shrU)),
    (0x77, binary (.int .w32 .rotl)), (0x78, binary (.int .w32 .rotr)),
    (0x79, unary (.int .w64 .clz)), (0x7a, unary (.int .w64 .ctz)),
    (0x7b, unary (.int .w64 .popcnt)),
    (0x7c, binary (.int .w64 .add)), (0x7d, binary (.int .w64 .sub)),
    (0x7e, binary (.int .w64 .mul)),
    (0x7f, binary (.int .w64 .divS)), (0x80, binary (.int .w64 .divU)),
    (0x81, binary (.int .w64 .remS)), (0x82, binary (.int .w64 .remU)),
    (0x83, binary (.int .w64 .and)), (0x84, binary (.int .w64 .or)),
    (0x85, binary (.int .w64 .xor)),
    (0x86, binary (.int .w64 .shl)), (0x87, binary (.int .w64 .shrS)),
    (0x88, binary (.int .w64 .shrU)),
    (0x89, binary (.int .w64 .rotl)), (0x8a, binary (.int .w64 .rotr)),
    (0xa7, unary (.convert .wrap)),
    (0xac, unary (.convert (.extend true))), (0xad, unary (.convert (.extend false))),
    (0xc0, unary (.convert (.signExtend .w32 8))), (0xc1, unary (.convert (.signExtend .w32 16))),
    (0xc2, unary (.convert (.signExtend .w64 8))), (0xc3, unary (.convert (.signExtend .w64 16))),
    (0xc4, unary (.convert (.signExtend .w64 32)))]

/-- The machine decodes the integer opcodes as the standard lists them. -/
theorem ofOpcode?_of_mem {b : UInt8} {op : NumOp} (h : (b, op) ∈ integers) :
    ofOpcode? b = some op := by
  have hall : ∀ p ∈ integers, ofOpcode? p.1 = some p.2 := by decide +kernel
  exact hall _ h

end NumOp

/-- The opcodes of tests and comparisons, of arithmetic, and of wrapping and extension. -/
def IsIntegerOpcode (b : UInt8) : Prop :=
  0x45 ≤ b ∧ b ≤ 0x5a ∨ 0x67 ≤ b ∧ b ≤ 0x8a ∨ b = 0xa7 ∨ b = 0xac ∨ b = 0xad ∨
    0xc0 ≤ b ∧ b ≤ 0xc4

instance (b : UInt8) : Decidable (IsIntegerOpcode b) := inferInstanceAs (Decidable (_ ∨ _))

theorem isIntegerOpcode_iff (b : UInt8) :
    IsIntegerOpcode b ↔ ∃ op, (b, op) ∈ NumOp.integers := by
  have hcodes : NumOp.integers.map (·.1.toNat) = List.range' 0x45 22 ++ (List.range' 0x67 36 ++
      ([0xa7, 0xac, 0xad] ++ List.range' 0xc0 5)) := by decide +kernel
  have hmem : (∃ op, (b, op) ∈ NumOp.integers) ↔ b.toNat ∈ NumOp.integers.map (·.1.toNat) := by
    simp [UInt8.toNat_inj]
  rw [hmem, hcodes]
  simp only [IsIntegerOpcode, UInt8.le_iff_toNat_le, ← UInt8.toNat_inj, UInt8.reduceToNat,
    List.mem_append, List.mem_range'_1, List.mem_cons, List.not_mem_nil, or_false, or_assoc,
    Nat.lt_succ_iff]

theorem isSome_rule? {b : UInt8} {op : NumOp} (h : (b, op) ∈ NumOp.integers) :
    op.rule?.isSome := by
  have hall : ∀ p ∈ NumOp.integers, p.2.rule?.isSome := by decide +kernel
  exact hall _ h

/-! ## Operators follow their rules -/

namespace NumOp

theorem map_write (w : Width) (r : Except Trap (BitVec w.bits)) :
    r.map w.write = (r.map BitVec.toNat).map .ofNat := by
  cases r with
  | error t => rfl
  | ok v => exact congrArg Except.ok (w.write_eq v)

/-- **The integer operators follow their rules.** -/
theorem isFollowedBy_of_rule? {op : NumOp} {rule : IntegerRule} (h : op.rule? = some rule) :
    rule.IsFollowedBy op := by
  match op with
  | unary (.isZero w) =>
    cases h
    intro x
    rw [UnaryOp.eval, Slot.ofBool_eq, ← Width.toNat_read, beq_eq_decide]
    simp only [IntBinOp.eq_zero_iff]
  | unary (.int w op) =>
    cases h
    intro x
    rw [UnaryOp.eval, Width.write_eq, IntUnOp.toNat_eval, Width.toNat_read]
  | unary (.convert .wrap) =>
    cases h
    intro x
    have hmod : Width.w64.number x % 2 ^ 32 = Width.w32.number x :=
      Nat.mod_mod_of_dvd _ (Nat.pow_dvd_pow 2 (by decide))
    refine congrArg Except.ok ((Width.write_eq ..).trans ?_)
    rw [Width.toNat_read, ← hmod]
  | unary (.convert (.extend true)) =>
    cases h
    intro x
    refine congrArg Except.ok ((Slot.ofBitVec_eq _).trans ?_)
    rw [Binary.toNat_signExtend, Width.toNat_read]
  | unary (.convert (.extend false)) =>
    cases h
    intro x
    refine congrArg Except.ok ((Width.write_eq ..).trans ?_)
    rw [Width.toNat_read, id]
  | unary (.convert (.signExtend w n)) =>
    cases h
    intro x
    refine congrArg Except.ok ((Width.write_eq ..).trans ?_)
    rw [Binary.toNat_signExtend, BitVec.toNat_setWidth, Width.toNat_read]
  | binary (.intRel w op) =>
    cases h
    intro x y
    rw [BinaryOp.eval, Slot.ofBool_eq, IntRelOp.eval_eq, Width.toNat_read, Width.toNat_read]
    rfl
  | binary (.int w op) =>
    cases h
    intro x y
    rw [BinaryOp.eval, map_write, IntBinOp.toNat_eval w.bits_pos, Width.toNat_read,
      Width.toNat_read]

end NumOp

/-! ## Results and traps -/

/-- The opcodes of divisions and remainders. -/
def IsDivision (b : UInt8) : Prop := 0x6d ≤ b ∧ b ≤ 0x70 ∨ 0x7f ≤ b ∧ b ≤ 0x82

/-- The opcodes of signed divisions. -/
def IsSignedDivision (b : UInt8) : Prop := b = 0x6d ∨ b = 0x7f

instance (b : UInt8) : Decidable (IsDivision b) := inferInstanceAs (Decidable (_ ∨ _))

instance (b : UInt8) : Decidable (IsSignedDivision b) := inferInstanceAs (Decidable (_ ∨ _))

namespace NumOp

/-- Whether an operator divides. -/
def divides : NumOp → Bool
  | binary (.int _ op) => op.divides
  | _ => false

/-- Whether an operator yields a signed quotient. -/
def dividesSigned : NumOp → Bool
  | binary (.int _ op) => op = .divS
  | _ => false

theorem isDivision_iff {b : UInt8} {op : NumOp} (h : (b, op) ∈ integers) :
    IsDivision b ↔ op.divides := by
  have hall : ∀ p ∈ integers, IsDivision p.1 ↔ p.2.divides := by decide +kernel
  exact hall _ h

theorem isSignedDivision_iff {b : UInt8} {op : NumOp} (h : (b, op) ∈ integers) :
    IsSignedDivision b ↔ op.dividesSigned := by
  have hall : ∀ p ∈ integers, IsSignedDivision p.1 ↔ p.2.dividesSigned := by decide +kernel
  exact hall _ h

end NumOp

namespace IntegerRule

/-- The results of a rule are numbers of its width. -/
def IsBounded : IntegerRule → Prop
  | unary w w' f => ∀ i < 2 ^ w.bits, f i < 2 ^ w'.bits
  | binary w w' f =>
    ∀ i < 2 ^ w.bits, ∀ j < 2 ^ w.bits, ∀ k, f i j = .ok k → k < 2 ^ w'.bits

/-- A rule traps on a division by zero, on a quotient out of range, and on nothing else. -/
def TrapsAt (b : UInt8) : IntegerRule → Prop
  | unary .. => True
  | binary w _ f => ∀ i j t, f i j = .error t ↔
    t = .integerDivideByZero ∧ IsDivision b ∧ j = 0 ∨
      t = .integerOverflow ∧ IsSignedDivision b ∧ Binary.signed w.bits i = -2 ^ (w.bits - 1) ∧
        Binary.signed w.bits j = -1

end IntegerRule

theorem Width.toNat_bool_lt (w : Width) (b : Bool) : b.toNat < 2 ^ w.bits :=
  Nat.lt_of_le_of_lt b.toNat_le (Nat.one_lt_two_pow (Nat.ne_of_gt w.bits_pos))

namespace NumOp

theorem isBounded_of_rule? {op : NumOp} {rule : IntegerRule} (h : op.rule? = some rule) :
    rule.IsBounded := by
  match op with
  | unary (.isZero w) =>
    cases h
    exact fun i _ => Width.toNat_bool_lt .w32 _
  | unary (.int w op) =>
    cases h
    exact fun i hi => op.count_lt hi
  | unary (.convert .wrap) =>
    cases h
    exact fun i _ => Nat.mod_lt _ (by decide)
  | unary (.convert (.extend true)) =>
    cases h
    exact fun i _ => Binary.ofInt_lt ..
  | unary (.convert (.extend false)) =>
    cases h
    exact fun i hi => Nat.lt_trans hi (by decide)
  | unary (.convert (.signExtend w n)) =>
    cases h
    exact fun i _ => Binary.ofInt_lt ..
  | binary (.intRel w op) =>
    cases h
    intro i _ j _ k hk
    cases hk
    exact Width.toNat_bool_lt .w32 _
  | binary (.int w op) =>
    cases h
    exact fun i hi j hj k hk => IntBinOp.outcome_lt w.bits_pos hi hj hk

theorem trapsAt_of_rule? {b : UInt8} {op : NumOp} {rule : IntegerRule} (hb : (b, op) ∈ integers)
    (h : op.rule? = some rule) : rule.TrapsAt b := by
  match op with
  | unary (.isZero _) | unary (.int _ _) | unary (.convert .wrap)
  | unary (.convert (.extend true)) | unary (.convert (.extend false))
  | unary (.convert (.signExtend _ _)) =>
    cases h
    trivial
  | binary (.intRel w op) =>
    cases h
    intro i j t
    simp [isDivision_iff hb, isSignedDivision_iff hb, divides, dividesSigned]
  | binary (.int w op) =>
    cases h
    intro i j t
    rw [IntBinOp.outcome_eq_error_iff, isDivision_iff hb, isSignedDivision_iff hb]
    simp [divides, dividesSigned]

end NumOp

/-! ## Execution -/

/-- The machine fetches a plain numeric operator, which is its opcode alone. -/
theorem Instr.fetch_numeric {code : ByteArray} {pos : Nat} {b : UInt8} {op : NumOp}
    (table : SideTable) (hbyte : code[pos]? = some b) (hop : NumOp.ofOpcode? b = some op) :
    Instr.fetch code table pos = some (.numeric op, pos + 1) := by
  have hread : Fetch.byte code pos = some (b, pos + 1) := by
    rw [Fetch.byte, hbyte]
    rfl
  refine Fetch.bind_eq_some_iff.2 ⟨pos, pos, rfl, ?_⟩
  refine Fetch.bind_eq_some_iff.2 ⟨b, pos + 1, hread, ?_⟩
  split
  case h_29 =>
    rw [hop]
    rfl
  all_goals exact absurd (NumOp.opcode_bounds hop) (by decide)

/-- What an integer instruction makes of its operands, top first. -/
structure IntegerRule.Explains (rule : IntegerRule) (b : UInt8) (operands : List Slot)
    (outcome : Except Trap Slot) : Prop where
  computed : rule.outcome? operands = some outcome
  /-- A 32-bit result stands under zeros. -/
  clean : rule.target = .w32 → ∀ v, outcome = .ok v → v.toNat < 2 ^ 32
  /-- Of 32-bit operands only the low halves matter. -/
  narrow : rule.source = .w32 → ∀ operands' : List Slot,
    operands'.map UInt64.toUInt32 = operands.map UInt64.toUInt32 →
      rule.outcome? operands' = some outcome
  /-- A trap tells of a division by zero, or of the least number divided by `-1`. -/
  traps : ∀ t, outcome = .error t ↔ ∃ y x, operands = [y, x] ∧
    (t = .integerDivideByZero ∧ IsDivision b ∧ rule.source.number y = 0 ∨
      t = .integerOverflow ∧ IsSignedDivision b ∧
        Binary.signed rule.source.bits (rule.source.number x) = -2 ^ (rule.source.bits - 1) ∧
        Binary.signed rule.source.bits (rule.source.number y) = -1)

namespace IntegerRule

variable {rule : IntegerRule} {b : UInt8}

/-- A rule looks at nothing but the numbers in the operands. -/
theorem outcome?_congr (hsource : rule.source = .w32) {operands operands' : List Slot}
    (h : operands'.map UInt64.toUInt32 = operands.map UInt64.toUInt32) :
    rule.outcome? operands' = rule.outcome? operands := by
  have hnumber : Width.w32.number = UInt32.toNat ∘ UInt64.toUInt32 := rfl
  rw [outcome?, outcome?, hsource, hnumber, ← List.map_map, ← List.map_map, h]

theorem explains_unary {w w' : Width} {f : Nat → Nat} (hbounded : (unary w w' f).IsBounded)
    (x : Slot) : (unary w w' f).Explains b [x] (.ok (.ofNat (f (w.number x)))) where
  computed := rfl
  clean := by
    rintro rfl v hv
    cases hv
    have hlt := hbounded _ (w.number_lt x)
    exact (Width.toNat_ofNat hlt).trans_lt hlt
  narrow hsource operands' h := outcome?_congr hsource h
  traps t := by simp

theorem explains_binary {w w' : Width} {f : Nat → Nat → Except Trap Nat}
    (hbounded : (binary w w' f).IsBounded) (htraps : (binary w w' f).TrapsAt b) (x y : Slot) :
    (binary w w' f).Explains b [y, x] ((f (w.number x) (w.number y)).map .ofNat) where
  computed := rfl
  clean := by
    rintro rfl v hv
    cases hf : f (w.number x) (w.number y) with
    | error t => simp [hf, Except.map] at hv
    | ok k =>
      rw [hf] at hv
      cases hv
      have hlt := hbounded _ (w.number_lt x) _ (w.number_lt y) k hf
      exact (Width.toNat_ofNat hlt).trans_lt hlt
  narrow hsource operands' h := outcome?_congr hsource h
  traps t := by
    have htrap : (f (w.number x) (w.number y)).map UInt64.ofNat = .error t ↔
        f (w.number x) (w.number y) = .error t := by
      cases f (w.number x) (w.number y) <;> simp [Except.map]
    rw [htrap, htraps]
    simp [source]

end IntegerRule

namespace Store

variable {σ : Type} {s : Store σ} {id : InstanceId} {inst : Instance σ} {frame : Frame}
  {callers : List Frame} {b : UInt8} {op : NumOp}

/-- A dispatch loop executes a numeric operator in its frame. -/
theorem dispatch_numeric (hinst : s.instances[id]? = some inst)
    (hfuel : (s.spendFuel id).1 = true) (hbyte : inst.module.bytes[frame.pc]? = some b)
    (hop : NumOp.ofOpcode? b = some op) :
    s.dispatch ⟨id, frame, callers⟩ =
      match { frame with pc := frame.pc + 1 }.numeric op with
      | .ok (.next frame) => (s.spendFuel id).2.resume ⟨id, frame, callers⟩
      | .ok (.leave frame) => (s.spendFuel id).2.leave ⟨id, frame, callers⟩
      | .ok (.outside frame) => (s.spendFuel id).2.execOutside ⟨id, frame, callers⟩ (.numeric op)
      | .error e => (s.spendFuel id).2.finish (.error e) := by
  have hspend : s.spendFuel id = (true, (s.spendFuel id).2) := Prod.ext hfuel rfl
  have hfetch : (s.spendFuel id).2.fetch? id frame.pc = some (.numeric op, frame.pc + 1) := by
    rw [fetch?_of_cores cores_spendFuel, fetch?, hinst]
    exact Instr.fetch_numeric inst.sideTable hbyte hop
  generalize (s.spendFuel id).2 = s₁ at hspend hfetch ⊢
  simp only [dispatch, hspend, hfetch]
  rfl

/-- **Integer instructions compute integer arithmetic.**  Whatever the slots in its operands, an
integer opcode is executed by the rule that the standard has for it: the result takes the place of
the operands, a 32-bit one under zeros, or the call traps for one of the two reasons there are. -/
theorem dispatch_integer (hinst : s.instances[id]? = some inst)
    (hfuel : (s.spendFuel id).1 = true) (hbyte : inst.module.bytes[frame.pc]? = some b)
    (hb : IsIntegerOpcode b) :
    ∃ op rule, (b, op) ∈ NumOp.integers ∧ op.rule? = some rule ∧ ∀ operands rest,
      operands.length = rule.arity → frame.operands = operands ++ rest →
      ∃ outcome, rule.Explains b operands outcome ∧
        s.dispatch ⟨id, frame, callers⟩ =
          match outcome with
          | .ok v => (s.spendFuel id).2.resume
              ⟨id, { frame with pc := frame.pc + 1, operands := v :: rest }, callers⟩
          | .error t => (s.spendFuel id).2.finish (.error (.trap t)) := by
  obtain ⟨op, hmem⟩ := (isIntegerOpcode_iff b).1 hb
  obtain ⟨rule, hrule⟩ := Option.isSome_iff_exists.1 (isSome_rule? hmem)
  refine ⟨op, rule, hmem, hrule, fun operands rest hlen hops => ?_⟩
  rw [dispatch_numeric hinst hfuel hbyte (NumOp.ofOpcode?_of_mem hmem)]
  have hbounded := NumOp.isBounded_of_rule? hrule
  have htraps := NumOp.trapsAt_of_rule? hmem hrule
  have hfollowed := NumOp.isFollowedBy_of_rule? hrule
  match rule, op, hfollowed with
  | .unary w w' f, .unary op, heval =>
    obtain ⟨x, rfl⟩ := List.length_eq_one_iff.1 hlen
    refine ⟨_, IntegerRule.explains_unary hbounded x, ?_⟩
    simp only [Frame.numeric, hops, List.cons_append, List.nil_append, heval x]
    rfl
  | .binary w w' f, .binary op, heval =>
    obtain ⟨y, x, rfl⟩ := List.length_eq_two.1 hlen
    refine ⟨_, IntegerRule.explains_binary hbounded htraps x y, ?_⟩
    simp only [Frame.numeric, hops, List.cons_append, List.nil_append, heval x y]
    cases f (w.number x) (w.number y) <;> rfl

/-- An instance whose code is one signed division. -/
def divider : Instance Unit where
  moduleId := 0
  module := { bytes := ⟨#[0x6d]⟩ }
  sideTable := []
  functions := #[]
  limits := {}
  fuel := none

/-- A store of that instance. -/
def division : Store Unit := { instances := #[divider], host := () }

/-- The least `i32` by `-1`, both under stray bits. -/
def dividing : Frame :=
  { pc := 0, locals := #[], operands := [0xffffffffffffffff, 0x180000000, 7], resultCount := 1,
    below := 0, depth := 1 }

/-- The quotient is no `i32`, and the division traps. -/
theorem dispatch_integer_division : division.instances[0]? = some divider ∧
    (division.spendFuel 0).1 = true ∧ divider.module.bytes[dividing.pc]? = some 0x6d ∧
    IsIntegerOpcode 0x6d ∧ division.dispatch ⟨0, dividing, []⟩ =
      (division.spendFuel 0).2.finish (.error (.trap .integerOverflow)) := by
  have hinst : division.instances[0]? = some divider := rfl
  have hbyte : divider.module.bytes[dividing.pc]? = some 0x6d := rfl
  have hb : IsIntegerOpcode 0x6d := by decide
  obtain ⟨op, rule, hmem, hrule, hall⟩ :=
    @dispatch_integer Unit division 0 divider dividing [] 0x6d hinst rfl hbyte hb
  have hops : ∀ p ∈ NumOp.integers, p.1 = 0x6d → p.2 = .binary (.int .w32 .divS) := by
    decide +kernel
  obtain rfl : op = .binary (.int .w32 .divS) := hops _ hmem rfl
  cases hrule
  obtain ⟨outcome, hexplains, hdispatch⟩ := hall [0xffffffffffffffff, 0x180000000] [7] rfl rfl
  have hoverflow : outcome = .error .integerOverflow :=
    (hexplains.traps _).2 ⟨_, _, rfl, .inr ⟨rfl, by decide, by decide, by decide⟩⟩
  rw [hoverflow] at hdispatch
  exact ⟨hinst, rfl, hbyte, hb, hdispatch⟩

end Store

end WasmEngine
