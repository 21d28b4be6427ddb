import WasmEngine.Proofs.Blame.Body
import WasmEngine.Proofs.Blame.Replaced
import WasmEngine.Proofs.Located.Exact

/-!
# Proofs/Blame/First — violations are blamed on the first offending instruction

When the validation of a function finds a violation, it is blamed on the first instruction of the body
that is not accepted, and what stands behind that instruction has no part in it: with other bytes there
the module decodes as before and the same violation is found (`Module.Blames`).  Compilation finds what
is wrong with the first function that does not pass (`Module.violation_first`).
-/

namespace WasmEngine.Module

variable {bytes bytes' : ByteArray} {m : Module} {func : Nat} {f : Function} {cause : Violation}
  {site : Option CodeSite} {offset stop : Nat} {e : Error} {funcs : List Nat}

/-! ## Other bytes -/

theorem instr_over (s : InstrSpan) (i : Instr BlockType) :
    Check.instr ⟨{ m with bytes }, f⟩ s i = Check.instr ⟨m, f⟩ s i := by
  cases i <;> rfl

/-- **The typing rules do not look at bytes.** -/
theorem validateCode_over (left : Nat) (t : Typing) (table : SideTable) :
    validateCode ⟨{ m with bytes }, f⟩ func left t table = validateCode ⟨m, f⟩ func left t table := by
  have hinstr (t : Typing) : validateInstr ⟨{ m with bytes }, f⟩ t = validateInstr ⟨m, f⟩ t := by
    simp only [validateInstr, instr_over]
  induction left generalizing t table with
  | zero => rfl
  | succ left ih => simp only [validateCode, hinstr, ih]

/-! ## Functions -/

theorem validateFunction_eq_violation_iff (hf : m.functions[func]? = some f) :
    m.validateFunction func = .error (.validation cause site) ↔
      validateCode ⟨m, f⟩ func (f.body.length + 1) (initialTyping f) [] ⟨m.bytes, f.body.stop⟩
        f.body.start = .error (.validation cause site) := by
  rw [validateFunction, hf]
  change (validateCode ⟨m, f⟩ func (f.body.length + 1) (initialTyping f) [] ⟨m.bytes, f.body.stop⟩
    f.body.start >>= _) = _ ↔ _
  rcases validateCode ⟨m, f⟩ func (f.body.length + 1) (initialTyping f) [] ⟨m.bytes, f.body.stop⟩
    f.body.start with e | ⟨table, pos⟩
  · simp [bind, Except.bind]
  · by_cases hpos : pos = f.body.stop
    · simp [bind, Except.bind, pure, Except.pure, hpos]
    · simp [bind, Except.bind, hpos, throw, throwThe, MonadExceptOf.throw]

/-- A violation in the body of a function is found at the instruction at `offset`, from the bytes
before `stop`. -/
structure Blames (m : Module) (func : Nat) (f : Function) (cause : Violation) (offset stop : Nat) :
    Prop where
  start_le : f.body.start ≤ offset
  lt_stop : offset < stop
  stop_le : stop ≤ f.body.stop
  /-- The instructions before are read and accepted one after the other, and this one is not. -/
  reached : ∃ t, CodeContext.Accepted ⟨m, f⟩ ⟨m.bytes, f.body.stop⟩ f.body.start (initialTyping f)
      offset t ∧
    ∃ site, validateInstr ⟨m, f⟩ t ⟨m.bytes, f.body.stop⟩ offset = .error (.validation cause site)
  /-- Nothing behind the last immediate of the instruction is needed. -/
  within : ∀ next bs i, Window.Spells ⟨m.bytes, f.body.stop⟩ offset bs next → Instr.Encodes i bs →
    stop ≤ next
  /-- The violation is found as soon as the bytes before `stop` have been read. -/
  found : ∀ q ≤ f.body.stop, validateCode ⟨m, f⟩ func (f.body.length + 1) (initialTyping f) []
      ⟨m.bytes, q⟩ f.body.start = .error (.validation cause (some ⟨func, offset⟩)) ↔ stop ≤ q
  /-- Whatever bytes stand in the rest of the body, the violation is the same. -/
  replaced : ∀ bytes' : ByteArray, bytes'.size = m.bytes.size →
    (∀ p, p < stop ∨ f.body.stop ≤ p → bytes'[p]? = m.bytes[p]?) →
      decode bytes' = .ok { m with bytes := bytes' } ∧
      ({ m with bytes := bytes' } : Module).validateFunction func =
        .error (.validation cause (some ⟨func, offset⟩))

/-- The bytes before some place decide a violation that is found from them. -/
theorem validateFunction_replaced (hf : m.functions[func]? = some f) (hstop : stop ≤ f.body.stop)
    (hbody : f.body.stop ≤ m.bytes.size)
    (h : validateCode ⟨m, f⟩ func (f.body.length + 1) (initialTyping f) [] ⟨m.bytes, stop⟩
      f.body.start = .error (.validation cause site))
    (hsize : bytes'.size = m.bytes.size) (hget : ∀ p, p < stop → bytes'[p]? = m.bytes[p]?) :
    ({ m with bytes := bytes' } : Module).validateFunction func = .error (.validation cause site) := by
  have hbegins : Window.Begins ⟨m.bytes, stop⟩ ⟨bytes', f.body.stop⟩ := by
    refine ⟨Nat.le_trans hstop hbody, hsize ▸ hbody, fun p b hb => ?_⟩
    obtain ⟨hlt, hb⟩ := Window.get?_eq_some_iff.1 hb
    exact Window.get?_eq_some_iff.2 ⟨Nat.lt_of_lt_of_le hlt hstop, (hget p hlt).trans hb⟩
  refine (validateFunction_eq_violation_iff (m := { m with bytes := bytes' }) hf).2 ?_
  rw [validateCode_over]
  refine (settles_validateCode _ _ _ _ _ hbegins ?_).trans h
  rw [h]
  rintro _ ⟨⟩
  trivial

/-- **A violation in a function is blamed** on an instruction of its body. -/
theorem exists_blames (h : decode bytes = .ok m) (hf : m.functions[func]? = some f)
    (hl : f.imported = none) (hviolation : m.validateFunction func = .error (.validation cause site)) :
    ∃ offset stop, site = some ⟨func, offset⟩ ∧ m.Blames func f cause offset stop := by
  obtain ⟨hsound, rfl, -⟩ := decode_sound h
  obtain ⟨hstart, hbody, -⟩ := hsound.fits func f hf hl
  have hrun := (validateFunction_eq_violation_iff hf).1 hviolation
  obtain ⟨offset, t, rfl, haccepted, -, hfail⟩ := exists_accepted_of_violation hrun
  obtain ⟨stop, hlt, hstop, hwithin, hfound⟩ := exists_extent hbody hrun
  have hle := haccepted.le hbody
  have hfunc : m.importedCount ≤ func := Nat.le_of_not_lt fun hlt => by
    simpa [hl] using (hsound.imported func f hf).2 hlt
  refine ⟨offset, stop, rfl, hle, hlt, hstop, ⟨t, haccepted, hfail⟩, hwithin, hfound,
    fun bytes' hsize hget => ⟨?_, ?_⟩⟩
  · exact decode_replaced h hf hfunc hsize fun p hp => hget p (by omega)
  · exact validateFunction_replaced hf hstop hbody ((hfound stop hstop).2 (Nat.le_refl _)) hsize
      fun p hp => hget p (.inl hp)

/-! ## Modules -/

/-- **Functions are validated in order**: the first that does not pass decides. -/
theorem validateFunctions_eq_error (hsorted : funcs.Pairwise (· < ·)) (hmem : func ∈ funcs)
    (h : m.validateFunction func = .error e)
    (hbefore : ∀ other ∈ funcs, other < func → ∃ table, m.validateFunction other = .ok table) :
    m.validateFunctions funcs = .error e := by
  induction funcs with
  | nil => cases hmem
  | cons first funcs ih =>
    obtain ⟨hlt, hsorted⟩ := List.pairwise_cons.1 hsorted
    rw [validateFunctions]
    rcases List.mem_cons.1 hmem with rfl | hmem
    · rw [h]
      rfl
    · obtain ⟨table, htable⟩ := hbefore first List.mem_cons_self (hlt func hmem)
      rw [htable]
      change (m.validateFunctions funcs >>= _) = _
      rw [ih hsorted hmem fun other hother => hbefore other (List.mem_cons_of_mem _ hother)]
      rfl

/-- **Violations are blamed on the first offending instruction** of a function, and compilation finds
what is wrong with the first function that does not pass. -/
theorem violation_first (h : decode bytes = .ok m) :
    (∀ func f cause site, m.functions[func]? = some f → f.imported = none →
      m.validateFunction func = .error (.validation cause site) →
        ∃ offset stop, site = some ⟨func, offset⟩ ∧ m.Blames func f cause offset stop) ∧
    (∀ func e, m.Defines func → m.validateFunction func = .error e →
      (∀ other < func, m.Defines other → ∃ table, m.validateFunction other = .ok table) →
        compile bytes = .error e) := by
  refine ⟨fun func f cause site hf hl => exists_blames h hf hl, fun func e hfunc he hbefore => ?_⟩
  obtain ⟨hsound, -, hnone⟩ := decode_sound h
  have hall := validateFunctions_eq_error (pairwise_definedIndices m)
    ((mem_definedIndices_iff hsound).2 hfunc) he
    fun other hother hlt => hbefore other hlt ((mem_definedIndices_iff hsound).1 hother)
  rw [compile, h]
  change m.validate = _
  rw [validate, hnone, hall]
  rfl

/-- A module whose second function gets a local that it does not have. -/
def strayBytes : ByteArray :=
  ⟨#[0x00, 0x61, 0x73, 0x6d, 0x01, 0x00, 0x00, 0x00, 0x01, 0x04, 0x01, 0x60, 0x00, 0x00,
    0x03, 0x03, 0x02, 0x00, 0x00, 0x0a, 0x0b, 0x02, 0x02, 0x00, 0x0b,
    0x06, 0x00, 0x01, 0x20, 0x05, 0x0f, 0x0b]⟩

/-- What `strayBytes` decode to. -/
def stray : Module :=
  { bytes := strayBytes, types := #[{}]
    functions := #[{ typeIndex := 0, type := {}, body := ⟨24, 25⟩ },
      { typeIndex := 0, type := {}, body := ⟨27, 32⟩ }] }

/-- The second function is blamed for the access, whatever stands behind it. -/
theorem violation_first_stray : decode strayBytes = .ok stray ∧
    (∃ stop, stray.Blames 1 { typeIndex := 0, type := {}, body := ⟨27, 32⟩ } .unknownLocal 28 stop) ∧
    compile strayBytes = .error (.validation .unknownLocal (some ⟨1, 28⟩)) := by
  have hdecode : decode strayBytes = .ok stray := by decide +kernel
  have hfirst : stray.validateFunction 0 = .ok [] := by decide +kernel
  have hsecond : stray.validateFunction 1 = .error (.validation .unknownLocal (some ⟨1, 28⟩)) := by
    decide +kernel
  obtain ⟨hblames, hcompile⟩ := violation_first hdecode
  refine ⟨hdecode, ?_, hcompile 1 _ ⟨_, rfl, rfl⟩ hsecond fun other hlt _ => ?_⟩
  · obtain ⟨_, stop, ⟨⟩, hstop⟩ := hblames 1 _ _ _ rfl rfl hsecond
    exact ⟨stop, hstop⟩
  · obtain rfl : other = 0 := by omega
    exact ⟨_, hfirst⟩

end WasmEngine.Module
