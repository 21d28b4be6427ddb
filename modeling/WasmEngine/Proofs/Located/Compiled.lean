import WasmEngine.Proofs.Decode.Bodies
import WasmEngine.Proofs.Located.Table
import WasmEngine.Proofs.Typing.Code

/-!
# Proofs/Located/Compiled — the code of compiled modules

In a compiled module every function that is not imported has well-typed code at its place, with a
side table that leads through it: `Module.compile_sound`.  The table is the union of the tables of
the functions, which do not disturb one another because bodies do not overlap.
-/

namespace WasmEngine

/-- The code of a function is what its body encodes.  It lies in the bytes of the module, from the
start of the body up to an `end`, and has the type that the function declares. -/
structure CodeContext.HasCode (c : CodeContext) (table : SideTable) (code : Code)
    (stop : Nat) : Prop where
  encodes : code.EncodesBody
    (c.module.bytes.extract c.function.body.start c.function.body.stop).toList
  lies : code.Lies c table c.function.body.start stop
  ends : ∃ next, Instr.fetch c.module.bytes table stop = some (.endMark, next)
  typed : c.HasBody code

/-! ## The type system does not look at the side table -/

section SideTable

variable {c : CodeContext} {labels : LabelTypes} {code : Code} {p q : Nat} {table : SideTable}

/-- The context with another side table in its module. -/
abbrev CodeContext.withSideTable (c : CodeContext) (s : Option SideTable) : CodeContext :=
  { c with module := { c.module with sideTable := s } }

theorem HasArrow.withSideTable {i : Instr Empty} {ps qs : List OperandType}
    (h : HasArrow c labels i ps qs) (s : Option SideTable) :
    HasArrow (c.withSideTable s) labels i ps qs := by
  cases h <;> constructor <;> assumption

theorem CodeContext.HasType.withSideTable {ts us : List OperandType}
    (h : c.HasType labels code ts us) (s : Option SideTable) :
    (c.withSideTable s).HasType labels code ts us := by
  induction h with
  | nil h => exact .nil h
  | plain h₁ hp _ ih => exact .plain (h₁.withSideTable s) hp ih
  | block hs _ hp _ ih₁ ih₂ => exact .block hs ih₁ hp ih₂
  | loop hs _ hp _ ih₁ ih₂ => exact .loop hs ih₁ hp ih₂
  | ifThen hs heq _ hp _ ih₁ ih₂ => exact .ifThen hs heq ih₁ hp ih₂
  | ifElse hs _ _ hp _ ih₁ ih₂ ih₃ => exact .ifElse hs ih₁ ih₂ hp ih₃

theorem Code.Lies.withSideTable (h : code.Lies c table p q) (s : Option SideTable) :
    code.Lies (c.withSideTable s) table p q := by
  induction h with
  | nil => exact .nil
  | plain h _ ih => exact .plain h ih
  | block hs h _ hend _ ih₁ ih₂ => exact .block hs h ih₁ hend ih₂
  | loop hs h _ hend _ ih₁ ih₂ => exact .loop hs h ih₁ hend ih₂
  | ifThen hs h _ hend _ ih₁ ih₂ => exact .ifThen hs h ih₁ hend ih₂
  | ifElse hs h _ hmark _ hend _ ih₁ ih₂ ih₃ => exact .ifElse hs h ih₁ hmark ih₂ hend ih₃

theorem CodeContext.HasCode.withSideTable {stop : Nat} (h : c.HasCode table code stop)
    (s : Option SideTable) : (c.withSideTable s).HasCode table code stop :=
  ⟨h.encodes, h.lies.withSideTable s, h.ends, CodeContext.HasType.withSideTable h.typed s⟩

end SideTable

namespace Module

variable {m : Module} {func : Nat} {f : Function} {table t : SideTable}

/-- **A function that the checker passes has well-typed code in its place**, with any table that
holds the entries found. -/
theorem exists_hasCode_of_validateFunction (hf : m.functions[func]? = some f)
    (hfits : f.Fits m.bytes) (h : m.validateFunction func = .ok t)
    (hfind : ∀ p jump, t.find? p = some jump → table.find? p = some jump) :
    ∃ code stop, CodeContext.HasCode ⟨m, f⟩ table code stop := by
  have hstop := hfits.stop_le
  obtain ⟨code, q, t', entries, hp, hr, hfin, rfl⟩ := exists_passes_of_validateFunction hf hstop h
  have hencodes := encodesBody_of_passes hfits.start_le hstop hp hr
  obtain ⟨us, hus, hres⟩ := hfin.admits
  obtain ⟨held, dead, rfl⟩ := hp.exists_withStack hstop
  obtain ⟨ts, hts, htype⟩ := hp.exists_hasType hstop hus
  obtain rfl : ts = [] := hts.eq_of_reachable
  obtain ⟨-, hkeys⟩ := hp.keysIn hstop
  refine ⟨code, q, hencodes, ?_, ⟨_, fetch_of_reads_embed (i := .endMark) hstop rfl hr⟩,
    htype.mono hres⟩
  exact hp.lies hstop rfl fun e he =>
    hfind e.1 e.2 (SideTable.find?_insertAll_of_mem hkeys.nodup he)

/-- The entries of a function are those of opcodes in its body. -/
theorem bounds_of_validateFunction {p : Nat} {jump : BlockJump} (hf : m.functions[func]? = some f)
    (hstop : f.body.stop ≤ m.bytes.size) (h : m.validateFunction func = .ok t)
    (hfind : t.find? p = some jump) : f.body.start ≤ p ∧ p < f.body.stop := by
  obtain ⟨code, q, t', entries, hp, hr, -, rfl⟩ := exists_passes_of_validateFunction hf hstop h
  obtain ⟨e, he, rfl⟩ := List.mem_map.1 (SideTable.mem_of_find?_insertAll_nil hfind)
  have hbounds := (hp.keysIn hstop).2.bounds e he
  have hlt := hr.lt hstop
  omega

theorem isSorted_of_validateFunction (hf : m.functions[func]? = some f)
    (hstop : f.body.stop ≤ m.bytes.size) (h : m.validateFunction func = .ok t) : t.IsSorted := by
  obtain ⟨code, q, t', entries, -, -, -, rfl⟩ := exists_passes_of_validateFunction hf hstop h
  exact SideTable.isSorted_insertAll .nil

theorem validateFunctions_cons_eq_ok_iff {funcs : List Nat} :
    m.validateFunctions (func :: funcs) = .ok table ↔
      ∃ t others, m.validateFunction func = .ok t ∧ m.validateFunctions funcs = .ok others ∧
        table = others.insertAll t := by
  rw [validateFunctions]
  cases m.validateFunction func with
  | error e => exact ⟨nofun, nofun⟩
  | ok t =>
    cases m.validateFunctions funcs with
    | error e => exact ⟨nofun, nofun⟩
    | ok others =>
      constructor
      · rintro ⟨⟩
        exact ⟨t, others, rfl, rfl, rfl⟩
      · rintro ⟨_, _, ⟨⟩, ⟨⟩, rfl⟩
        rfl

/-- **The tables of functions do not disturb one another** in the union of all. -/
theorem find?_validateFunctions (hs : m.Sound) {funcs : List Nat}
    (hfuncs : ∀ func ∈ funcs, ∃ f, m.functions[func]? = some f ∧ f.imported = none)
    (hsorted : funcs.Pairwise (· < ·)) (h : m.validateFunctions funcs = .ok table) :
    ∀ func ∈ funcs, ∃ t, m.validateFunction func = .ok t ∧
      ∀ p jump, t.find? p = some jump → table.find? p = some jump := by
  induction funcs generalizing table with
  | nil => exact nofun
  | cons func funcs ih =>
    obtain ⟨t, others, ht, hothers, rfl⟩ := validateFunctions_cons_eq_ok_iff.1 h
    obtain ⟨hlt, hsorted⟩ := List.pairwise_cons.1 hsorted
    obtain ⟨⟨f, hf, hl⟩, hfuncs⟩ := List.forall_mem_cons.1 hfuncs
    have hfits := hs.fits func f hf hl
    have ht' := isSorted_of_validateFunction hf hfits.stop_le ht
    refine List.forall_mem_cons.2 ⟨⟨t, ht, fun p jump hp => ?_⟩, fun other hother => ?_⟩
    · exact SideTable.find?_insertAll_of_mem ht'.nodup ((SideTable.find?_eq_some_iff ht').1 hp)
    · obtain ⟨t₁, ht₁, hfind⟩ := ih hfuncs hsorted hothers other hother
      obtain ⟨g, hg, hl'⟩ := hfuncs other hother
      refine ⟨t₁, ht₁, fun p jump hp => ?_⟩
      rw [SideTable.find?_insertAll_of_not_mem, hfind p jump hp]
      -- The body of `func` ends before that of `other` starts.
      intro hmem
      obtain ⟨e, he, rfl⟩ := List.mem_map.1 hmem
      have hown := bounds_of_validateFunction hf hfits.stop_le ht
        ((SideTable.find?_eq_some_iff ht').2 he)
      have hbounds := bounds_of_validateFunction hg (hs.fits other g hg hl').stop_le ht₁ hp
      have hapart := hs.apart func other f g hf hg hl (hlt other hother)
      omega

/-! ## The functions that a module defines -/

/-- Whether a module has a function of its own at an index. -/
def Defines (m : Module) (func : Nat) : Prop :=
  ∃ f, m.functions[func]? = some f ∧ f.imported = none

/-- The indices of the functions that a module defines, in the order in which they are validated. -/
abbrev definedIndices (m : Module) : List Nat :=
  (List.range (m.functions.size - m.importedCount)).map (m.importedCount + ·)

theorem mem_definedIndices_iff (h : m.Sound) : func ∈ m.definedIndices ↔ m.Defines func := by
  rw [List.mem_map]
  constructor
  · rintro ⟨i, hi, rfl⟩
    have hlt : m.importedCount + i < m.functions.size := by
      have := List.mem_range.1 hi
      omega
    refine ⟨_, Array.getElem?_eq_getElem hlt, Option.not_isSome_iff_eq_none.1 fun hsome => ?_⟩
    have := (h.imported _ _ (Array.getElem?_eq_getElem hlt)).1 hsome
    omega
  · rintro ⟨f, hf, hl⟩
    have hle : m.importedCount ≤ func := Nat.le_of_not_lt fun hlt => by
      simpa [hl] using (h.imported func f hf).2 hlt
    have hlt := (Array.getElem?_eq_some_iff.1 hf).1
    exact ⟨func - m.importedCount, List.mem_range.2 (by omega), by omega⟩

theorem pairwise_definedIndices (m : Module) : m.definedIndices.Pairwise (· < ·) :=
  List.pairwise_map.2 (List.pairwise_lt_range.imp fun h => Nat.add_lt_add_left h _)

/-! ## Compiled modules -/

/-- What compilation promises about a module and its side table. -/
structure IsCompiled (m : Module) (table : SideTable) : Prop where
  sideTable_eq : m.sideTable = some table
  sound : m.Sound
  hasValidStart : m.HasValidStart
  /-- Every function that is not imported has well-typed code. -/
  hasCode : ∀ (i : Nat) (f : Function), m.functions[i]? = some f → f.imported = none →
    ∃ code stop, CodeContext.HasCode ⟨m, f⟩ table code stop

theorem validate_eq_ok_iff {m' : Module} (h : m.sideTable = none) :
    m.validate = .ok m' ↔ ∃ table, m.validateFunctions m.definedIndices = .ok table ∧
      m.HasValidStart ∧ m' = { m with sideTable := some table } := by
  rw [validate, h]
  cases m.validateFunctions m.definedIndices with
  | error e =>
    constructor
    · exact nofun
    · rintro ⟨_, ⟨⟩, _⟩
  | ok table =>
    by_cases hstart : m.HasValidStart
    · simp [bind, Except.bind, pure, Except.pure, hstart, eq_comm]
    · simp [bind, Except.bind, hstart, throw, throwThe, MonadExceptOf.throw]

theorem compile_eq_ok_iff {bytes : ByteArray} :
    compile bytes = .ok m ↔ ∃ d, decode bytes = .ok d ∧ d.validate = .ok m := by
  rw [compile]
  cases decode bytes with
  | error e => simp [bind, Except.bind]
  | ok d => exact ⟨fun h => ⟨d, rfl, h⟩, fun ⟨_, hd, h⟩ => Except.ok.inj hd ▸ h⟩

/-- **Compiled modules** have well-typed code in its place. -/
theorem compile_sound {bytes : ByteArray} {m : Module} (h : compile bytes = .ok m) :
    m.bytes = bytes ∧ ∃ table, m.IsCompiled table := by
  obtain ⟨d, hd, h⟩ := compile_eq_ok_iff.1 h
  obtain ⟨hs, hbytes, hnone⟩ := decode_sound hd
  obtain ⟨table, htable, hstart, rfl⟩ := (validate_eq_ok_iff hnone).1 h
  refine ⟨hbytes, table, rfl, ⟨hs.imported, hs.importedCount_le, hs.fits, hs.apart, hs.exports,
    hs.start, hs.elements⟩, hstart, fun i f hf hl => ?_⟩
  replace hf : d.functions[i]? = some f := hf
  obtain ⟨t, ht, hfind⟩ := find?_validateFunctions hs (fun func => (mem_definedIndices_iff hs).1)
    (pairwise_definedIndices d) htable i ((mem_definedIndices_iff hs).2 ⟨f, hf, hl⟩)
  obtain ⟨code, stop, hcode⟩ :=
    exists_hasCode_of_validateFunction hf (hs.fits i f hf hl) ht hfind
  exact ⟨code, stop, hcode.withSideTable (some table)⟩

end Module

end WasmEngine
