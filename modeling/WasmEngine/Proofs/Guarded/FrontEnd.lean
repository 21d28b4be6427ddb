import WasmEngine.Proofs.Decode.Consistent
import WasmEngine.Proofs.Guarded.Decode
import WasmEngine.Proofs.Guarded.Rules
import WasmEngine.Typing.Validate

/-!
# Proofs/Guarded/FrontEnd — no bytes crash the front end

Decoding, compiling and the validation of every function of a decoded module, with all accesses
checked: `front_end_guarded` says that no check fails, whatever the bytes, that the results are those
of `Module.decode`, `Module.compile` and `Module.validateFunction`, and that a failure of these is a
rejection.
-/

namespace WasmEngine.Guarded

variable {w : Window} {pos : Nat}

/-! ## Instructions -/

/-- Reads a block type. -/
def blockType : Guarded BlockType := do
  let b ← peek
  if b = 0x40 then
    advance 1
    pure .empty
  else
    match ValType.ofByte? b with
    | some t =>
      advance 1
      pure (.value t)
    | none =>
      match ← signed 33 with
      | .ofNat n => pure (.index n)
      | .negSucc _ => invalid .unknownType

/-- Reads the immediates of an access to memory. -/
def memArg : Guarded MemArg := do
  let align ← u32
  let offset ← u32
  pure { align, offset := offset.toUInt32 }

/-- Reads a byte that must be zero. -/
def zeroByte : Guarded Unit := do
  if (← byte) ≠ 0 then malformed .zeroByteExpected

/-- Refuses to go on in a module without memory. -/
def needMemory (hasMemory : Bool) : Guarded Unit :=
  if hasMemory then pure () else invalid .unknownMemory

/-- Reads a little-endian word of `n` bytes. -/
def word (n : Nat) : Guarded Nat := do
  let start ← skip n
  let bytes ← slice start (start + n)
  pure (bytes.foldr (fun b acc => b.toNat + 256 * acc) 0)

/-- Reads what follows the byte `0xfc` and the number `code`. -/
def readExtended (hasMemory : Bool) (code : Nat) : Guarded (Instr BlockType) := do
  match code with
  | 10 =>
    needMemory hasMemory
    zeroByte
    zeroByte
    pure .memoryCopy
  | 11 =>
    needMemory hasMemory
    zeroByte
    pure .memoryFill
  | code =>
    match NumOp.saturating[code]? with
    | some op => pure (.numeric op)
    | none => malformed .unknownInstruction

/-- Reads what follows an opcode. -/
def readImmediates (hasMemory : Bool) (op : UInt8) : Guarded (Instr BlockType) := do
  match op with
  | 0x00 => pure .unreachable
  | 0x01 => pure .nop
  | 0x02 => .block <$> blockType
  | 0x03 => .loop <$> blockType
  | 0x04 => .ifThen <$> blockType
  | 0x05 => pure .elseMark
  | 0x0b => pure .endMark
  | 0x0c => .br <$> u32
  | 0x0d => .brIf <$> u32
  | 0x0e =>
    let targets ← replicate (← u32) u32
    .brTable targets <$> u32
  | 0x0f => pure .ret
  | 0x10 => .call <$> u32
  | 0x11 =>
    let type ← u32
    .callIndirect type <$> u32
  | 0x1a => pure .drop
  | 0x1b => pure (.select none)
  | 0x1c =>
    if (← u32) ≠ 1 then invalid .resultArity
    .select <$> some <$> valType
  | 0x20 => .localGet <$> u32
  | 0x21 => .localSet <$> u32
  | 0x22 => .localTee <$> u32
  | 0x23 => .globalGet <$> u32
  | 0x24 => .globalSet <$> u32
  | 0x3f =>
    needMemory hasMemory
    zeroByte
    pure .memorySize
  | 0x40 =>
    needMemory hasMemory
    zeroByte
    pure .memoryGrow
  | 0x41 => return .const (.i32 (Int32.ofInt (← signed 32)).toUInt32)
  | 0x42 => return .const (.i64 (Int64.ofInt (← signed 64)).toUInt64)
  | 0x43 => return .const (.f32 (← word 4).toUInt32)
  | 0x44 => return .const (.f64 (← word 8).toUInt64)
  | 0xfc => readExtended hasMemory (← u32)
  | _ =>
    if let some loadOp := LoadOp.ofOpcode? op then
      needMemory hasMemory
      .load loadOp <$> memArg
    else if let some storeOp := StoreOp.ofOpcode? op then
      needMemory hasMemory
      .store storeOp <$> memArg
    else if let some numOp := NumOp.ofOpcode? op then
      pure (.numeric numOp)
    else malformed .unknownInstruction

/-- Reads an instruction. -/
def readInstr (hasMemory : Bool) : Guarded (Instr BlockType) := do
  readImmediates hasMemory (← byte)

/-- Any result will do. -/
theorem Follows.trivially {α β : Type} {g : Guarded α} {r : Reader α} {P : α → Nat → Prop}
    (f : α → β) (h : Follows g r w pos P) : Follows (f <$> g) (f <$> r) w pos fun _ _ => True :=
  h.map fun _ _ _ => trivial

theorem follows_blockType : Follows blockType BlockType.read w pos fun _ _ => True := by
  refine follows_peek.bind fun b _ _ h => ?_
  obtain ⟨hget, rfl⟩ := h
  refine .ite (fun _ => (follows_advance_one hget).bind fun _ _ _ _ => follows_pure trivial)
    fun _ => ?_
  cases ValType.ofByte? b with
  | some t => exact (follows_advance_one hget).bind fun _ _ _ _ => follows_pure trivial
  | none =>
    refine (follows_signed (by decide)).bind fun n _ _ _ => ?_
    cases n with
    | ofNat n => exact follows_pure trivial
    | negSucc n => exact follows_invalid _

theorem follows_memArg : Follows memArg Instr.memArg w pos fun _ _ => True :=
  follows_u32.bind fun _ _ _ _ => follows_u32.bind fun _ _ _ _ => follows_pure trivial

theorem follows_zeroByte : Follows zeroByte Instr.zeroByte w pos fun _ _ => True :=
  follows_byte.bind fun _ _ _ _ => .ite (fun _ => follows_malformed _) fun _ => follows_pure trivial

theorem follows_needMemory (hasMemory : Bool) :
    Follows (needMemory hasMemory) (Instr.needMemory hasMemory) w pos fun _ _ => True :=
  .ite (fun _ => follows_pure trivial) fun _ => follows_invalid _

theorem follows_word (n : Nat) : Follows (word n) (Instr.word n) w pos fun _ _ => True := by
  have hword : Instr.word n = (do
      let start ← Reader.skip n
      let bytes ← (fun w : Window => (w.bytes.extract start (start + n)).toList) <$> read
      pure (bytes.foldr (fun b acc => b.toNat + 256 * acc) 0)) := rfl
  rw [hword]
  refine (follows_skip n).bind fun start next _ h => ?_
  obtain ⟨rfl, rfl⟩ := h
  exact .of_isSlice fun _ hpos => (follows_slice (Nat.le_add_right ..) hpos).bind
    fun _ _ _ _ => follows_pure trivial

theorem follows_readExtended (hasMemory : Bool) :
    Follows (do readExtended hasMemory (← u32)) (Instr.readExtended hasMemory) w pos
      fun _ _ => True := by
  refine follows_u32.bind fun code _ _ _ => ?_
  split
  · exact (follows_needMemory _).bind fun _ _ _ _ => follows_zeroByte.bind
      fun _ _ _ _ => follows_zeroByte.bind fun _ _ _ _ => follows_pure trivial
  · exact (follows_needMemory _).bind fun _ _ _ _ => follows_zeroByte.bind
      fun _ _ _ _ => follows_pure trivial
  · unfold readExtended
    split
    all_goals try contradiction
    cases NumOp.saturating[code]? with
    | some op => exact follows_pure trivial
    | none => exact follows_malformed _

theorem follows_readInstr (hasMemory : Bool) :
    Follows (readInstr hasMemory) (Instr.read hasMemory) w pos fun _ _ => True := by
  refine follows_byte.bind fun op _ _ _ => ?_
  split
  · exact follows_pure trivial
  · exact follows_pure trivial
  · exact follows_blockType.trivially _
  · exact follows_blockType.trivially _
  · exact follows_blockType.trivially _
  · exact follows_pure trivial
  · exact follows_pure trivial
  · exact follows_u32.trivially _
  · exact follows_u32.trivially _
  · exact follows_u32.bind fun n _ _ _ => (follows_replicate (P := fun _ => True)
      (fun _ => follows_u32.mono fun _ _ _ => trivial) n).bind fun _ _ _ _ => follows_u32.trivially _
  · exact follows_pure trivial
  · exact follows_u32.trivially _
  · exact follows_u32.bind fun _ _ _ _ => follows_u32.trivially _
  · exact follows_pure trivial
  · exact follows_pure trivial
  · exact follows_u32.bind fun _ _ _ _ => .ite (fun _ => follows_invalid_bind _)
      fun _ => (follows_valType.trivially some).trivially _
  · exact follows_u32.trivially _
  · exact follows_u32.trivially _
  · exact follows_u32.trivially _
  · exact follows_u32.trivially _
  · exact follows_u32.trivially _
  · exact (follows_needMemory _).bind fun _ _ _ _ => follows_zeroByte.bind
      fun _ _ _ _ => follows_pure trivial
  · exact (follows_needMemory _).bind fun _ _ _ _ => follows_zeroByte.bind
      fun _ _ _ _ => follows_pure trivial
  · exact (follows_signed (by decide)).bind fun _ _ _ _ => follows_pure trivial
  · exact (follows_signed (by decide)).bind fun _ _ _ _ => follows_pure trivial
  · exact (follows_word 4).bind fun _ _ _ _ => follows_pure trivial
  · exact (follows_word 8).bind fun _ _ _ _ => follows_pure trivial
  · exact follows_readExtended hasMemory
  · unfold readImmediates
    split
    all_goals try contradiction
    cases LoadOp.ofOpcode? op with
    | some loadOp => exact (follows_needMemory _).bind fun _ _ _ _ => follows_memArg.trivially _
    | none =>
      cases StoreOp.ofOpcode? op with
      | some storeOp => exact (follows_needMemory _).bind fun _ _ _ _ => follows_memArg.trivially _
      | none =>
        cases NumOp.ofOpcode? op with
        | some numOp => exact follows_pure trivial
        | none => exact follows_malformed _

/-! ## Functions -/

/-- Runs a step of validation inside a guarded computation. -/
def lift {α : Type} (check : FlatCheck α) (s : FlatStack) : Guarded (α × FlatStack) :=
  match check.runOn s with
  | .error o => throwThe Overrun o
  | .ok (.error cause) => invalid cause
  | .ok (.ok result) => pure result

/-- Attributes the violations that a computation finds to an instruction. -/
def locate {α : Type} (site : CodeSite) (g : Guarded α) : Guarded α := fun w pos =>
  match g.runAt w pos with
  | .ok (.error (.validation cause _)) => Except.ok (.error (.validation cause (some site)))
  | result => result

/-- Reads one instruction and applies its rule. -/
def validateInstr (c : CodeContext) (s : FlatStack) : Guarded (Closing × FlatStack) := do
  let start ← position
  let i ← readInstr c.module.memory.isSome
  let stop ← position
  lift (FlatCheck.instr c { start, stop } i) s

/-- Validates the rest of a body, of at most `left` instructions, and adds its jump entries. -/
def validateCode (c : CodeContext) (func : Nat) :
    (left : Nat) → FlatStack → SideTable → Guarded SideTable
  | 0, _, _ => malformed .endOfInput
  | left + 1, s, table => do
    guarded (0 < s.frames.length) .emptyControl
    guarded s.IsHigh .belowHeight
    let (closing, s) ← locate { func, offset := ← position } (validateInstr c s)
    match closing with
    | .nothing => validateCode c func left s table
    | .block offset jump => validateCode c func left s (table.insert offset jump)
    | .function => pure table

/-- Validates the function at an index, on the part of the bytes before the end of its body. -/
def validateFunction (m : Module) (func : Nat) : ExceptT Error (Except Overrun) SideTable :=
  let g : Guarded SideTable := do
    let f ← element m.functions.toList func
    moveTo f.body.start
    let frame : FlatFrame :=
      { kind := .function, type := { results := f.type.results }, height := 0
        opcode := f.body.start, body := f.body.start }
    let (table, pos) ← within f.body.stop do
      let table ← validateCode { module := m, function := f } func (f.body.length + 1)
        { frames := [frame] } []
      pure (table, ← position)
    if pos ≠ f.body.stop then malformed .sectionSizeMismatch
    pure table
  Prod.fst <$> (g.runAt (.ofBytes m.bytes) 0 : ExceptT Error (Except Overrun) _)

/-- What is related when an instruction has been validated on the flat stack and on frames. -/
def SameClosing (results : List ValType) (x : Closing × FlatStack) (y : Closing × Typing) : Prop :=
  x.1 = y.1 ∧ (y.1 ≠ .function → x.2 = y.2.flat ∧ y.2.IsNested results)

theorem relates_lift {results : List ValType} {t : Typing} {g : FlatCheck Closing}
    {check : Check Closing} (h : FlatCheck.Closes results g check t) :
    Relates (lift g t.flat) (check.lift t) w pos fun x y _ => SameClosing results x y := by
  intro _ hpos
  have hrun : check.run t = check t := rfl
  rw [lift, Check.lift, hrun]
  cases hc : check t with
  | error v =>
    rw [h.error v hc]
    refine ⟨fun _ _ h => ?_, fun e he => ?_⟩
    · cases h
    · cases he
      exact ⟨rfl, trivial⟩
  | ok y =>
    obtain ⟨closing, t'⟩ := y
    obtain ⟨s', hs', hsame⟩ := h.ok closing t' hc
    rw [hs']
    refine ⟨fun b next hb => ?_, fun e he => ?_⟩
    · cases hb
      exact ⟨⟨Nat.le_refl _, hpos⟩, (closing, s'), rfl, rfl, hsame⟩
    · cases he

theorem Relates.locate {α β : Type} {g : Guarded α} {r : Reader β} {R : α → β → Nat → Prop}
    (site : CodeSite) (h : Relates g r w pos R) :
    Relates (Guarded.locate site g) (r.locate site) w pos R := by
  intro hw hpos
  obtain ⟨hok, herror⟩ := h hw hpos
  cases hr : r w pos with
  | error e =>
    obtain ⟨hg, he⟩ := herror e hr
    refine ⟨fun b next hb => ?_, fun e' he' => ?_⟩
    · rw [Reader.locate, hr] at hb
      cases e <;> cases hb
    · rw [Reader.locate, hr] at he'
      cases e <;> cases he' <;> exact ⟨by rw [runAt, Guarded.locate, hg], he⟩
  | ok x =>
    have hreader : r.locate site w pos = .ok x := by rw [Reader.locate, hr]
    refine ⟨fun b next hb => ?_, fun e he => ?_⟩
    · rw [hreader] at hb
      cases hb
      obtain ⟨hle, a, hg, hR⟩ := hok _ _ hr
      refine ⟨hle, a, ?_, hR⟩
      rw [runAt, Guarded.locate, hg]
    · rw [hreader] at he
      cases he

theorem relates_validateInstr (c : CodeContext) {t : Typing}
    (ht : t.IsNested c.function.type.results) :
    Relates (validateInstr c t.flat) (Module.validateInstr c t) w pos
      fun x y _ => SameClosing c.function.type.results x y := by
  refine .position ((follows_readInstr _).relates.bind fun i j _ _ hij => .position ?_)
  obtain ⟨rfl, -⟩ := hij
  exact relates_lift (FlatCheck.closes_instr c _ i ht)

/-- The function is the one block that is open at first. -/
theorem isNested_function (results : List ValType) (opcode body : Nat) :
    ({ frame := { kind := .function, type := { results }, opcode, body } } : Typing).IsNested
      results :=
  ⟨[], _, rfl, rfl, rfl, by simp⟩

theorem follows_validateCode (c : CodeContext) (func left : Nat) {t : Typing}
    (ht : t.IsNested c.function.type.results) (table : SideTable) :
    Follows (validateCode c func left t.flat table) (Module.validateCode c func left t table) w pos
      fun _ _ => True := by
  induction left generalizing t table pos with
  | zero => exact follows_malformed _
  | succ left ih =>
    have hpos : 0 < t.flat.frames.length := Nat.succ_pos _
    rw [validateCode, guarded_eq hpos, pure_bind, guarded_eq t.isHigh_flat, pure_bind]
    refine .position (Relates.follows (((relates_validateInstr c ht).locate _).bind ?_))
    intro x y next _ hsame
    obtain ⟨closing, s⟩ := x
    obtain ⟨closing', t'⟩ := y
    obtain ⟨rfl, hstack⟩ : closing = closing' ∧
      (closing' ≠ .function → s = t'.flat ∧ t'.IsNested c.function.type.results) := hsame
    cases closing with
    | nothing =>
      obtain ⟨rfl, ht'⟩ := hstack (by simp)
      exact (ih ht' table).relates
    | block offset jump =>
      obtain ⟨rfl, ht'⟩ := hstack (by simp)
      exact (ih ht' _).relates
    | function => exact (follows_pure trivial).relates

/-- A reader that yields where it stops beside its result. -/
def measured {α : Type} (r : Reader α) : Reader (α × Nat) := do
  let a ← r
  pure (a, ← Reader.position)

/-- The validation of a function as one reader on all bytes, from the start of its body on. -/
def functionReader (c : CodeContext) (func : Nat) : Reader SideTable := do
  let frame : ControlFrame :=
    { kind := .function, type := { results := c.function.type.results }
      opcode := c.function.body.start, body := c.function.body.start }
  let (table, pos) ← Reader.within c.function.body.stop
    (measured (Module.validateCode c func (c.function.body.length + 1) { frame } []))
  if pos ≠ c.function.body.stop then Reader.malformed .sectionSizeMismatch
  pure table

theorem validateFunction_eq {m : Module} {func : Nat} {f : Function}
    (hf : m.functions[func]? = some f) : m.validateFunction func =
      ((functionReader { module := m, function := f } func).runAt (.ofBytes m.bytes)
        f.body.start).map Prod.fst := by
  simp only [Module.validateFunction, hf, functionReader, Reader.runAt]
  cases hrun : Module.validateCode { module := m, function := f } func (f.body.length + 1)
      { frame := { kind := .function, type := { results := f.type.results }
                   opcode := f.body.start, body := f.body.start } } []
      ⟨m.bytes, f.body.stop⟩ f.body.start with
  | error e =>
    have hwithin : Reader.within f.body.stop (measured _) (.ofBytes m.bytes) f.body.start =
        .error e := Reader.bind_of_eq_error hrun
    rw [Reader.bind_of_eq_error hwithin]
    rfl
  | ok x =>
    obtain ⟨table, pos⟩ := x
    have hwithin : Reader.within f.body.stop (measured _) (.ofBytes m.bytes) f.body.start =
        .ok ((table, pos), pos) := Reader.bind_of_eq_ok hrun
    rw [Reader.bind_of_eq_ok hwithin]
    change (if pos ≠ f.body.stop then _ else _ : Except Error SideTable) = _
    split <;> rfl

/-- A guarded computation does not overrun, has a given outcome, and if this is a failure, then it is
a rejection. -/
structure Agrees {α : Type} (g : ExceptT Error (Except Overrun) α) (r : Except Error α) : Prop where
  eq_ok : g = Except.ok r
  isRejection : ∀ e, r = .error e → e.IsRejection

section Agrees

variable {α β : Type}

theorem agrees_pure (a : α) : Agrees (pure a) (.ok a) := ⟨rfl, fun _ h => by cases h⟩

theorem agrees_throw {e : Error} (h : e.IsRejection) :
    Agrees (throw e : ExceptT Error (Except Overrun) α) (.error e) :=
  ⟨rfl, fun _ he => by cases he; exact h⟩

theorem Agrees.bind {g : ExceptT Error (Except Overrun) α} {r : Except Error α}
    {g' : α → ExceptT Error (Except Overrun) β} {r' : α → Except Error β} (h : Agrees g r)
    (h' : ∀ a, r = .ok a → Agrees (g' a) (r' a)) : Agrees (g >>= g') (r >>= r') := by
  obtain ⟨rfl, hrejects⟩ := h
  cases r with
  | error e => exact agrees_throw (hrejects e rfl)
  | ok a => exact h' a rfl

theorem Agrees.map {g : ExceptT Error (Except Overrun) α} {r : Except Error α} (f : α → β)
    (h : Agrees g r) : Agrees (f <$> g) (f <$> r) :=
  h.bind fun a _ => agrees_pure (f a)

/-- A guarded reader that follows another one agrees with it on a whole slice. -/
theorem Follows.agrees {g : Guarded α} {r : Reader α} {Q : α → Nat → Prop} (h : Follows g r w pos Q)
    (hw : w.IsSlice) (hpos : pos ≤ w.stop) : Agrees (g.runAt w pos) (r.runAt w pos) := by
  obtain ⟨heq, -, hrejects⟩ := h hw hpos
  exact ⟨heq, hrejects⟩

end Agrees

variable {m : Module}

theorem agrees_validateFunction (hsize : m.bytes.size < 2 ^ 63)
    (hfits : ∀ f ∈ m.functions, f.body.Fits m.bytes) {func : Nat} (hfunc : func < m.functions.size) :
    Agrees (validateFunction m func) (m.validateFunction func) := by
  have hf : m.functions[func]? = some m.functions[func] := Array.getElem?_eq_getElem hfunc
  generalize m.functions[func] = f at hf
  obtain ⟨hstart, hstop⟩ := hfits f (Array.mem_of_getElem? hf)
  have hpos : f.body.start ≤ (Window.ofBytes m.bytes).stop := Nat.le_trans hstart hstop
  have hall : Follows
      (do
        let (table, pos) ← within f.body.stop do
          let table ← validateCode { module := m, function := f } func (f.body.length + 1)
            { frames := [{ kind := .function, type := { results := f.type.results }, height := 0
                           opcode := f.body.start, body := f.body.start }] } []
          pure (table, ← position)
        if pos ≠ f.body.stop then malformed .sectionSizeMismatch
        pure table)
      (functionReader { module := m, function := f } func) (.ofBytes m.bytes) f.body.start
      fun _ _ => True := by
    refine (follows_within (Q := fun _ _ => True) hstart hstop ?_).bind fun _ _ _ _ =>
      .ite (fun _ => follows_malformed_bind _) fun _ => follows_pure trivial
    exact (follows_validateCode { module := m, function := f } func _
      (isNested_function f.type.results f.body.start f.body.start) []).bind
        fun _ _ _ _ => .position (follows_pure trivial)
  rw [validateFunction_eq hf, validateFunction, element_eq (by rw [Array.getElem?_toList]; exact hf),
    pure_bind, runAt_bind_of_ok (runAt_moveTo hpos)]
  exact (hall.agrees ⟨Nat.le_refl _, hsize⟩ hpos).map Prod.fst

/-! ## Modules -/

/-- The union of the jump entries of the functions at the given indices. -/
def validateFunctions (m : Module) : List Nat → ExceptT Error (Except Overrun) SideTable
  | [] => pure []
  | func :: rest => do
    let table ← validateFunction m func
    let others ← validateFunctions m rest
    pure (table.foldl (fun acc entry => acc.insert entry.1 entry.2) others)

/-- Refuses a start function that takes or returns something. -/
def checkStart (m : Module) : ExceptT Error (Except Overrun) Unit :=
  match m.start with
  | none => pure ()
  | some start => do
    let f ← element m.functions.toList start
    unless f.type = {} do throw (Error.invalid .startFunction)

/-- Validates the functions that a module defines and its start function. -/
def validate (m : Module) : ExceptT Error (Except Overrun) Module := do
  if m.sideTable.isSome then return m
  let table ← validateFunctions m
    ((List.range (m.functions.size - m.importedCount)).map (m.importedCount + ·))
  checkStart m
  pure { m with sideTable := some table }

/-- Decodes and validates a module. -/
def compile (bytes : ByteArray) : ExceptT Error (Except Overrun) Module := do
  validate (← decode bytes)

theorem agrees_validateFunctions (hsize : m.bytes.size < 2 ^ 63)
    (hfits : ∀ f ∈ m.functions, f.body.Fits m.bytes) {funcs : List Nat}
    (hfuncs : ∀ func ∈ funcs, func < m.functions.size) :
    Agrees (validateFunctions m funcs) (m.validateFunctions funcs) := by
  induction funcs with
  | nil => exact agrees_pure _
  | cons func rest ih =>
    obtain ⟨hfunc, hrest⟩ := List.forall_mem_cons.1 hfuncs
    exact (agrees_validateFunction hsize hfits hfunc).bind fun _ _ =>
      (ih hrest).bind fun _ _ => agrees_pure _

theorem checkStart_eq (hstart : ∀ start ∈ m.start, start < m.functions.size) :
    checkStart m = if m.HasValidStart then pure () else throw (Error.invalid .startFunction) := by
  unfold checkStart
  split
  · next hs => rw [if_pos (by simp [Module.HasValidStart, hs])]
  · next start hs =>
    have hlt := hstart start hs
    have hf := Array.getElem?_eq_getElem hlt
    have hvalid : m.HasValidStart ↔ m.functions[start].type = {} := by
      simp [Module.HasValidStart, hs, hf]
    rw [element_eq (by rw [Array.getElem?_toList]; exact hf), pure_bind]
    by_cases htype : m.functions[start].type = {}
    · rw [if_pos htype, if_pos (hvalid.2 htype)]
    · rw [if_neg htype, if_neg (mt hvalid.1 htype)]

theorem agrees_validate (hsize : m.bytes.size < 2 ^ 63)
    (hfits : ∀ f ∈ m.functions, f.body.Fits m.bytes)
    (hstart : ∀ start ∈ m.start, start < m.functions.size) :
    Agrees (validate m) m.validate := by
  unfold validate Module.validate
  split
  · exact agrees_pure m
  · refine (agrees_validateFunctions hsize hfits ?_).bind fun table _ => ?_
    · simp
      omega
    · rw [checkStart_eq hstart]
      by_cases hvalid : m.HasValidStart
      · simp only [if_pos hvalid]
        exact agrees_pure _
      · simp only [if_neg hvalid]
        exact agrees_throw trivial

/-- **No bytes crash the front end**: with every access checked, decoding, compiling, and validating
any function of a decoded module, imported or not, do not overrun; they give what `Module.decode`,
`Module.compile` and `Module.validateFunction` give, and when these fail, the bytes are malformed or
the module is not valid.  Bytes in memory number less than `2 ^ 63`. -/
theorem front_end_guarded (bytes : ByteArray) (h : bytes.size < 2 ^ 63) :
    Agrees (decode bytes) (Module.decode bytes) ∧ Agrees (compile bytes) (Module.compile bytes) ∧
      ∀ m, Module.decode bytes = .ok m → ∀ func < m.functions.size,
        Agrees (validateFunction m func) (m.validateFunction func) := by
  obtain ⟨heq, hrejects, hfits⟩ := decode_follows h
  have hdecode : Agrees (decode bytes) (Module.decode bytes) := ⟨heq, hrejects⟩
  refine ⟨hdecode, hdecode.bind fun m hm => ?_, fun m hm func hfunc => ?_⟩
  · obtain ⟨hsound, rfl, -⟩ := Module.decode_sound hm
    exact agrees_validate h (hfits m hm) hsound.start
  · obtain ⟨-, rfl, -⟩ := Module.decode_sound hm
    exact agrees_validateFunction h (hfits m hm) hfunc

/-- A module with something in each section is read and validated within its bytes. -/
theorem populatedBytes_guarded : Module.populatedBytes.size < 2 ^ 63 ∧
    decode Module.populatedBytes = Except.ok (.ok Module.populated) ∧
      Module.populated.functions.size = 2 ∧ ∀ func < Module.populated.functions.size,
        Agrees (validateFunction Module.populated func) (Module.populated.validateFunction func) :=
  have hsize : Module.populatedBytes.size < 2 ^ 63 := by decide
  have hall := front_end_guarded Module.populatedBytes hsize
  ⟨hsize, hall.1.eq_ok.trans (congrArg _ Module.decode_populatedBytes), rfl,
    hall.2.2 Module.populated Module.decode_populatedBytes⟩

end WasmEngine.Guarded
