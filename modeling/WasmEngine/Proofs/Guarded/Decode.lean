import WasmEngine.Proofs.Decode.Grounded
import WasmEngine.Proofs.Guarded.Reader

/-!
# Proofs/Guarded/Decode — decoding leaves no data

The decoder once more, with a test at each place where it computes an end from a length that the
bytes give, takes a range of bytes, or uses an index.  `decode_eq` says that none of these tests
fails: guarded decoding gives what `Module.decode` gives, and a failure of it rejects the bytes.
-/

namespace WasmEngine.Guarded

variable {w : Window} {pos : Nat}

/-! ## Constant expressions -/

/-- Types the instruction `op` of a constant expression on a stack of operand types, top first. -/
def checkInstr (globals : Array Global) (op : UInt8) (stack : List ValType) :
    Guarded (List ValType) := do
  match op with
  | 0x41 => discard (signed 32); pure (.i32 :: stack)
  | 0x42 => discard (signed 64); pure (.i64 :: stack)
  | 0x43 => discard (skip 4); pure (.f32 :: stack)
  | 0x44 => discard (skip 8); pure (.f64 :: stack)
  | 0x23 =>
    match globals[← u32]? with
    | none => invalid .unknownGlobal
    | some g => if g.isMutable then invalid .constantRequired else pure (g.type :: stack)
  | _ =>
    match ConstExpr.operator? op with
    | none => invalid .constantRequired
    | some (w, _) =>
      match stack with
      | a :: b :: rest =>
        if a = w.intType ∧ b = w.intType then pure (w.intType :: rest)
        else invalid .typeMismatch
      | _ => invalid .typeMismatch

/-- Types the rest of a constant expression, of at most `left` instructions. -/
def checkRest (globals : Array Global) : Nat → List ValType → Guarded (List ValType)
  | 0, _ => malformed .endOfInput
  | left + 1, stack => do
    match ← byte with
    | 0x0b => pure stack
    | op => do checkRest globals left (← checkInstr globals op stack)

/-- Reads a constant expression that yields one value of type `expected`. -/
def check (globals : Array Global) (expected : ValType) : Guarded Unit := do
  let left := (← read).stop - (← position)
  let stack ← checkRest globals (left + 1) []
  if stack.length ≠ 1 then invalid .typeMismatch
  else if (← element stack 0) ≠ expected then invalid .typeMismatch
  else pure ()

theorem follows_discard {α : Type} {g : Guarded α} {r : Reader α} {Q : α → Nat → Prop}
    (h : Follows g r w pos Q) : Follows (discard g) (discard r) w pos fun _ _ => True :=
  h.map fun _ _ _ => trivial

theorem follows_checkInstr (globals : Array Global) (op : UInt8) (stack : List ValType) :
    Follows (checkInstr globals op stack) (ConstExpr.checkInstr globals op stack) w pos
      fun _ _ => True := by
  unfold ConstExpr.checkInstr
  split
  · exact (follows_discard (follows_signed (by decide))).bind fun _ _ _ _ => follows_pure trivial
  · exact (follows_discard (follows_signed (by decide))).bind fun _ _ _ _ => follows_pure trivial
  · exact (follows_discard (follows_skip 4)).bind fun _ _ _ _ => follows_pure trivial
  · exact (follows_discard (follows_skip 8)).bind fun _ _ _ _ => follows_pure trivial
  · refine follows_u32.bind fun k _ _ _ => ?_
    cases globals[k]? with
    | none => exact follows_invalid _
    | some g => exact .ite (fun _ => follows_invalid _) fun _ => follows_pure trivial
  · unfold checkInstr
    split
    all_goals try contradiction
    cases ConstExpr.operator? op with
    | none => exact follows_invalid _
    | some operator =>
      obtain _ | ⟨a, _ | ⟨b, rest⟩⟩ := stack
      · exact follows_invalid _
      · exact follows_invalid _
      · exact .ite (fun _ => follows_pure trivial) fun _ => follows_invalid _

theorem follows_checkRest (globals : Array Global) (left : Nat) (stack : List ValType) :
    Follows (checkRest globals left stack) (ConstExpr.checkRest globals left stack) w pos
      fun _ _ => True := by
  induction left generalizing stack pos with
  | zero => exact follows_malformed _
  | succ left ih =>
    refine follows_byte.bind fun op _ _ _ => ?_
    split
    · exact follows_pure trivial
    · try split
      all_goals first
        | contradiction
        | exact (follows_checkInstr globals op stack).bind fun stack _ _ _ => ih stack

theorem follows_check (globals : Array Global) (expected : ValType) :
    Follows (check globals expected) (ConstExpr.check globals expected) w pos fun _ _ => True := by
  refine .window (.position ((follows_checkRest globals _ []).bind fun stack _ _ _ => ?_))
  match stack with
  | [] => exact follows_invalid _
  | a :: b :: rest =>
    rw [if_pos (by simp), if_neg (by simp)]
    exact follows_invalid _
  | [a] =>
    rw [if_neg (by simp), element_eq (x := a) rfl, pure_bind]
    by_cases ha : a = expected
    · rw [if_neg (by simp [ha]), if_pos (by simp [ha])]
      exact follows_pure trivial
    · rw [if_pos ha, if_neg (by simp [ha])]
      exact follows_invalid _

/-! ## Parts of sections -/

/-- A function type. -/
def funcType : Guarded Signature := do
  if (← byte) ≠ 0x60 then malformed .invalidFuncType
  let params ← replicate (← u32) valType
  let results ← replicate (← u32) valType
  pure { params, results }

/-- The bounds of a table. -/
def extent (imported : Option ImportName) : Guarded Extent := do
  let flag ← unsigned 1
  let min ← u32
  if flag = 1 then
    let max ← u32
    if max < min then invalid .minExceedsMax
    pure { min, max := some max, imported }
  else pure { min, max := none, imported }

/-- The bounds of a memory. -/
def memoryExtent (imported : Option ImportName) : Guarded Extent := do
  let e ← extent imported
  if Memory.maxPages < e.min ∨ Memory.maxPages < e.max.getD 0 then invalid .memoryTooLarge
  pure e

/-- The byte of the reference type. -/
def referenceType : Guarded Unit := do
  if (← byte) ≠ 0x70 then malformed .referenceType

/-- A flag byte that tells whether a global may be set. -/
def mutability : Guarded Bool := do
  match ← byte with
  | 0 => pure false
  | 1 => pure true
  | _ => malformed .invalidMutability

/-- The byte of a kind of external item. -/
def externKind : Guarded ExternKind := do
  match ExternKind.ofByte? (← byte) with
  | some kind => pure kind
  | none => malformed .importKind

/-- The index of a function type, and that type. -/
def typeUse (d : Draft) : Guarded (Nat × Signature) := do
  let index ← u32
  match d.types[index]? with
  | some type => pure (index, type)
  | none => invalid .unknownType

/-- An element given as an expression. -/
def elementExpr : Guarded (Option Nat) := do
  let func ← do
    match ← byte with
    | 0xd2 => some <$> u32
    | 0xd0 => do referenceType; pure none
    | _ => invalid .constantRequired
  if (← byte) ≠ 0x0b then malformed .endExpected
  pure func

theorem follows_extent (imported : Option ImportName) :
    Follows (extent imported) (Draft.extent imported) w pos fun _ _ => True := by
  refine (follows_unsigned (by decide)).bind fun flag _ _ _ => follows_u32.bind fun min _ _ _ =>
    .ite (fun _ => follows_u32.bind fun max _ _ _ => ?_) fun _ => follows_pure trivial
  exact .ite (fun _ => follows_invalid_bind _) fun _ => follows_pure trivial

theorem follows_memoryExtent (imported : Option ImportName) :
    Follows (memoryExtent imported) (Draft.memoryExtent imported) w pos fun _ _ => True :=
  (follows_extent imported).bind fun _ _ _ _ =>
    .ite (fun _ => follows_invalid_bind _) fun _ => follows_pure trivial

theorem follows_referenceType :
    Follows referenceType Draft.referenceType w pos fun _ _ => True :=
  follows_byte.bind fun _ _ _ _ =>
    .ite (fun _ => follows_malformed _) fun _ => follows_pure trivial

theorem follows_mutability : Follows mutability Draft.mutability w pos fun _ _ => True := by
  refine follows_byte.bind fun b _ _ _ => ?_
  split
  · exact follows_pure trivial
  · exact follows_pure trivial
  · try split
    all_goals first | contradiction | exact follows_malformed _

theorem follows_externKind : Follows externKind Draft.externKind w pos fun _ _ => True := by
  refine follows_byte.bind fun b _ _ _ => ?_
  cases ExternKind.ofByte? b with
  | some kind => exact follows_pure trivial
  | none => exact follows_malformed _

theorem follows_elementExpr : Follows elementExpr Draft.elementExpr w pos fun _ _ => True := by
  have hend (func : Option Nat) (pos : Nat) : Follows
      (do
        if (← byte) ≠ 0x0b then malformed .endExpected
        pure func)
      (do
        if (← Reader.byte) ≠ 0x0b then Reader.malformed .endExpected
        pure func) w pos fun _ _ => True :=
    follows_byte.bind fun _ _ _ _ =>
      .ite (fun _ => follows_malformed_bind _) fun _ => follows_pure trivial
  refine follows_byte.bind fun b _ _ _ => ?_
  split
  · exact (follows_u32.map (R := fun _ _ => True) fun _ _ _ => trivial).bind
      fun func next _ _ => hend func next
  · exact follows_referenceType.bind fun _ next _ _ => hend none next
  · try split
    all_goals first | contradiction | exact follows_invalid_bind _

/-! ## Sections -/

/-- The function types. -/
def typeSection (d : Draft) : Guarded Draft := do
  let types ← replicate (← u32) funcType
  pure { d with types := types.toArray }

/-- One import. -/
def importEntry (d : Draft) : Guarded Draft := do
  let module ← name
  let name ← name
  let kind ← externKind
  let ref : ImportName := { module, name }
  let d : Draft := { d with imports := d.imports ++ [⟨ref, kind⟩] }
  match kind with
  | .func =>
    let (typeIndex, type) ← typeUse d
    pure { d with functions := d.functions.push { typeIndex, type, imported := some ref } }
  | .table =>
    if d.table.isSome then invalid .multipleTables
    referenceType
    pure { d with table := some (← extent (some ref)) }
  | .memory =>
    if d.memory.isSome then invalid .multipleMemories
    pure { d with memory := some (← memoryExtent (some ref)) }
  | .global =>
    let type ← valType
    let isMutable ← mutability
    pure { d with globals := d.globals.push { type, isMutable, imported := some ref } }

/-- The imports. -/
def importSection (d : Draft) : Guarded Draft := do
  iterate (← u32) importEntry d

/-- The types of the functions that the module defines. -/
def functionSection (d : Draft) : Guarded Draft := do
  let uses ← replicate (← u32) (typeUse d)
  let functions : List Function := uses.map fun (typeIndex, type) => { typeIndex, type }
  pure { d with functions := d.functions ++ functions.toArray }

/-- The table. -/
def tableSection (d : Draft) : Guarded Draft := do
  let n ← u32
  if 1 < n ∨ (n = 1 ∧ d.table.isSome) then invalid .multipleTables
  if n = 1 then
    referenceType
    pure { d with table := some (← extent none) }
  else pure d

/-- The memory. -/
def memorySection (d : Draft) : Guarded Draft := do
  let n ← u32
  if 1 < n ∨ (n = 1 ∧ d.memory.isSome) then invalid .multipleMemories
  if n = 1 then pure { d with memory := some (← memoryExtent none) } else pure d

/-- One global. -/
def globalEntry (d : Draft) : Guarded Draft := do
  let type ← valType
  let isMutable ← mutability
  let init ← position
  check d.globals type
  pure { d with globals := d.globals.push { type, isMutable, init } }

/-- The globals. -/
def globalSection (d : Draft) : Guarded Draft := do
  iterate (← u32) globalEntry d

/-- One export. -/
def exportEntry (d : Draft) : Guarded Draft := do
  let name ← name
  let kind ← externKind
  let index ← u32
  if (d.export? name).isSome then invalid .duplicateExport
  match kind with
  | .func => if d.functions.size ≤ index then invalid .unknownFunc
  | .table => if index ≠ 0 ∨ d.table.isNone then invalid .unknownTable
  | .memory => if index ≠ 0 ∨ d.memory.isNone then invalid .unknownMemory
  | .global => if d.globals.size ≤ index then invalid .unknownGlobal
  pure { d with exports := d.exports ++ [⟨name, kind, index⟩] }

/-- The exports. -/
def exportSection (d : Draft) : Guarded Draft := do
  iterate (← u32) exportEntry d

/-- The start function. -/
def startSection (d : Draft) : Guarded Draft := do
  let start ← u32
  if d.functions.size ≤ start then invalid .unknownFunc
  pure { d with start := some start }

/-- The mode of an element segment. -/
def elementMode (d : Draft) (flags : Nat) : Guarded SegmentMode := do
  if flags.testBit 0 then
    pure (if flags.testBit 1 then .declarative else .passive)
  else
    if flags.testBit 1 then
      if (← u32) ≠ 0 then invalid .unknownTable
    if d.table.isNone then invalid .unknownTable
    let offset ← position
    check d.globals .i32
    pure (.active offset)

/-- One element segment. -/
def elementEntry (d : Draft) : Guarded Draft := do
  let flags ← u32
  if 7 < flags then malformed .elementKind
  let mode ← elementMode d flags
  if flags % 4 ≠ 0 then
    let kind ← byte
    if flags.testBit 2 then
      if kind ≠ 0x70 then malformed .referenceType
    else
      if kind ≠ 0x00 then malformed .elementKind
  let funcs ← replicate (← u32) do
    let func ← if flags.testBit 2 then elementExpr else some <$> u32
    if d.functions.size ≤ func.getD 0 ∧ func.isSome then invalid .unknownFunc
    pure func
  pure { d with elements := d.elements ++ [⟨mode, funcs⟩] }

/-- The element segments. -/
def elementSection (d : Draft) : Guarded Draft := do
  iterate (← u32) elementEntry d

/-- The number of data segments to come. -/
def dataCountSection (d : Draft) : Guarded Draft := do
  pure { d with dataCount := some (← u32) }

/-- A run of locals of one type, added to those before it. -/
def localsEntry (locals : Array ValType) : Guarded (Array ValType) := do
  let n ← u32
  let type ← valType
  if Module.maxLocals < (← sum locals.size n) then malformed .tooManyLocals
  pure (locals ++ Array.replicate n type)

/-- The body of the next function. -/
def bodyEntry (first : Nat) (d : Draft) : Guarded Draft := do
  let length ← u32
  let start ← position
  let stop ← checkedSum start length
  require length
  let index ← sum first d.bodyCount
  let f ← element d.functions.toList index
  let (locals, code) ← within stop do
    let locals ← iterate (← u32) localsEntry f.type.params.toArray
    pure (locals.toList, ← position)
  moveTo stop
  pure { d with
    functions := d.functions.modify index ({ · with locals, body := ⟨code, stop⟩ })
    bodyCount := d.bodyCount + 1 }

/-- The bodies of the functions that the module defines. -/
def codeSection (d : Draft) : Guarded Draft := do
  let n ← u32
  if (← sum d.importedCount n) ≠ d.functions.size then malformed .codeCountMismatch
  iterate n (bodyEntry d.importedCount) d

/-- The mode of a data segment. -/
def dataMode (d : Draft) : Guarded SegmentMode := do
  let flag ← u32
  if flag = 1 then pure .passive
  else if flag = 0 ∨ flag = 2 then
    if flag = 2 then
      if (← u32) ≠ 0 then invalid .unknownMemory
    if d.memory.isNone then invalid .unknownMemory
    let offset ← position
    check d.globals .i32
    pure (.active offset)
  else invalid .dataSegmentFlag

/-- One data segment. -/
def dataEntry (d : Draft) : Guarded Draft := do
  let mode ← dataMode d
  let length ← u32
  require length
  let start ← position
  advance length
  pure { d with dataSegments := d.dataSegments ++ [⟨mode, ⟨start, ← position⟩⟩] }

/-- The data segments. -/
def dataSection (d : Draft) : Guarded Draft := do
  iterate (← u32) dataEntry d

variable {d : Draft}

/-- The parts of a draft that the code section relies on. -/
def shape (d : Draft) : Array Signature × Array Function × Nat :=
  (d.types, d.functions, d.bodyCount)

/-- A section that is a list of entries, of which each keeps the shape. -/
theorem follows_entries {step : Draft → Guarded Draft} {step' : Draft → Reader Draft}
    (h : ∀ d pos, Follows (step d) (step' d) w pos fun d' _ => shape d' = shape d) :
    Follows (do iterate (← u32) step d) (do Reader.iterate (← Reader.u32) step' d) w pos
      fun d' _ => shape d' = shape d :=
  follows_u32.bind fun n _ _ _ => follows_iterate (I := fun _ d' => shape d' = shape d)
    (fun _ b pos hb => (h b pos).mono fun _ _ hd => hd.trans hb) n rfl

theorem follows_tableSection :
    Follows (tableSection d) d.tableSection w pos fun d' _ => shape d' = shape d :=
  follows_u32.bind fun _ _ _ _ => .ite (fun _ => follows_invalid_bind _) fun _ =>
    .ite (fun _ => follows_referenceType.bind fun _ _ _ _ => (follows_extent none).bind
      fun _ _ _ _ => follows_pure rfl) fun _ => follows_pure rfl

theorem follows_memorySection :
    Follows (memorySection d) d.memorySection w pos fun d' _ => shape d' = shape d :=
  follows_u32.bind fun _ _ _ _ => .ite (fun _ => follows_invalid_bind _) fun _ =>
    .ite (fun _ => (follows_memoryExtent none).bind fun _ _ _ _ => follows_pure rfl)
      fun _ => follows_pure rfl

theorem follows_globalEntry (d : Draft) (pos : Nat) :
    Follows (globalEntry d) d.globalEntry w pos fun d' _ => shape d' = shape d :=
  follows_valType.bind fun type _ _ _ => follows_mutability.bind fun _ _ _ _ =>
    .position ((follows_check d.globals type).bind fun _ _ _ _ => follows_pure rfl)

theorem follows_globalSection :
    Follows (globalSection d) d.globalSection w pos fun d' _ => shape d' = shape d :=
  follows_entries follows_globalEntry

theorem follows_exportEntry (d : Draft) (pos : Nat) :
    Follows (exportEntry d) d.exportEntry w pos fun d' _ => shape d' = shape d := by
  refine follows_name.bind fun name _ _ _ => follows_externKind.bind fun kind _ _ _ =>
    follows_u32.bind fun index _ _ _ => .ite (fun _ => follows_invalid_bind _) fun _ => ?_
  cases kind with
  | func | table | memory | global =>
    exact .ite (fun _ => follows_invalid_bind _) fun _ => follows_pure rfl

theorem follows_exportSection :
    Follows (exportSection d) d.exportSection w pos fun d' _ => shape d' = shape d :=
  follows_entries follows_exportEntry

theorem follows_startSection :
    Follows (startSection d) d.startSection w pos fun d' _ => shape d' = shape d :=
  follows_u32.bind fun _ _ _ _ => .ite (fun _ => follows_invalid_bind _) fun _ =>
    follows_pure rfl

theorem follows_elementMode (flags : Nat) :
    Follows (elementMode d flags) (d.elementMode flags) w pos fun _ _ => True := by
  refine .ite (fun _ => follows_pure trivial) fun _ => ?_
  have htail (pos : Nat) : Follows
      (do
        if d.table.isNone then invalid .unknownTable
        let offset ← position
        check d.globals .i32
        pure (SegmentMode.active offset))
      (do
        if d.table.isNone then Reader.invalid .unknownTable
        let offset ← Reader.position
        ConstExpr.check d.globals .i32
        pure (SegmentMode.active offset)) w pos fun _ _ => True :=
    .ite (fun _ => follows_invalid_bind _) fun _ =>
      .position ((follows_check d.globals .i32).bind fun _ _ _ _ => follows_pure trivial)
  refine .ite (fun _ => follows_u32.bind fun _ _ _ _ => ?_) fun _ => htail pos
  exact .ite (fun _ => follows_invalid_bind _) fun _ => htail _

theorem follows_elementEntry (d : Draft) (pos : Nat) :
    Follows (elementEntry d) d.elementEntry w pos fun d' _ => shape d' = shape d := by
  have hcheck (func : Option Nat) (pos : Nat) : Follows
      (do
        if d.functions.size ≤ func.getD 0 ∧ func.isSome then invalid .unknownFunc
        pure func)
      (do
        if d.functions.size ≤ func.getD 0 ∧ func.isSome then Reader.invalid .unknownFunc
        pure func) w pos fun _ _ => True :=
    .ite (fun _ => follows_invalid_bind _) fun _ => follows_pure trivial
  refine follows_u32.bind fun flags _ _ _ => .ite (fun _ => follows_malformed_bind _) fun _ =>
    (follows_elementMode flags).bind fun mode _ _ _ => ?_
  -- The kind may be left out, but what comes behind it is the same.
  have hrest (pos : Nat) : Follows
      (do
        let funcs ← replicate (← u32) do
          let func ← if flags.testBit 2 then elementExpr else some <$> u32
          if d.functions.size ≤ func.getD 0 ∧ func.isSome then invalid .unknownFunc
          pure func
        pure { d with elements := d.elements ++ [⟨mode, funcs⟩] })
      (do
        let funcs ← Reader.replicate (← Reader.u32) do
          let func ← if flags.testBit 2 then Draft.elementExpr else some <$> Reader.u32
          if d.functions.size ≤ func.getD 0 ∧ func.isSome then Reader.invalid .unknownFunc
          pure func
        pure { d with elements := d.elements ++ [⟨mode, funcs⟩] }) w pos
      fun d' _ => shape d' = shape d := by
    refine follows_u32.bind fun n _ _ _ => (follows_replicate (P := fun _ => True)
      (fun _ => ?_) n).bind fun _ _ _ _ => follows_pure rfl
    refine .ite (fun _ => follows_elementExpr.bind fun func next _ _ => hcheck func next) fun _ => ?_
    exact (follows_u32.map (R := fun _ _ => True) fun _ _ _ => trivial).bind
      fun func next _ _ => hcheck func next
  refine .ite (fun _ => follows_byte.bind fun kind next _ _ => ?_) fun _ => hrest _
  exact .ite
    (fun _ => .ite (fun _ => follows_malformed_bind _) fun _ => hrest next)
    fun _ => .ite (fun _ => follows_malformed_bind _) fun _ => hrest next

theorem follows_elementSection :
    Follows (elementSection d) d.elementSection w pos fun d' _ => shape d' = shape d :=
  follows_entries follows_elementEntry

theorem follows_dataCountSection :
    Follows (dataCountSection d) d.dataCountSection w pos fun d' _ => shape d' = shape d :=
  follows_u32.bind fun _ _ _ _ => follows_pure rfl

theorem follows_dataMode : Follows (dataMode d) d.dataMode w pos fun _ _ => True := by
  have htail (pos : Nat) : Follows
      (do
        if d.memory.isNone then invalid .unknownMemory
        let offset ← position
        check d.globals .i32
        pure (SegmentMode.active offset))
      (do
        if d.memory.isNone then Reader.invalid .unknownMemory
        let offset ← Reader.position
        ConstExpr.check d.globals .i32
        pure (SegmentMode.active offset)) w pos fun _ _ => True :=
    .ite (fun _ => follows_invalid_bind _) fun _ =>
      .position ((follows_check d.globals .i32).bind fun _ _ _ _ => follows_pure trivial)
  refine follows_u32.bind fun flag next _ _ => .ite (fun _ => follows_pure trivial) fun _ =>
    .ite (fun _ => .ite (fun _ => ?_) fun _ => htail next) fun _ => follows_invalid _
  exact follows_u32.bind fun _ next _ _ => .ite (fun _ => follows_invalid_bind _) fun _ => htail next

theorem follows_dataEntry (d : Draft) (pos : Nat) :
    Follows (dataEntry d) d.dataEntry w pos fun d' _ => shape d' = shape d := by
  refine follows_dataMode.bind fun mode _ _ _ => follows_u32.bind fun length _ _ _ =>
    (follows_require length).bind fun _ start _ h => ?_
  obtain ⟨rfl, hle⟩ := h
  refine ((follows_skip length).bind fun _ _ _ _ => follows_pure rfl).congr fun hw _ => ?_
  rw [runAt_position_bind, runAt_bind_of_ok (runAt_advance hle hw),
    runAt_bind_of_ok (runAt_skip hle hw)]
  rfl

theorem follows_dataSection :
    Follows (dataSection d) d.dataSection w pos fun d' _ => shape d' = shape d :=
  follows_entries follows_dataEntry

/-! ## Functions and their bodies -/

/-- The types have no more parameters than a count can tell, and so have the functions, of which
there are at most `size`.  None has a body yet. -/
structure Bounded (size : Nat) (d : Draft) : Prop where
  types : ∀ s ∈ d.types, s.params.length < 2 ^ 32
  functions : ∀ f ∈ d.functions, f.type.params.length < 2 ^ 32 ∧ f.body = {}
  size_le : d.functions.size ≤ size
  bodyCount : d.bodyCount = 0

theorem Bounded.of_shape {size : Nat} {d' : Draft} (h : Bounded size d)
    (hd : shape d' = shape d) : Bounded size d' := by
  obtain ⟨htypes, hfunctions, hcount⟩ : d'.types = d.types ∧ d'.functions = d.functions ∧
      d'.bodyCount = d.bodyCount := by simpa [shape] using hd
  exact ⟨htypes ▸ h.types, hfunctions ▸ h.functions, hfunctions ▸ h.size_le, hcount ▸ h.bodyCount⟩

theorem Bounded.of_typeUse {size : Nat} (h : Bounded size d) {use : Nat × Signature}
    (huse : d.types[use.1]? = some use.2) : use.2.params.length < 2 ^ 32 :=
  h.types _ (Array.mem_of_getElem? huse)

theorem follows_funcType :
    Follows funcType Draft.funcType w pos fun s _ => s.params.length < 2 ^ 32 := by
  refine follows_byte.bind fun b _ _ _ => .ite (fun _ => follows_malformed_bind _) fun _ => ?_
  refine follows_u32.bind fun n _ _ hn => (follows_replicate (fun _ => follows_valType) n).bind
    fun params _ _ hlen => follows_u32.bind fun n _ _ _ =>
      (follows_replicate (fun _ => follows_valType) n).bind fun results _ _ _ => ?_
  exact follows_pure (Nat.lt_of_le_of_lt (Nat.le_of_eq hlen.1) hn)

theorem follows_typeSection {size : Nat} (h : Bounded size d) :
    Follows (typeSection d) d.typeSection w pos fun d' _ => Bounded size d' :=
  follows_u32.bind fun n _ _ _ => (follows_replicate (fun _ => follows_funcType) n).bind
    fun _ _ _ htypes => follows_pure
      { h with types := fun s hs => htypes.2 s (List.mem_toArray.1 hs) }

theorem follows_typeUse (d : Draft) :
    Follows (typeUse d) d.typeUse w pos fun use _ => d.types[use.1]? = some use.2 := by
  refine .of_true (follows_u32.bind fun index _ _ _ => ?_) Draft.ensures_typeUse
  cases d.types[index]? with
  | some type => exact follows_pure trivial
  | none => exact follows_invalid _

/-- An import brings at most one function. -/
theorem follows_importEntry {size : Nat} (h : Bounded size d) :
    Follows (importEntry d) d.importEntry w pos fun d' _ => Bounded (size + 1) d' := by
  have hkeep (d' : Draft) (hd : shape d' = shape d) : Bounded (size + 1) d' :=
    { h.of_shape hd with size_le := Nat.le_succ_of_le (h.of_shape hd).size_le }
  refine follows_name.bind fun module _ _ _ => follows_name.bind fun name _ _ _ =>
    follows_externKind.bind fun kind _ _ _ => ?_
  cases kind with
  | func =>
    refine (follows_typeUse _).bind fun use _ _ huse => follows_pure ?_
    exact { h with
      functions := fun f hf => (Array.mem_push.1 hf).elim (h.functions f)
        fun heq => heq ▸ ⟨h.of_typeUse huse, rfl⟩
      size_le := by
        rw [Array.size_push]
        exact Nat.succ_le_succ h.size_le }
  | table =>
    exact .ite (fun _ => follows_invalid_bind _) fun _ => follows_referenceType.bind
      fun _ _ _ _ => (follows_extent _).bind fun _ _ _ _ => follows_pure (hkeep _ rfl)
  | memory =>
    exact .ite (fun _ => follows_invalid_bind _) fun _ => (follows_memoryExtent _).bind
      fun _ _ _ _ => follows_pure (hkeep _ rfl)
  | global =>
    exact follows_valType.bind fun _ _ _ _ => follows_mutability.bind
      fun _ _ _ _ => follows_pure (hkeep _ rfl)

theorem Bounded.mono {size size' : Nat} (h : Bounded size d) (hle : size ≤ size') :
    Bounded size' d := { h with size_le := Nat.le_trans h.size_le hle }

theorem follows_importSection {size : Nat} (h : Bounded size d) :
    Follows (importSection d) d.importSection w pos fun d' _ => Bounded (size + 2 ^ 32) d' := by
  refine follows_u32.bind fun n _ _ hn => ?_
  refine (follows_iterate (I := fun k d' => Bounded (size + n - k) d' ∧ k ≤ n)
    (fun k d' pos hd => ?_) n ⟨h.mono (by omega), Nat.le_refl n⟩).mono
    fun d' _ hd => hd.1.mono (by omega)
  exact (follows_importEntry hd.1).mono fun d'' _ hd'' => ⟨hd''.mono (by omega), by omega⟩

theorem follows_functionSection {size : Nat} (h : Bounded size d) :
    Follows (functionSection d) d.functionSection w pos
      fun d' _ => Bounded (size + 2 ^ 32) d' := by
  refine follows_u32.bind fun n _ _ hn => (follows_replicate (fun _ => follows_typeUse d) n).bind
    fun uses _ _ huses => follows_pure { h with functions := fun f hf => ?_, size_le := ?_ }
  · obtain hf | hf := Array.mem_append.1 hf
    · exact h.functions f hf
    · obtain ⟨use, hmem, rfl⟩ := List.mem_map.1 (List.mem_toArray.1 hf)
      exact ⟨h.of_typeUse (huses.2 use hmem), rfl⟩
  · have := h.size_le
    simp only [Array.size_append, List.size_toArray, List.length_map, huses.1]
    omega

theorem follows_localsEntry {locals : Array ValType} (hlen : locals.size < 2 ^ 32) :
    Follows (localsEntry locals) (Draft.localsEntry locals) w pos
      fun locals' _ => locals'.size < 2 ^ 32 := by
  refine follows_u32.bind fun n _ _ hn => follows_valType.bind fun type _ _ _ => ?_
  rw [sum_eq (by omega), pure_bind]
  refine .ite (fun _ => follows_malformed_bind _) fun hmax => follows_pure ?_
  have hmax : ¬50000 < locals.size + n := hmax
  rw [Array.size_append, Array.size_replicate]
  omega

/-- The bodies of functions lie among the first `size` bytes. -/
def BodiesWithin (size : Nat) (d : Draft) : Prop :=
  ∀ f ∈ d.functions, f.body.start ≤ f.body.stop ∧ f.body.stop ≤ size

/-- As many functions have no body yet as bodies are left to be read. -/
structure Awaits (size first left : Nat) (d : Draft) : Prop where
  functions : ∀ f ∈ d.functions, f.type.params.length < 2 ^ 32
  bodies : BodiesWithin size d
  size_lt : d.functions.size < 2 ^ 64
  size_eq : first + d.bodyCount + left = d.functions.size

theorem Awaits.withBody {size first left : Nat} (h : Awaits size first (left + 1) d) (index : Nat)
    (locals : List ValType) {body : ByteRange} (hle : body.start ≤ body.stop)
    (hstop : body.stop ≤ size) :
    Awaits size first left { d with
      functions := d.functions.modify index ({ · with locals, body })
      bodyCount := d.bodyCount + 1 } := by
  have hmodify (f : Function) (hf : f ∈ d.functions.modify index ({ · with locals, body })) :
      f ∈ d.functions ∨ ∃ g ∈ d.functions, f = { g with locals, body } := by
    obtain ⟨i, hi⟩ := Array.mem_iff_getElem?.1 hf
    rw [Array.getElem?_modify] at hi
    split at hi
    · obtain ⟨g, hg, rfl⟩ := Option.map_eq_some_iff.1 hi
      exact .inr ⟨g, Array.mem_of_getElem? hg, rfl⟩
    · exact .inl (Array.mem_of_getElem? hi)
  refine { functions := fun f hf => ?_, bodies := fun f hf => ?_, size_lt := ?_, size_eq := ?_ }
  · obtain hf | ⟨g, hg, rfl⟩ := hmodify f hf
    · exact h.functions f hf
    · exact h.functions g hg
  · obtain hf | ⟨g, hg, rfl⟩ := hmodify f hf
    · exact h.bodies f hf
    · exact ⟨hle, hstop⟩
  · rw [Array.size_modify]
    exact h.size_lt
  · have hsize := h.size_eq
    rw [Array.size_modify]
    change first + (d.bodyCount + 1) + left = _
    omega

theorem follows_bodyEntry {first left : Nat} (h : Awaits w.bytes.size first (left + 1) d) :
    Follows (bodyEntry first d) (d.bodyEntry first) w pos
      fun d' _ => Awaits w.bytes.size first left d' := by
  have hsize := h.size_eq
  have hlt := h.size_lt
  obtain ⟨f, hf⟩ : ∃ f, d.functions[first + d.bodyCount]? = some f :=
    ⟨_, Array.getElem?_eq_getElem (by omega)⟩
  refine follows_u32.bind fun length start _ hlength => .position (.of_isSlice fun hw hstart => ?_)
  have hstop := hw.stop_lt
  rw [checkedSum_eq (by omega), pure_bind]
  refine (follows_require length).bind fun _ _ _ hrequire => ?_
  obtain ⟨rfl, hle⟩ := hrequire
  rw [sum_eq (by omega), pure_bind, element_eq (x := f) (by simpa using hf), pure_bind]
  simp only [hf, Option.map_some, Option.getD_some]
  refine (follows_within (Nat.le_add_right ..) hle
    (Q := fun x next => x.2 = next) ?_).bind fun x next _ hnext =>
      (follows_moveTo hnext.2 hle).bind fun _ _ _ _ => ?_
  · refine follows_u32.bind fun n _ _ _ => (follows_iterate (I := fun _ locals => locals.size < 2 ^ 32)
      (fun _ _ _ hlen => follows_localsEntry hlen) n ?_).bind fun _ _ _ _ =>
        .position (follows_pure rfl)
    exact h.functions f (Array.mem_of_getElem? hf)
  · exact follows_pure (h.withBody _ _ (hnext.1 ▸ hnext.2) (Nat.le_trans hle hw.stop_le))

theorem importedCount_le (m : Module) : m.importedCount ≤ m.functions.size := by
  obtain ⟨functions, hm⟩ : ∃ fs : List Function, m.functions = fs.toArray := ⟨_, rfl⟩
  rw [Module.importedCount, hm, List.takeWhile_toArray, List.size_toArray, List.size_toArray]
  exact (List.takeWhile_sublist _).length_le

theorem Bounded.bodiesWithin {size : Nat} (h : Bounded size d) (n : Nat) : BodiesWithin n d := by
  intro f hf
  rw [(h.functions f hf).2]
  exact ⟨Nat.le_refl _, Nat.zero_le n⟩

theorem follows_codeSection (h : Bounded (2 ^ 33) d) :
    Follows (codeSection d) d.codeSection w pos fun d' _ => BodiesWithin w.bytes.size d' := by
  have hsize := h.size_le
  have hfirst : d.importedCount ≤ d.functions.size := importedCount_le d.toModule
  refine follows_u32.bind fun n _ _ hn => ?_
  rw [sum_eq (by omega), pure_bind]
  refine .ite (fun _ => follows_malformed_bind _) fun hcount => ?_
  refine (follows_iterate (I := fun k d' => Awaits w.bytes.size d.importedCount k d')
    (fun _ _ _ hd => follows_bodyEntry hd) n ?_).mono fun _ _ hd => hd.bodies
  refine ⟨fun f hf => (h.functions f hf).1, h.bodiesWithin _, by omega, ?_⟩
  rw [h.bodyCount]
  exact Decidable.not_not.1 hcount

/-! ## Framing -/

/-- Skips custom sections, at most `left` of them, and keeps their names and places. -/
def customSectionsUpTo : Nat → Draft → Guarded Draft
  | 0, d => pure d
  | left + 1, d => do
    if (← peek?) = some 0 then
      advance 1
      let length ← u32
      let start ← position
      let stop ← checkedSum start length
      require length
      let (name, content) ← within stop do
        let name ← name
        pure (name, ← position)
      moveTo stop
      customSectionsUpTo left
        { d with customSections := d.customSections ++ [⟨name, ⟨content, stop⟩⟩] }
    else pure d

/-- Skips the custom sections that come next. -/
def skipCustomSections (d : Draft) : Guarded Draft := do
  customSectionsUpTo ((← read).stop - (← position)) d

/-- Reads the section `id` if it comes next, whose content must fill its payload, and skips the
custom sections behind it. -/
def knownSection (id : UInt8) (content : Draft → Guarded Draft) (d : Draft) : Guarded Draft := do
  let d ← do
    if (← peek?) = some id then
      advance 1
      let length ← u32
      let start ← position
      require length
      let stop ← sum start length
      let d ← within stop (content d)
      if (← position) ≠ stop then malformed .sectionSizeMismatch
      pure d
    else pure d
  skipCustomSections d

theorem follows_customSectionsUpTo (left : Nat) (d : Draft) :
    Follows (customSectionsUpTo left d) (d.customSectionsUpTo left) w pos
      fun d' _ => shape d' = shape d := by
  induction left generalizing d pos with
  | zero => exact follows_pure rfl
  | succ left ih =>
    refine follows_peek?.bind fun b p _ h => ?_
    obtain ⟨hget, rfl⟩ := h
    refine .ite (fun hb => (follows_advance_one (hget.trans hb)).bind fun _ _ _ _ => ?_)
      fun _ => follows_pure rfl
    refine follows_u32.bind fun length start _ hlength => .position (.of_isSlice fun hw hstart => ?_)
    have hstop := hw.stop_lt
    rw [checkedSum_eq (by omega), pure_bind]
    refine (follows_require length).bind fun _ _ _ hrequire => ?_
    obtain ⟨rfl, hle⟩ := hrequire
    refine (follows_within (Nat.le_add_right ..) hle (Q := fun _ _ => True) ?_).bind
      fun x next _ hnext => (follows_moveTo hnext.2 hle).bind fun _ _ _ _ => (ih _).mono ?_
    · exact follows_name.bind fun _ _ _ _ => .position (follows_pure trivial)
    · exact fun d' _ hd => hd

theorem follows_skipCustomSections (d : Draft) :
    Follows (skipCustomSections d) d.skipCustomSections w pos fun d' _ => shape d' = shape d :=
  .window (.position (follows_customSectionsUpTo _ d))

/-- A section keeps what the draft's shape tells, if its content does. -/
theorem follows_knownSection {id : UInt8} {content : Draft → Guarded Draft}
    {content' : Draft → Reader Draft} {P : Draft → Prop} (habsent : P d)
    (hshape : ∀ d₁ d₂, shape d₂ = shape d₁ → P d₁ → P d₂)
    (h : ∀ v p, v.bytes = w.bytes → Follows (content d) (content' d) v p fun d' _ => P d') :
    Follows (knownSection id content d) (d.knownSection id content') w pos fun d' _ => P d' := by
  have hskip (d' : Draft) (hd : P d') (p : Nat) :
      Follows (skipCustomSections d') d'.skipCustomSections w p fun d'' _ => P d'' :=
    (follows_skipCustomSections d').mono fun d'' _ heq => hshape d' d'' heq hd
  refine follows_peek?.bind fun b p _ hb => ?_
  obtain ⟨hget, rfl⟩ := hb
  refine .ite (fun hb => (follows_advance_one (hget.trans hb)).bind fun _ _ _ _ => ?_)
    fun _ => hskip d habsent _
  refine follows_u32.bind fun length start _ hlength => .position (.of_isSlice fun hw hstart => ?_)
  refine (follows_require length).bind fun _ _ _ hrequire => ?_
  obtain ⟨rfl, hle⟩ := hrequire
  have hstop := hw.stop_lt
  rw [sum_eq (by omega), pure_bind]
  refine (follows_within (Nat.le_add_right ..) hle (h _ _ rfl)).bind fun d' next _ hd => .position ?_
  exact .ite (fun _ => follows_malformed_bind _) fun _ => hskip d' hd.1 next

theorem follows_bounded {size : Nat} {id : UInt8} {content : Draft → Guarded Draft}
    {content' : Draft → Reader Draft} (h : Bounded size d)
    (hcontent : ∀ v p, Follows (content d) (content' d) v p fun d' _ => Bounded size d') :
    Follows (knownSection id content d) (d.knownSection id content') w pos
      fun d' _ => Bounded size d' :=
  follows_knownSection h (fun _ _ heq h => h.of_shape heq) fun v p _ => hcontent v p

/-- Most sections keep the shape of a draft. -/
theorem follows_shaped {size : Nat} {id : UInt8} {content : Draft → Guarded Draft}
    {content' : Draft → Reader Draft} (h : Bounded size d)
    (hcontent : ∀ v p, Follows (content d) (content' d) v p fun d' _ => shape d' = shape d) :
    Follows (knownSection id content d) (d.knownSection id content') w pos
      fun d' _ => Bounded size d' :=
  follows_bounded h fun v p => (hcontent v p).mono fun _ _ heq => h.of_shape heq

/-! ## Modules -/

/-- The known sections by id, in the order in which they may come. -/
def knownSections : List (UInt8 × (Draft → Guarded Draft)) :=
  [(1, typeSection), (2, importSection), (3, functionSection), (4, tableSection),
    (5, memorySection), (6, globalSection), (7, exportSection), (8, startSection),
    (9, elementSection), (12, dataCountSection), (10, codeSection), (11, dataSection)]

/-- Reads all sections. -/
def sections (d : Draft) : Guarded Draft := do
  let d ← skipCustomSections d
  knownSections.foldlM (fun d (id, content) => knownSection id content d) d

/-- Checks that nothing is left and that the counts of different sections agree. -/
def finish (d : Draft) : Guarded Module := do
  match ← peek? with
  | some id => malformed (if id ≤ 12 then .sectionOutOfOrder else .invalidSectionId)
  | none =>
    if (← difference d.functions.size d.importedCount) ≠ d.bodyCount then
      malformed .codeCountMismatch
    if d.dataCount.getD d.dataSegments.length ≠ d.dataSegments.length then
      malformed .dataCountMismatch
    pure d.toModule

/-- Reads the header. -/
def header : Guarded Unit := do
  require 4
  if (← slice 0 4) ≠ Module.magic then malformed .noMagic
  require 8
  moveTo 4
  let start ← skip 4
  let version ← slice start (start + 4)
  guarded (version.length = 4) .slice
  if version ≠ Module.version then malformed .unknownVersion

/-- Reads a module from bytes. -/
def decode (bytes : ByteArray) : Except Overrun (Except Error Module) :=
  let reader : Guarded Module := do
    header
    finish (← sections { bytes })
  (reader.runAt (.ofBytes bytes) 0).map (·.map Prod.fst)

theorem follows_header : Follows header Module.header w 0 fun _ _ => True := by
  refine .of_read ((follows_require 4).bind fun _ _ _ h => ?_)
  obtain ⟨rfl, hle⟩ := h
  refine .after (fun _ _ => runAt_slice (Nat.zero_le 4) hle) ?_
  refine .ite (fun _ => follows_malformed_bind _) fun _ => (follows_require 8).bind fun _ _ _ h => ?_
  obtain ⟨rfl, hle⟩ := h
  -- The version is read from where it is, not from the start.
  have hversion : Follows
      (do
        if (w.bytes.extract 4 8).toList ≠ Module.version then malformed .unknownVersion
        moveTo 8)
      (do
        if (w.bytes.extract 4 8).toList ≠ Module.version then Reader.malformed .unknownVersion
        Reader.seek 8) w 0 fun _ _ => True :=
    .ite (fun _ => follows_malformed_bind _) fun _ =>
      (follows_moveTo (Nat.zero_le 8) hle).mono fun _ _ _ => trivial
  refine hversion.congr fun hw _ => ?_
  have hskip : (skip 4).runAt w 4 = .ok (.ok (4, 8)) := runAt_skip hle hw
  have hlength : (w.bytes.extract 4 8).toList.length = 4 := by
    have hsize := Nat.le_trans hle hw.stop_le
    rw [toList_eq_data, Array.length_toList]
    change (w.bytes.extract 4 8).size = 4
    rw [ByteArray.size_extract]
    omega
  rw [runAt_bind_of_ok (runAt_moveTo (Nat.le_trans (by decide) hle)), runAt_bind_of_ok hskip,
    runAt_bind_of_ok (runAt_slice (by decide) hle), guarded_eq hlength, pure_bind]
  split
  · rfl
  · rw [runAt_moveTo hle]
    rfl

theorem follows_finish {size : Nat} (h : BodiesWithin size d) :
    Follows (finish d) d.finish w pos
      fun m _ => ∀ f ∈ m.functions, f.body.start ≤ f.body.stop ∧ f.body.stop ≤ size := by
  refine follows_peek?.bind fun b _ _ _ => ?_
  cases b with
  | some id => exact follows_malformed _
  | none =>
    dsimp only
    rw [difference_eq (importedCount_le d.toModule), pure_bind]
    exact .ite (fun _ => follows_malformed_bind _) fun _ =>
      .ite (fun _ => follows_malformed_bind _) fun _ => follows_pure h

theorem BodiesWithin.of_shape {size : Nat} {d' : Draft} (h : BodiesWithin size d)
    (hd : shape d' = shape d) : BodiesWithin size d' := by
  have hfunctions : d'.functions = d.functions := congrArg (fun s => s.2.1) hd
  exact fun f hf => h f (hfunctions ▸ hf)

theorem follows_sections (h : Bounded 0 d) :
    Follows (sections d) d.sections w pos fun d' _ => BodiesWithin w.bytes.size d' := by
  refine (follows_skipCustomSections d).bind fun d₀ _ _ h₀ => ?_
  replace h₀ := h.of_shape h₀
  simp only [knownSections, Draft.knownSections, List.foldlM_cons, List.foldlM_nil]
  refine (follows_bounded h₀ fun _ _ => follows_typeSection h₀).bind fun d₁ _ _ h₁ => ?_
  refine (follows_bounded (h₁.mono (Nat.zero_le _)) fun _ _ => follows_importSection h₁).bind
    fun d₂ _ _ h₂ => ?_
  refine (follows_bounded (h₂.mono (Nat.le_add_right ..)) fun _ _ => follows_functionSection h₂).bind
    fun d₃ _ _ h₃ => ?_
  refine (follows_shaped h₃ fun _ _ => follows_tableSection).bind fun d₄ _ _ h₄ => ?_
  refine (follows_shaped h₄ fun _ _ => follows_memorySection).bind fun d₅ _ _ h₅ => ?_
  refine (follows_shaped h₅ fun _ _ => follows_globalSection).bind fun d₆ _ _ h₆ => ?_
  refine (follows_shaped h₆ fun _ _ => follows_exportSection).bind fun d₇ _ _ h₇ => ?_
  refine (follows_shaped h₇ fun _ _ => follows_startSection).bind fun d₈ _ _ h₈ => ?_
  refine (follows_shaped h₈ fun _ _ => follows_elementSection).bind fun d₉ _ _ h₉ => ?_
  refine (follows_shaped h₉ fun _ _ => follows_dataCountSection).bind fun d₁₀ _ _ h₁₀ => ?_
  refine (follows_knownSection (P := BodiesWithin w.bytes.size) (h₁₀.bodiesWithin _)
    (fun _ _ hd h => h.of_shape hd) fun v p hv =>
      hv ▸ follows_codeSection (h₁₀.mono (by decide))).bind fun d₁₁ _ _ h₁₁ => ?_
  exact (follows_knownSection h₁₁ (fun _ _ hd h => h.of_shape hd) fun _ _ _ =>
    follows_dataSection.mono fun _ _ hd => h₁₁.of_shape hd).bind fun _ _ _ h => follows_pure h

/-- **Decoding leaves no data**: it does not overrun, it fails only with a rejection of the bytes, and
the bodies of the functions that it yields lie within these. -/
theorem decode_follows {bytes : ByteArray} (h : bytes.size < 2 ^ 63) :
    decode bytes = .ok (Module.decode bytes) ∧
      (∀ e, Module.decode bytes = .error e → e.IsRejection) ∧
      ∀ m, Module.decode bytes = .ok m → ∀ f ∈ m.functions, f.body.Fits bytes := by
  have hempty : Bounded 0 { bytes } :=
    { types := by simp, functions := by simp, size_le := Nat.le_refl _, bodyCount := rfl }
  have hall : Follows (do header; finish (← sections { bytes }))
      (do Module.header; (← Draft.sections { bytes }).finish) (.ofBytes bytes) 0
      fun m _ => ∀ f ∈ m.functions, f.body.Fits bytes :=
    follows_header.bind fun _ _ _ _ => (follows_sections hempty).bind fun _ _ _ hd =>
      follows_finish hd
  obtain ⟨heq, hmoves, hrejects⟩ := hall ⟨Nat.le_refl _, h⟩ (Nat.zero_le _)
  simp only [decode, heq, Module.decode]
  refine ⟨?_, fun e he => ?_, fun m hm => ?_⟩
  · split
    · next hrun => rw [hrun]; rfl
    · next hrun => rw [hrun]; rfl
  · split at he
    · cases he
    · next hrun =>
      cases he
      exact hrejects _ hrun
  · split at hm
    · next hrun =>
      cases hm
      exact (hmoves hrun).2
    · cases hm

end WasmEngine.Guarded
