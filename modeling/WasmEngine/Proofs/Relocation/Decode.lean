import WasmEngine.Proofs.Framing.Sections
import WasmEngine.Proofs.Relocation.Reader

/-!
# Proofs/Relocation/Decode — sections at another place

A module records where bodies, initialisers, offsets and the contents of segments and custom sections
are.  `Module.relocate` is what becomes of a module when bytes are inserted: each recorded offset is
shifted, and nothing else changes but the bytes and the list of custom sections.  The content of every
known section, read at its new place into a relocated draft, gives the relocated draft of before
(`Draft.relocatable_of_mem`), and so does a section as a whole.
-/

namespace WasmEngine

open Reader (Movable)

/-! ## Relocation of a module -/

/-- An insertion, the bytes after it, and what becomes of the custom sections. -/
structure Relocation extends Insertion where
  bytes : ByteArray
  customs : List CustomSection → List CustomSection

/-- A range whose two ends are shifted. -/
def ByteRange.shift (i : Insertion) (r : ByteRange) : ByteRange := ⟨i.shift r.start, i.shift r.stop⟩

/-- A function whose body is elsewhere. -/
def Function.shift (i : Insertion) (f : Function) : Function := { f with body := f.body.shift i }

/-- A global whose initialiser is elsewhere. -/
def Global.shift (i : Insertion) (g : Global) : Global := { g with init := i.shift g.init }

/-- The mode of a segment, with its offset expression elsewhere if it has one. -/
def SegmentMode.shift (i : Insertion) : SegmentMode → SegmentMode
  | .active offset => .active (i.shift offset)
  | mode => mode

/-- A segment of elements whose offset expression is elsewhere; its references are indices. -/
def ElementSegment.shift (i : Insertion) (s : ElementSegment) : ElementSegment :=
  { s with mode := s.mode.shift i }

/-- A data segment whose payload and offset expression are elsewhere. -/
def DataSegment.shift (i : Insertion) (s : DataSegment) : DataSegment :=
  ⟨s.mode.shift i, s.range.shift i⟩

/-- A custom section whose payload is elsewhere. -/
def CustomSection.shift (i : Insertion) (c : CustomSection) : CustomSection :=
  { c with range := c.range.shift i }

/-- A jump whose destinations are elsewhere. -/
def BlockJump.shift (i : Insertion) (j : BlockJump) : BlockJump :=
  { j with body := i.shift j.body, elseBody := j.elseBody.map i.shift, stop := i.shift j.stop }

/-- A side table with the opcodes and what they jump to at their new places. -/
def SideTable.shift (i : Insertion) (t : SideTable) : SideTable :=
  t.map fun entry => (i.shift entry.1, entry.2.shift i)

/-- A module after an insertion into its bytes. -/
def Module.relocate (ρ : Relocation) (m : Module) : Module :=
  { m with
    bytes := ρ.bytes
    functions := m.functions.map (Function.shift ρ.toInsertion)
    globals := m.globals.map (Global.shift ρ.toInsertion)
    elements := m.elements.map (ElementSegment.shift ρ.toInsertion)
    dataSegments := m.dataSegments.map (DataSegment.shift ρ.toInsertion)
    customSections := ρ.customs m.customSections
    sideTable := m.sideTable.map (SideTable.shift ρ.toInsertion) }

/-- A draft after an insertion into its bytes. -/
def Draft.relocate (ρ : Relocation) (d : Draft) : Draft :=
  { d with toModule := d.toModule.relocate ρ }

namespace Module

variable {ρ : Relocation} {m : Module}

@[simp] theorem relocate_size_functions : (m.relocate ρ).functions.size = m.functions.size :=
  Array.size_map ..

@[simp] theorem relocate_size_globals : (m.relocate ρ).globals.size = m.globals.size :=
  Array.size_map ..

/-- The functions of a relocated module, one by one. -/
@[simp] theorem relocate_getElem?_functions (k : Nat) :
    (m.relocate ρ).functions[k]? = m.functions[k]?.map (Function.shift ρ.toInsertion) :=
  Array.getElem?_map ..

/-- As many functions are imported as before. -/
@[simp] theorem relocate_importedCount : (m.relocate ρ).importedCount = m.importedCount := by
  obtain ⟨functions, hm⟩ : ∃ fs : List Function, m.functions = fs.toArray := ⟨_, rfl⟩
  have hmap : (m.relocate ρ).functions = (functions.map (Function.shift ρ.toInsertion)).toArray := by
    rw [relocate, hm, List.map_toArray]
  rw [importedCount, importedCount, hm, hmap, List.takeWhile_toArray, List.takeWhile_toArray,
    List.size_toArray, List.size_toArray, List.takeWhile_map, List.length_map]
  rfl

end Module

/-! ## Constant expressions -/

namespace ConstExpr

variable {i : Insertion} (globals : Array Global)

/-- Where initialisers are is of no account to constant expressions. -/
theorem checkInstr_shift (op : UInt8) (stack : List ValType) :
    checkInstr (globals.map (Global.shift i)) op stack = checkInstr globals op stack := by
  unfold checkInstr
  simp only [Array.getElem?_map]
  split
  case h_5 =>
    refine bind_congr fun k => ?_
    cases globals[k]? <;> rfl
  all_goals rfl

/-- Nor is it to the rest of an expression, by induction on the bytes that are left. -/
theorem checkRest_shift (left : Nat) (stack : List ValType) :
    checkRest (globals.map (Global.shift i)) left stack = checkRest globals left stack := by
  induction left generalizing stack with
  | zero => rfl
  | succ left ih =>
    simp only [checkRest, checkInstr_shift, ih]

/-- A constant expression is checked against the types of globals, not against their places. -/
theorem check_shift (expected : ValType) :
    check (globals.map (Global.shift i)) expected = check globals expected := by
  simp only [check, checkRest_shift]

/-- One instruction of a constant expression is the same at another place. -/
theorem movable_checkInstr (op : UInt8) (stack : List ValType) :
    Movable i (checkInstr globals op stack) := by
  have hskip (n : Nat) : Movable i (discard (Reader.skip n)) := fun w pos =>
    (Reader.relocates_skip n).map fun _ => rfl
  unfold checkInstr
  split
  · exact .bind (Movable.signed 32).discard fun _ => .pure _
  · exact .bind (Movable.signed 64).discard fun _ => .pure _
  · exact .bind (hskip 4) fun _ => .pure _
  · exact .bind (hskip 8) fun _ => .pure _
  · refine .bind .u32 fun k => ?_
    cases globals[k]? with
    | none => exact .invalid _
    | some g => exact .ite (.invalid _) (.pure _)
  · cases operator? op with
    | none => exact .invalid _
    | some operator =>
      obtain _ | ⟨a, _ | ⟨b, rest⟩⟩ := stack
      · exact .invalid _
      · exact .invalid _
      · exact .ite (.pure _) (.invalid _)

/-- So is a whole rest of an expression. -/
theorem movable_checkRest (left : Nat) (stack : List ValType) :
    Movable i (checkRest globals left stack) := by
  induction left generalizing stack with
  | zero => exact .malformed _
  | succ left ih =>
    refine .bind .byte fun op => ?_
    split
    · exact .pure _
    · exact .bind (movable_checkInstr globals op stack) ih

/-- **A constant expression is checked** the same wherever it is. -/
theorem movable_check (expected : ValType) : Movable i (check globals expected) := by
  refine Movable.of_left (s := fun left => do
    let stack ← checkRest globals (left + 1) []
    if stack = [expected] then pure () else Reader.invalid .typeMismatch) fun left => ?_
  exact .bind (movable_checkRest globals (left + 1) []) fun _ => .ite (.pure _) (.invalid _)

end ConstExpr

namespace Draft

variable {i : Insertion} {ρ : Relocation} {d : Draft} {w : Window} {pos : Nat}

/-! ## Parts of sections -/

/-- A function type is the same at another place, and so are the other parts without a place. -/
theorem movable_funcType : Movable i funcType :=
  .bind .byte fun _ => .ite (.malformed_bind _) <| .bind .u32 fun n =>
    .bind (.replicate .valType n) fun _ => .bind .u32 fun n =>
      .bind (.replicate .valType n) fun _ => .pure _

theorem movable_extent (imported : Option ImportName) : Movable i (extent imported) :=
  .bind (.unsigned 1) fun _ => .bind .u32 fun _ => .ite
    (.bind .u32 fun _ => .ite (.invalid_bind _) (.pure _)) (.pure _)

theorem movable_memoryExtent (imported : Option ImportName) : Movable i (memoryExtent imported) :=
  .bind (movable_extent imported) fun _ => .ite (.invalid_bind _) (.pure _)

theorem movable_referenceType : Movable i referenceType :=
  .bind .byte fun _ => .ite (.malformed _) (.pure _)

theorem movable_mutability : Movable i mutability := .bind .byte fun b => by
  split
  · exact .pure _
  · exact .pure _
  · exact .malformed _

theorem movable_externKind : Movable i externKind := .bind .byte fun b => by
  cases ExternKind.ofByte? b with
  | some kind => exact .pure kind
  | none => exact .malformed _

/-- A type that is named is looked up in the same types. -/
theorem movable_typeUse (d : Draft) : Movable i d.typeUse := .bind .u32 fun index => by
  cases d.types[index]? with
  | some type => exact .pure _
  | none => exact .invalid _

/-- An element given as an expression names a function by its index. -/
theorem movable_elementExpr : Movable i elementExpr := by
  have hend (func : Option Nat) : Movable i (do
      if (← Reader.byte) ≠ 0x0b then Reader.malformed .endExpected
      pure func) := .bind .byte fun _ => .ite (.malformed_bind _) (.pure _)
  refine .bind .byte fun b => ?_
  split
  · exact .bind (.map _ .u32) hend
  · exact .bind movable_referenceType fun _ => hend none
  · exact .invalid_bind _

/-- A run of locals is counted against the same cap. -/
theorem movable_localsEntry (locals : Array ValType) : Movable i (localsEntry locals) :=
  .bind .u32 fun _ => .bind .valType fun _ => .ite (.malformed_bind _) (.pure _)

/-! ## Contents of sections -/

/-- The content of a section, read at its new place into a relocated draft, gives the relocated draft
of before. -/
def Relocatable (ρ : Relocation) (content : Draft → Reader Draft) : Prop :=
  ∀ d w pos, Reader.Relocates ρ.toInsertion (Draft.relocate ρ) (content d)
    (content (d.relocate ρ)) w pos

/-- Entries one after the other are relocatable if each is. -/
theorem Relocatable.iterate {entry : Draft → Reader Draft} (h : Relocatable ρ entry) (n : Nat) :
    Relocatable ρ (Reader.iterate n entry) := by
  induction n with
  | zero => exact fun d _ _ => Reader.relocates_pure rfl
  | succ n ih => exact fun d w pos => (h d w pos).bind fun d' next _ _ _ => ih d' w next

/-- A section that is a list of entries. -/
theorem Relocatable.entries {entry : Draft → Reader Draft} (h : Relocatable ρ entry) :
    Relocatable ρ (fun d => do Reader.iterate (← Reader.u32) entry d) := fun d w _ =>
  .andThen .u32 fun n pos _ _ => h.iterate n d w pos

/-- Types have no places. -/
theorem relocatable_typeSection : Relocatable ρ typeSection := fun _ _ _ =>
  .andThen .u32 fun n _ _ _ => .andThen (.replicate movable_funcType n) fun _ _ _ _ =>
    Reader.relocates_pure rfl

/-- Imports of each kind have no places. -/
theorem relocatable_importEntry : Relocatable ρ importEntry := fun d w pos => by
  refine .andThen .name fun module _ _ _ => .andThen .name fun name _ _ _ =>
    .andThen movable_externKind fun kind _ _ _ => ?_
  cases kind with
  | func =>
    refine .andThen (movable_typeUse _) fun use _ _ _ => Reader.relocates_pure ?_
    simp [relocate, Module.relocate, Function.shift, ByteRange.shift]
  | table =>
    exact .ite Iff.rfl (fun _ => Reader.relocates_invalid_bind _) fun _ =>
      .andThen movable_referenceType fun _ _ _ _ => .andThen (movable_extent _) fun _ _ _ _ =>
        Reader.relocates_pure rfl
  | memory =>
    exact .ite Iff.rfl (fun _ => Reader.relocates_invalid_bind _) fun _ =>
      .andThen (movable_memoryExtent _) fun _ _ _ _ => Reader.relocates_pure rfl
  | global =>
    refine .andThen .valType fun _ _ _ _ => .andThen movable_mutability fun _ _ _ _ =>
      Reader.relocates_pure ?_
    simp [relocate, Module.relocate, Global.shift]

/-- The types of functions have no places, and bodies are yet to come. -/
theorem relocatable_functionSection : Relocatable ρ functionSection := fun d w pos => by
  refine .andThen .u32 fun n _ _ _ => .andThen (.replicate (movable_typeUse d) n) fun uses _ _ _ =>
    Reader.relocates_pure ?_
  simp [relocate, Module.relocate, Function.shift, ByteRange.shift, Function.comp_def]

/-- The table has no place. -/
theorem relocatable_tableSection : Relocatable ρ tableSection := fun _ _ _ =>
  .andThen .u32 fun _ _ _ _ => .ite Iff.rfl (fun _ => Reader.relocates_invalid_bind _) fun _ =>
    .ite Iff.rfl (fun _ => .andThen movable_referenceType fun _ _ _ _ =>
      .andThen (movable_extent none) fun _ _ _ _ => Reader.relocates_pure rfl) fun _ =>
        Reader.relocates_pure rfl

/-- The memory has no place. -/
theorem relocatable_memorySection : Relocatable ρ memorySection := fun _ _ _ =>
  .andThen .u32 fun _ _ _ _ => .ite Iff.rfl (fun _ => Reader.relocates_invalid_bind _) fun _ =>
    .ite Iff.rfl (fun _ => .andThen (movable_memoryExtent none) fun _ _ _ _ =>
      Reader.relocates_pure rfl) fun _ => Reader.relocates_pure rfl

/-- A constant expression is where the draft says, and is checked against the same globals. -/
theorem relocates_check {α β : Type} {f : α → β} {s : Nat → Reader α} {s' : Nat → Reader β}
    (expected : ValType)
    (h : ∀ next, Reader.Relocates ρ.toInsertion f (s pos) (s' (ρ.shift pos)) w next) :
    Reader.Relocates ρ.toInsertion f (do
      let offset ← Reader.position
      ConstExpr.check d.globals expected
      s offset) (do
      let offset ← Reader.position
      ConstExpr.check (d.relocate ρ).globals expected
      s' offset) w pos := by
  refine Reader.relocates_position.bind fun _ _ hs _ _ => ?_
  obtain ⟨rfl, rfl⟩ := Reader.position_eq_ok_iff.1 hs
  rw [show (d.relocate ρ).globals = d.globals.map (Global.shift ρ.toInsertion) from rfl,
    ConstExpr.check_shift]
  exact .andThen (ConstExpr.movable_check d.globals expected) fun _ next _ _ => h next

/-- A global records where its initialiser starts. -/
theorem relocatable_globalEntry : Relocatable ρ globalEntry := fun d w pos => by
  refine .andThen .valType fun type _ _ _ => .andThen movable_mutability fun _ _ _ _ => ?_
  refine relocates_check type fun _ => Reader.relocates_pure ?_
  simp [relocate, Module.relocate, Global.shift]

/-- Exports are checked against the numbers of what there is. -/
theorem relocatable_exportEntry : Relocatable ρ exportEntry := fun d w pos => by
  refine .andThen .name fun name _ _ _ => .andThen movable_externKind fun kind _ _ _ =>
    .andThen .u32 fun index _ _ _ => .ite Iff.rfl (fun _ => Reader.relocates_invalid_bind _)
      fun _ => ?_
  cases kind with
  | func | global =>
    exact .ite (by simp [relocate]) (fun _ => Reader.relocates_invalid_bind _) fun _ =>
      Reader.relocates_pure rfl
  | table | memory =>
    exact .ite Iff.rfl (fun _ => Reader.relocates_invalid_bind _) fun _ => Reader.relocates_pure rfl

/-- The start function is named by its index. -/
theorem relocatable_startSection : Relocatable ρ startSection := fun d w pos =>
  .andThen .u32 fun start _ _ _ =>
    .ite (by simp [relocate]) (fun _ => Reader.relocates_invalid_bind _) fun _ =>
      Reader.relocates_pure rfl

/-- The offset of an active segment, if there is what the segment is for. -/
theorem relocates_active {p p' : Prop} [Decidable p] [Decidable p'] (hp : p ↔ p') (v : Violation) :
    Reader.Relocates ρ.toInsertion (SegmentMode.shift ρ.toInsertion) (do
      if p then Reader.invalid v
      let offset ← Reader.position
      ConstExpr.check d.globals .i32
      pure (.active offset)) (do
      if p' then Reader.invalid v
      let offset ← Reader.position
      ConstExpr.check (d.relocate ρ).globals .i32
      pure (.active offset)) w pos :=
  .ite hp (fun _ => Reader.relocates_invalid_bind v) fun _ =>
    relocates_check .i32 fun _ => Reader.relocates_pure rfl

/-- An active segment of elements records where its offset starts. -/
theorem relocates_elementMode (flags : Nat) :
    Reader.Relocates ρ.toInsertion (SegmentMode.shift ρ.toInsertion) (d.elementMode flags)
      ((d.relocate ρ).elementMode flags) w pos := by
  refine .ite Iff.rfl (fun _ => Reader.relocates_pure ?_) fun _ =>
    .ite Iff.rfl (fun _ => .andThen .u32 fun _ _ _ _ => ?_) fun _ => relocates_active Iff.rfl _
  · split <;> rfl
  · exact .ite Iff.rfl (fun _ => Reader.relocates_invalid_bind _) fun _ =>
      relocates_active Iff.rfl _

/-- A segment of elements is relocatable, whatever its flags. -/
theorem relocatable_elementEntry : Relocatable ρ elementEntry := fun d w pos => by
  have hitem (flags : Nat) : Movable ρ.toInsertion (do
      let func ← if flags.testBit 2 then elementExpr else some <$> Reader.u32
      if d.functions.size ≤ func.getD 0 ∧ func.isSome then Reader.invalid .unknownFunc
      pure func) := by
    have hcheck (func : Option Nat) : Movable ρ.toInsertion (do
        if d.functions.size ≤ func.getD 0 ∧ func.isSome then Reader.invalid .unknownFunc
        pure func) := .ite (.invalid_bind _) (.pure _)
    exact .ite (.bind movable_elementExpr hcheck) (.bind (.map _ .u32) hcheck)
  refine .andThen .u32 fun flags _ _ _ => .ite Iff.rfl
    (fun _ => Reader.relocates_malformed_bind _) fun _ =>
      (relocates_elementMode flags).bind fun mode _ _ _ _ => ?_
  -- The kind may be left out, but what comes behind it is the same.
  have hrest (pos : Nat) : Reader.Relocates ρ.toInsertion (relocate ρ) (do
      let funcs ← Reader.replicate (← Reader.u32) do
        let func ← if flags.testBit 2 then elementExpr else some <$> Reader.u32
        if d.functions.size ≤ func.getD 0 ∧ func.isSome then Reader.invalid .unknownFunc
        pure func
      pure { d with elements := d.elements ++ [⟨mode, funcs⟩] }) (do
      let funcs ← Reader.replicate (← Reader.u32) do
        let func ← if flags.testBit 2 then elementExpr else some <$> Reader.u32
        if (d.relocate ρ).functions.size ≤ func.getD 0 ∧ func.isSome then
          Reader.invalid .unknownFunc
        pure func
      pure { d.relocate ρ with
        elements := (d.relocate ρ).elements ++ [⟨mode.shift ρ.toInsertion, funcs⟩] }) w pos := by
    rw [show (d.relocate ρ).functions.size = d.functions.size from Array.size_map ..]
    refine .andThen .u32 fun n _ _ _ => .andThen (.replicate (hitem flags) n) fun funcs _ _ _ =>
      Reader.relocates_pure ?_
    simp [relocate, Module.relocate, ElementSegment.shift]
  refine .ite Iff.rfl (fun _ => .andThen .byte fun kind next _ _ => ?_) fun _ => hrest _
  exact .ite Iff.rfl
    (fun _ => .ite Iff.rfl (fun _ => Reader.relocates_malformed_bind _) fun _ => hrest next)
    fun _ => .ite Iff.rfl (fun _ => Reader.relocates_malformed_bind _) fun _ => hrest next

theorem relocatable_dataCountSection : Relocatable ρ dataCountSection := fun _ _ _ =>
  .andThen .u32 fun _ _ _ _ => Reader.relocates_pure rfl

/-- An active data segment records where its offset starts. -/
theorem relocates_dataMode :
    Reader.Relocates ρ.toInsertion (SegmentMode.shift ρ.toInsertion) d.dataMode
      (d.relocate ρ).dataMode w pos := by
  refine .andThen .u32 fun flag _ _ _ => .ite Iff.rfl (fun _ => Reader.relocates_pure rfl)
    fun _ => .ite Iff.rfl (fun _ => .ite Iff.rfl (fun _ => ?_) fun _ => relocates_active Iff.rfl _)
      fun _ => Reader.relocates_invalid _
  exact .andThen .u32 fun _ _ _ _ =>
    .ite Iff.rfl (fun _ => Reader.relocates_invalid_bind _) fun _ => relocates_active Iff.rfl _

/-- A data segment records the range of its payload too. -/
theorem relocatable_dataEntry : Relocatable ρ dataEntry := fun d w pos => by
  refine relocates_dataMode.bind fun mode _ _ _ _ => .andThen .u32 fun length _ _ _ =>
    .andThen (.require length) fun _ start _ _ => .of_shift_add fun hadd =>
      (Reader.relocates_skip length).bind fun _ _ hs _ hle => Reader.relocates_pure ?_
  obtain ⟨rfl, rfl, -⟩ := Reader.skip_eq_ok_iff.1 hs
  simp [relocate, Module.relocate, DataSegment.shift, ByteRange.shift, hadd length hle]

/-- Changing an element and then all of them is changing all and then that one. -/
theorem modify_map {α β : Type} {f : α → β} {g : α → α} {h : β → β} (hcomm : ∀ a, h (f a) = f (g a))
    (as : Array α) (k : Nat) : (as.map f).modify k h = (as.modify k g).map f := by
  refine Array.ext_getElem? fun j => ?_
  rw [Array.getElem?_modify, Array.getElem?_map, Array.getElem?_map, Array.getElem?_modify]
  split
  · rw [Option.map_map, Option.map_map]
    exact congrArg (Option.map · _) (funext hcomm)
  · rfl

/-- A body records the range of its code in the function that it belongs to. -/
theorem relocatable_bodyEntry (first : Nat) : Relocatable ρ (bodyEntry first) := fun d w pos => by
  refine Reader.relocates_sized fun length start _ hstop hadd => ?_
  rw [← hadd]
  have hparams : (d.relocate ρ).functions[first + d.bodyCount]?.map (·.type.params) =
      d.functions[first + d.bodyCount]?.map (·.type.params) := by
    rw [show (d.relocate ρ).functions = d.functions.map (Function.shift ρ.toInsertion) from rfl,
      Array.getElem?_map, Option.map_map]
    rfl
  have hlocals (params : Array ValType) :
      Reader.Relocates ρ.toInsertion (Prod.map id ρ.shift) (do
        let locals ← Reader.iterate (← Reader.u32) localsEntry params
        pure (locals.toList, ← Reader.position)) (do
        let locals ← Reader.iterate (← Reader.u32) localsEntry params
        pure (locals.toList, ← Reader.position)) { w with stop := start + length } start :=
    .andThen .u32 fun n _ _ _ => .andThen (.iterate movable_localsEntry n params) fun _ _ _ _ =>
      Reader.relocates_place _
  refine Reader.Relocates.within_bind (f := Prod.map id ρ.shift) (hparams ▸ hlocals _)
    (Nat.le_add_right ..) hstop fun x next _ _ hnext => ?_
  refine (Reader.relocates_seek hnext hstop).bind fun _ _ _ _ _ => Reader.relocates_pure ?_
  have hfunctions := modify_map (f := Function.shift ρ.toInsertion)
    (g := ({ · with locals := x.1, body := ⟨x.2, start + length⟩ }))
    (h := ({ · with locals := x.1, body := ⟨ρ.shift x.2, ρ.shift (start + length)⟩ }))
    (fun _ => rfl) d.functions (first + d.bodyCount)
  exact congrArg (fun functions => { d.relocate ρ with functions, bodyCount := d.bodyCount + 1 })
    hfunctions

/-- As many bodies are read as functions await one. -/
theorem relocatable_codeSection : Relocatable ρ codeSection := fun d w pos => by
  have hfirst : (d.relocate ρ).importedCount = d.importedCount := Module.relocate_importedCount
  have hsize : (d.relocate ρ).functions.size = d.functions.size := Module.relocate_size_functions
  refine .andThen .u32 fun n next _ _ => ?_
  rw [hfirst, hsize]
  exact .ite Iff.rfl (fun _ => Reader.relocates_malformed_bind _) fun _ =>
    (relocatable_bodyEntry d.importedCount).iterate n d w next

/-- **The content of every known section can be put at another place.** -/
theorem relocatable_of_mem {x : UInt8 × (Draft → Reader Draft)} (h : x ∈ knownSections) :
    Relocatable ρ x.2 := by
  simp only [knownSections, List.mem_cons, List.not_mem_nil, or_false] at h
  obtain rfl | rfl | rfl | rfl | rfl | rfl | rfl | rfl | rfl | rfl | rfl | rfl := h
  · exact relocatable_typeSection
  · exact relocatable_importEntry.entries
  · exact relocatable_functionSection
  · exact relocatable_tableSection
  · exact relocatable_memorySection
  · exact relocatable_globalEntry.entries
  · exact relocatable_exportEntry.entries
  · exact relocatable_startSection
  · exact relocatable_elementEntry.entries
  · exact relocatable_dataCountSection
  · exact relocatable_codeSection
  · exact relocatable_dataEntry.entries

/-! ## Whole sections -/

/-- A section of known content is framed alike: its content is read in a window that ends where it
does. -/
theorem relocates_sectionContent {content : Draft → Reader Draft} (h : Relocatable ρ content) :
    Relocatable ρ (sectionContent content) := fun d w pos => by
  refine Reader.relocates_sized fun length start _ hstop hadd => ?_
  rw [← hadd]
  refine .within_bind (h d _ start) (Nat.le_add_right ..) hstop fun d' next _ _ hnext => ?_
  refine Reader.relocates_position.bind fun _ _ hs _ _ => ?_
  obtain ⟨rfl, rfl⟩ := Reader.position_eq_ok_iff.1 hs
  exact .ite (not_congr Insertion.shift_inj.symm) (fun _ => Reader.relocates_malformed_bind _)
    fun _ => Reader.relocates_pure rfl

/-- A custom section, if what becomes of the custom sections is decided before it. -/
theorem relocates_customContent
    (h : ∀ c, ρ.customs (d.customSections ++ [c]) =
      ρ.customs d.customSections ++ [c.shift ρ.toInsertion]) :
    Reader.Relocates ρ.toInsertion (relocate ρ) (customContent d) (customContent (d.relocate ρ))
      w pos := by
  refine Reader.relocates_sized fun length start _ hstop hadd => ?_
  rw [← hadd]
  refine .within_bind (.andThen .name fun _ _ _ _ => Reader.relocates_place _)
    (Nat.le_add_right ..) hstop fun x next _ _ hnext => ?_
  refine (Reader.relocates_seek hnext hstop).bind fun _ _ _ _ _ => Reader.relocates_pure ?_
  exact congrArg (fun customSections => { d.relocate ρ with customSections })
    (h ⟨x.1, ⟨x.2, start + length⟩⟩).symm

/-- The end of a module, if it is one. -/
theorem finish_relocate {v : Window} {k : Nat} (hget : v.get? (pos + k) = w.get? pos) :
    (d.relocate ρ).finish v (pos + k) =
      ρ.outcome (Prod.map (Module.relocate ρ) (· + k)) (d.finish w pos) := by
  have hpeek : Reader.peek? v (pos + k) = .ok (w.get? pos, pos + k) := by rw [Reader.peek?, hget]
  have hfirst : (d.relocate ρ).importedCount = d.importedCount := Module.relocate_importedCount
  have hsize : (d.relocate ρ).functions.size = d.functions.size := Module.relocate_size_functions
  have hdata : (d.relocate ρ).dataSegments.length = d.dataSegments.length := List.length_map ..
  have hcount : (d.relocate ρ).bodyCount = d.bodyCount := rfl
  have hdataCount : (d.relocate ρ).dataCount = d.dataCount := rfl
  rw [finish, Reader.bind_of_eq_ok hpeek, finish, Reader.bind_of_eq_ok rfl, hfirst, hsize, hdata,
    hcount, hdataCount]
  cases w.get? pos with
  | some id => rfl
  | none =>
    by_cases hbodies : d.functions.size - d.importedCount = d.bodyCount
    · by_cases hsegments : d.dataCount.getD d.dataSegments.length = d.dataSegments.length
      · simp only [hbodies, hsegments, ne_eq, not_true_eq_false, if_false]
        rfl
      · simp only [hbodies, hsegments, ne_eq, not_true_eq_false, not_false_eq_true, if_false, if_true]
        rfl
    · simp only [hbodies, ne_eq, not_false_eq_true, if_true]
      rfl

end Draft

end WasmEngine
