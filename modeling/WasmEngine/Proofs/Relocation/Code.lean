import WasmEngine.Proofs.Relocation.Decode
import WasmEngine.Proofs.Typing.Stack
import WasmEngine.Typing.Validate

/-!
# Proofs/Relocation/Code — code at another place

The validation of a body keeps the places of the blocks that are open, and yields the places of those
that are closed.  Each typing rule does the same to a stack with shifted places
(`Check.relocates_instr`), so the code of a function, read at its new place, gives the side table with
shifted places or fails in the same way, at the shifted instruction (`Module.validateFunction_relocate`).
-/

namespace WasmEngine

open Reader (Movable)

/-! ## Instructions -/

section Instructions

variable {i : Insertion}

/-- A block type is the same at another place. -/
theorem BlockType.movable_read : Movable i BlockType.read := by
  refine .bind .peek fun b => .ite (.bind (.discard .byte) fun _ => .pure _) ?_
  cases ValType.ofByte? b with
  | some t => exact .bind (.discard .byte) fun _ => .pure _
  | none =>
    refine .bind (.signed 33) fun n => ?_
    cases n with
    | ofNat n => exact .pure _
    | negSucc n => exact .invalid _

namespace Instr

/-- So are the immediates of loads and stores. -/
theorem movable_memArg : Movable i memArg := .bind .u32 fun _ => .bind .u32 fun _ => .pure _

theorem movable_zeroByte : Movable i zeroByte := .bind .byte fun _ => .ite (.malformed _) (.pure _)

theorem movable_needMemory (hasMemory : Bool) : Movable i (needMemory hasMemory) :=
  .ite (.pure _) (.invalid _)

/-- So are the bits of float constants. -/
theorem movable_word (n : Nat) : Movable i (word n) :=
  .segment (s := fun bs => pure (bs.foldr (fun b acc => b.toNat + 256 * acc) 0)) (fun _ => .pure _) n

/-- So are the instructions behind the prefix `0xfc`. -/
theorem movable_readExtended (hasMemory : Bool) : Movable i (readExtended hasMemory) := by
  refine .bind .u32 fun code => ?_
  split
  · exact .bind (movable_needMemory _) fun _ => .bind movable_zeroByte fun _ =>
      .bind movable_zeroByte fun _ => .pure _
  · exact .bind (movable_needMemory _) fun _ => .bind movable_zeroByte fun _ => .pure _
  · cases NumOp.saturating[code]? with
    | some op => exact .pure _
    | none => exact .malformed _

/-- **An instruction is read** the same wherever it is. -/
theorem movable_read (hasMemory : Bool) : Movable i (read hasMemory) := by
  refine .bind .byte fun op => ?_
  split
  · exact .pure _
  · exact .pure _
  · exact .map _ BlockType.movable_read
  · exact .map _ BlockType.movable_read
  · exact .map _ BlockType.movable_read
  · exact .pure _
  · exact .pure _
  · exact .map _ .u32
  · exact .map _ .u32
  · exact .bind .u32 fun n => .bind (.replicate .u32 n) fun _ => .map _ .u32
  · exact .pure _
  · exact .map _ .u32
  · exact .bind .u32 fun _ => .map _ .u32
  · exact .pure _
  · exact .pure _
  · exact .bind .u32 fun _ => .ite (.invalid_bind _) (.map _ (.map _ .valType))
  · exact .map _ .u32
  · exact .map _ .u32
  · exact .map _ .u32
  · exact .map _ .u32
  · exact .map _ .u32
  · exact .bind (movable_needMemory _) fun _ => .bind movable_zeroByte fun _ => .pure _
  · exact .bind (movable_needMemory _) fun _ => .bind movable_zeroByte fun _ => .pure _
  · exact .bind (.signed 32) fun _ => .pure _
  · exact .bind (.signed 64) fun _ => .pure _
  · exact .bind (movable_word 4) fun _ => .pure _
  · exact .bind (movable_word 8) fun _ => .pure _
  · exact movable_readExtended hasMemory
  · cases LoadOp.ofOpcode? op with
    | some loadOp => exact .bind (movable_needMemory _) fun _ => .map _ movable_memArg
    | none =>
      cases StoreOp.ofOpcode? op with
      | some storeOp => exact .bind (movable_needMemory _) fun _ => .map _ movable_memArg
      | none =>
        cases NumOp.ofOpcode? op with
        | some numOp => exact .pure _
        | none => exact .malformed _

end Instr

end Instructions

/-! ## Typing rules -/

/-- The frame of a block whose opcode and body are elsewhere. -/
def ControlFrame.shift (i : Insertion) (f : ControlFrame) : ControlFrame :=
  { f with opcode := i.shift f.opcode, body := i.shift f.body, elseBody := f.elseBody.map i.shift }

/-- The state of validation with the places of open blocks shifted. -/
def Typing.shift (i : Insertion) (t : Typing) : Typing :=
  ⟨t.frame.shift i, t.outer.map (ControlFrame.shift i)⟩

/-- What a block that is closed tells of its place. -/
def Closing.shift (i : Insertion) : Closing → Closing
  | .block offset jump => .block (i.shift offset) (jump.shift i)
  | closing => closing

/-- The place of an instruction. -/
def InstrSpan.shift (i : Insertion) (s : InstrSpan) : InstrSpan := ⟨i.shift s.start, i.shift s.stop⟩

/-- The context of a function of a relocated module. -/
def CodeContext.relocate (ρ : Relocation) (c : CodeContext) : CodeContext :=
  ⟨c.module.relocate ρ, c.function.shift ρ.toInsertion⟩

namespace Check

variable {α β γ δ : Type} {i : Insertion} {f : α → β} {g : γ → δ} {c : Check α} {c' : Check β}

/-- A step of validation and its counterpart on shifted places. -/
def Relocates (i : Insertion) (f : α → β) (c : Check α) (c' : Check β) : Prop :=
  ∀ t : Typing, c' (t.shift i) = (c t).map (Prod.map f (Typing.shift i))

/-- A result may be shifted, as `f` says. -/
theorem relocates_pure {a : α} {b : β} (h : b = f a) : Relocates i f (pure a) (pure b) := fun _ => by
  obtain rfl := h
  rfl

/-- A violation has no place of its own: the reader adds it. -/
theorem relocates_throw (v : Violation) : Relocates i f (throw v) (throw v) := fun _ => rfl

/-- What is known of the operands is told with the places of the blocks shifted. -/
theorem relocates_get : Relocates i (Typing.shift i) get get := fun _ => rfl

/-- A check that relocates goes on with one that does. -/
theorem Relocates.bind {s : α → Check γ} {s' : β → Check δ} (h : Relocates i f c c')
    (hs : ∀ a, Relocates i g (s a) (s' (f a))) : Relocates i g (c >>= s) (c' >>= s') := fun t => by
  change (c' (t.shift i) >>= fun x => s' x.1 x.2) = ((c t >>= fun x => s x.1 x.2)).map _
  rw [h t]
  cases c t with
  | error v => rfl
  | ok x => exact hs x.1 x.2

theorem Relocates.discard (h : Relocates i f c c') : Relocates i id (discard c) (discard c') := by
  change Relocates i id (Function.const α PUnit.unit <$> c) (Function.const β PUnit.unit <$> c')
  rw [map_eq_pure_bind, map_eq_pure_bind]
  exact h.bind fun _ => relocates_pure rfl

/-- Conditions that decide alike choose checks that relocate. -/
theorem Relocates.ite {p p' : Prop} [Decidable p] [Decidable p'] {s : Check α} {s' : Check β}
    (hp : p ↔ p') (h : Relocates i f c c') (h' : Relocates i f s s') :
    Relocates i f (if p then c else s) (if p' then c' else s') := by
  by_cases hcase : p
  · rwa [if_pos hcase, if_pos (hp.1 hcase)]
  · rwa [if_neg hcase, if_neg fun h => hcase (hp.2 h)]

theorem relocates_throw_bind (v : Violation) {s : α → Check γ} {s' : α → Check δ} :
    Relocates i g (throw v >>= s) (throw v >>= s') := fun _ => rfl

/-- What is looked up is found shifted, or missed on both sides. -/
theorem relocates_required (v : Violation) (o : Option α) (f : α → β) :
    Relocates i f (required v o) (required v (o.map f)) := by
  cases o with
  | none => exact relocates_throw v
  | some a => exact relocates_pure rfl

/-- A change of what is known of the operands relocates if it commutes with shifting. -/
theorem relocates_modify {h h' : Typing → Typing} (hcomm : ∀ t, h' (t.shift i) = (h t).shift i) :
    Relocates i id (modify h) (modify h') := fun t => by
  change Except.ok ((), h' (t.shift i)) = _
  rw [hcomm]
  rfl

/-- So does a change of the innermost frame. -/
theorem relocates_modifyFrame {h h' : ControlFrame → ControlFrame}
    (hcomm : ∀ f, h' (f.shift i) = (h f).shift i) :
    Relocates i id (modifyFrame h) (modifyFrame h') :=
  relocates_modify fun t => congrArg (Typing.mk · _) (hcomm t.frame)

theorem relocates_push (x : OperandType) : Relocates i id (push x) (push x) :=
  relocates_modifyFrame fun _ => rfl

theorem relocates_pushAll (xs : List OperandType) : Relocates i id (pushAll xs) (pushAll xs) :=
  relocates_modifyFrame fun _ => rfl

theorem relocates_pushTypes (ts : List ValType) : Relocates i id (pushTypes ts) (pushTypes ts) :=
  relocates_pushAll _

theorem relocates_setUnreachable : Relocates i id setUnreachable setUnreachable :=
  relocates_modifyFrame fun _ => rfl

/-- Popping looks at the operands of the innermost frame, which have no places. -/
theorem relocates_pop : Relocates i id pop pop := by
  refine relocates_get.bind fun t => ?_
  obtain ⟨⟨kind, type, operands, isUnreachable, opcode, body, elseBody⟩, outer⟩ := t
  cases operands with
  | cons x rest =>
    have htake : Relocates i id (modifyFrame ({ · with operands := rest }))
      (modifyFrame ({ · with operands := rest })) := relocates_modifyFrame fun _ => rfl
    exact htake.bind fun _ => relocates_pure rfl
  | nil => exact .ite Iff.rfl (relocates_pure rfl) (relocates_throw _)

/-- An operand of a given type is popped alike. -/
theorem relocates_expect (t : ValType) : Relocates i id (expect t) (expect t) := by
  refine relocates_pop.bind fun x => ?_
  cases x with
  | none => exact relocates_pure rfl
  | some actual => exact .ite Iff.rfl (relocates_pure rfl) (relocates_throw _)

theorem relocates_expectAll (ts : List ValType) :
    Relocates i id (expectAll ts) (expectAll ts) := by
  induction ts with
  | nil => exact relocates_pure rfl
  | cons t ts ih => exact ih.bind fun _ => (relocates_expect t).bind fun _ => relocates_pure rfl

/-- The types of a label are those of the shifted frame. -/
theorem relocates_labelTypes (depth : Nat) :
    Relocates i id (labelTypes depth) (labelTypes depth) := by
  refine relocates_get.bind fun t => ?_
  have hlabels : ((t.shift i).frame :: (t.shift i).outer)[depth]? =
      (t.frame :: t.outer)[depth]?.map (ControlFrame.shift i) :=
    List.getElem?_map (l := t.frame :: t.outer) (f := ControlFrame.shift i)
  rw [hlabels]
  cases (t.frame :: t.outer)[depth]? with
  | none => exact relocates_throw _
  | some f => exact relocates_pure rfl

/-- A block is entered with its frame shifted. -/
theorem relocates_enter (frame : ControlFrame) :
    Relocates i id (enter frame) (enter (frame.shift i)) := by
  have henter : Relocates i id (modify fun t => ⟨frame, t.frame :: t.outer⟩)
    (modify fun t => ⟨frame.shift i, t.frame :: t.outer⟩) := relocates_modify fun _ => rfl
  exact henter.bind fun _ => relocates_pushTypes _

/-- The innermost frame is finished and yielded, shifted. -/
theorem relocates_finishFrame : Relocates i (ControlFrame.shift i) finishFrame finishFrame :=
  relocates_get.bind fun _ => (relocates_expectAll _).discard.bind fun _ => relocates_get.bind
    fun _ => .ite Iff.rfl (relocates_pure rfl) (relocates_throw _)

/-- An item that no place depends on. -/
theorem relocates_fixed (v : Violation) (o : Option α) :
    Relocates i id (required v o) (required v o) := by
  cases o with
  | none => exact relocates_throw v
  | some a => exact relocates_pure rfl

/-- Opening a block records where its opcode and its body are, both shifted. -/
theorem relocates_openBlock {ρ : Relocation} (c : CodeContext) (s : InstrSpan) (kind : BlockKind)
    (type : BlockType) : Relocates ρ.toInsertion id (openBlock c s kind type)
      (openBlock (c.relocate ρ) (s.shift ρ.toInsertion) kind type) := by
  have hsignature : Relocates ρ.toInsertion id (blockSignature c type)
      (blockSignature (c.relocate ρ) type) := by
    cases type with
    | empty => exact relocates_pure rfl
    | value t => exact relocates_pure rfl
    | index n => exact relocates_fixed _ _
  refine hsignature.bind fun type => ?_
  have henter : Relocates ρ.toInsertion id
      (do
        discard (expectAll type.params)
        enter { kind, type, opcode := s.start, body := s.stop })
      (do
        discard (expectAll type.params)
        enter { kind, type, opcode := ρ.shift s.start, body := ρ.shift s.stop }) :=
    (relocates_expectAll _).discard.bind fun _ => relocates_enter _
  exact .ite Iff.rfl ((relocates_expect .i32).discard.bind fun _ => henter) henter

/-- The second branch of a block starts behind its `else`, at the shifted place. -/
theorem relocates_elseMark (s : InstrSpan) :
    Relocates i id (elseMark s) (elseMark (s.shift i)) := by
  refine relocates_get.bind fun t => .ite Iff.rfl ?_ (relocates_throw_bind _)
  refine relocates_finishFrame.bind fun f => ?_
  let half : ControlFrame := { kind := .ifElse, type := f.type, opcode := f.opcode, body := f.body
                               elseBody := some s.stop }
  have hmodify : Relocates i id (modify fun t => { t with frame := half })
    (modify fun t => { t with frame := half.shift i }) := relocates_modify fun _ => rfl
  exact hmodify.bind fun _ => relocates_pushTypes _

/-- The jump that an `end` yields is the shifted one. -/
theorem relocates_endMark (s : InstrSpan) :
    Relocates i (Closing.shift i) (endMark s) (endMark (s.shift i)) := by
  refine relocates_finishFrame.bind fun f => relocates_get.bind fun t => ?_
  obtain ⟨frame, outer⟩ := t
  cases outer with
  | nil => exact relocates_pure rfl
  | cons around outer =>
    have hset : Relocates i id (set (⟨around, outer⟩ : Typing))
      (set ((⟨around, outer⟩ : Typing).shift i)) := fun _ => rfl
    exact .ite Iff.rfl (relocates_throw_bind _)
      (hset.bind fun _ => (relocates_pushTypes _).bind fun _ => relocates_pure rfl)

/-- A loop relocates if its body does, by induction on what it runs over. -/
theorem Relocates.forIn {s : α → γ → Check (ForInStep γ)}
    (h : ∀ a b, Relocates i id (s a b) (s a b)) (xs : List α) (b : γ) :
    Relocates i id (forIn xs b s) (forIn xs b s) := by
  induction xs generalizing b with
  | nil => exact relocates_pure rfl
  | cons x xs ih =>
    rw [List.forIn_cons]
    refine (h x b).bind fun step => ?_
    cases step with
    | done b => exact relocates_pure rfl
    | yield b => exact ih b

/-- The targets of a branch table are compared alike. -/
theorem relocates_brTable (targets : List Nat) (default : Nat) :
    Relocates i id (brTable targets default) (brTable targets default) := by
  refine (relocates_expect .i32).discard.bind fun _ => (relocates_labelTypes default).bind
    fun types => ?_
  refine (Relocates.forIn (fun depth _ => ?_) targets _).bind fun _ =>
    (relocates_labelTypes default).bind fun types => (relocates_expectAll types).discard.bind
      fun _ => relocates_setUnreachable
  refine (relocates_labelTypes depth).bind fun types' => .ite Iff.rfl ?_ (relocates_throw_bind _)
  exact (relocates_expectAll types').bind fun xs => (relocates_pushAll xs).bind fun _ =>
    relocates_pure rfl

theorem relocates_select : Relocates i id select select :=
  (relocates_expect .i32).discard.bind fun _ => relocates_pop.bind fun _ => relocates_pop.bind
    fun _ => .ite Iff.rfl (relocates_throw_bind _) (relocates_push _)

/-- A function that is looked up has its body shifted, or is missing on both sides. -/
theorem relocates_function {ρ : Relocation} (c : CodeContext) (func : Nat) :
    Relocates ρ.toInsertion (Function.shift ρ.toInsertion)
      (required .unknownFunc c.module.functions[func]?)
      (required .unknownFunc (c.relocate ρ).module.functions[func]?) := by
  rw [show (c.relocate ρ).module.functions[func]? = _ from Module.relocate_getElem?_functions func]
  exact relocates_required _ _ _

/-- A global that is looked up has its initialiser shifted, or is missing on both sides. -/
theorem relocates_global {ρ : Relocation} (c : CodeContext) (index : Nat) :
    Relocates ρ.toInsertion (Global.shift ρ.toInsertion)
      (required .unknownGlobal c.module.globals[index]?)
      (required .unknownGlobal (c.relocate ρ).module.globals[index]?) := by
  have hglobal : (c.relocate ρ).module.globals[index]? =
      c.module.globals[index]?.map (Global.shift ρ.toInsertion) := Array.getElem?_map ..
  rw [hglobal]
  exact relocates_required _ _ _

/-- **The rules that close no block** do the same to shifted places. -/
theorem relocates_rule {ρ : Relocation} (c : CodeContext) (s : InstrSpan) (j : Instr BlockType) :
    Relocates ρ.toInsertion id (instr.rule c s j)
      (instr.rule (c.relocate ρ) (s.shift ρ.toInsertion) j) := by
  cases j with
  | unreachable => exact relocates_setUnreachable
  | nop | endMark => exact relocates_pure rfl
  | block type | loop type | ifThen type => exact relocates_openBlock c s _ type
  | elseMark => exact relocates_elseMark s
  | br depth =>
    exact (relocates_labelTypes depth).bind fun types => (relocates_expectAll types).discard.bind
      fun _ => relocates_setUnreachable
  | brIf depth =>
    exact (relocates_labelTypes depth).bind fun types => (relocates_expect .i32).discard.bind
      fun _ => (relocates_expectAll types).discard.bind fun _ => relocates_pushTypes types
  | brTable targets default => exact relocates_brTable targets default
  | ret => exact (relocates_expectAll _).discard.bind fun _ => relocates_setUnreachable
  | call func =>
    exact (relocates_function c func).bind fun callee => (relocates_expectAll _).discard.bind
      fun _ => relocates_pushTypes _
  | callIndirect type table =>
    exact .ite Iff.rfl (relocates_throw_bind _) ((relocates_fixed _ _).bind fun sig =>
      (relocates_expect .i32).discard.bind fun _ => (relocates_expectAll _).discard.bind
        fun _ => relocates_pushTypes _)
  | drop => exact relocates_pop.discard
  | select type =>
    cases type with
    | none => exact relocates_select
    | some t => exact (relocates_expectAll _).discard.bind fun _ => relocates_push _
  | localGet index => exact (relocates_fixed _ _).bind fun _ => relocates_push _
  | localSet index => exact (relocates_fixed _ _).bind fun _ => (relocates_expect _).discard
  | localTee index =>
    exact (relocates_fixed _ _).bind fun _ => (relocates_expect _).discard.bind
      fun _ => relocates_push _
  | globalGet index => exact (relocates_global c index).bind fun _ => relocates_push _
  | globalSet index =>
    exact (relocates_global c index).bind fun g => .ite Iff.rfl (relocates_expect _).discard
      (relocates_throw_bind _)
  | load op arg =>
    exact .ite Iff.rfl (relocates_throw_bind _) ((relocates_expect .i32).discard.bind
      fun _ => relocates_push _)
  | store op arg =>
    exact .ite Iff.rfl (relocates_throw_bind _) (relocates_expectAll _).discard
  | memorySize => exact relocates_push _
  | memoryGrow => exact (relocates_expect .i32).discard.bind fun _ => relocates_push _
  | memoryCopy | memoryFill => exact (relocates_expectAll _).discard
  | const value => exact relocates_push _
  | numeric op => exact (relocates_expectAll _).discard.bind fun _ => relocates_push _

/-- **The rule of every instruction** does the same to shifted places. -/
theorem relocates_instr {ρ : Relocation} (c : CodeContext) (s : InstrSpan) (j : Instr BlockType) :
    Relocates ρ.toInsertion (Closing.shift ρ.toInsertion) (instr c s j)
      (instr (c.relocate ρ) (s.shift ρ.toInsertion) j) := by
  cases j with
  | endMark => exact relocates_endMark s
  | _ => exact (relocates_rule c s _).bind fun _ => relocates_pure rfl

end Check

/-! ## Bodies -/

/-- An entry is shifted before or after it is put into the table: shifting keeps what is equal
apart. -/
theorem SideTable.shift_insert {i : Insertion} (offset : Nat) (jump : BlockJump) (t : SideTable) :
    (t.insert offset jump).shift i = (t.shift i).insert (i.shift offset) (jump.shift i) := by
  induction t with
  | nil => rfl
  | cons entry t ih =>
    have hcons : SideTable.shift i (entry :: t) =
        (i.shift entry.1, entry.2.shift i) :: SideTable.shift i t := rfl
    rw [hcons, insert, insert]
    simp only [Insertion.shift_lt_shift_iff, Insertion.shift_inj, ← ih]
    split
    · rfl
    · split <;> rfl

/-- Adding the entries of one table to another. -/
theorem SideTable.shift_foldl {i : Insertion} (t others : SideTable) :
    SideTable.shift i (t.foldl (fun acc entry => acc.insert entry.1 entry.2) others) =
      (t.shift i).foldl (fun acc entry => acc.insert entry.1 entry.2) (others.shift i) := by
  induction t generalizing others with
  | nil => rfl
  | cons entry t ih =>
    rw [List.foldl_cons, ih, shift_insert]
    rfl

section Reading

variable {α β : Type} {i : Insertion} {f : α → β} {r : Reader α} {r' : Reader β} {w : Window}
  {pos : Nat}

/-- A violation is located at the shifted offset. -/
theorem Reader.Relocates.locate (site : CodeSite) (h : Relocates i f r r' w pos) :
    Relocates i f (r.locate site) (r'.locate { site with offset := i.shift site.offset }) w pos := by
  intro k v hm
  obtain ⟨hmoves, heq⟩ := h hm
  rw [Reader.locate, Reader.locate, heq]
  cases hr : r w pos with
  | ok x =>
    refine ⟨fun a next ha => ?_, rfl⟩
    rw [Reader.locate, hr] at ha
    exact hmoves (hr.trans ha)
  | error e =>
    refine ⟨fun a next ha => ?_, ?_⟩
    · rw [Reader.locate, hr] at ha
      cases e <;> cases ha
    · cases e with
      | validation cause blamed => cases blamed <;> rfl
      | _ => rfl

/-- A check that relocates reads nothing and relocates as a reader. -/
theorem Check.Relocates.lift {c : Check α} {c' : Check β} (h : Check.Relocates i f c c') (t : Typing) :
    Reader.Relocates i (Prod.map f (Typing.shift i)) (c.lift t) (c'.lift (t.shift i)) w pos := by
  have hrun : c'.run (t.shift i) = (c.run t).map (Prod.map f (Typing.shift i)) := h t
  rw [Check.lift, Check.lift, hrun]
  cases c.run t with
  | ok x => exact Reader.relocates_pure rfl
  | error v => exact Reader.relocates_invalid v

end Reading

namespace Module

variable {ρ : Relocation} {w : Window} {pos : Nat} {m : Module}

/-- An instruction is read and checked alike, at its shifted place. -/
theorem relocates_validateInstr (c : CodeContext) (t : Typing) :
    Reader.Relocates ρ.toInsertion (Prod.map (Closing.shift ρ.toInsertion) (Typing.shift ρ.toInsertion))
      (validateInstr c t) (validateInstr (c.relocate ρ) (t.shift ρ.toInsertion)) w pos :=
  Reader.relocates_position.bind fun _ _ _ _ _ =>
    .andThen (Instr.movable_read c.module.memory.isSome) fun _ _ _ _ =>
      Reader.relocates_position.bind fun _ _ _ _ _ => (Check.relocates_instr c _ _).lift t

/-- **Code is validated** the same wherever it is: the places of its blocks are shifted. -/
theorem relocates_validateCode (c : CodeContext) (func left : Nat) (t : Typing) (table : SideTable) :
    Reader.Relocates ρ.toInsertion (SideTable.shift ρ.toInsertion) (validateCode c func left t table)
      (validateCode (c.relocate ρ) func left (t.shift ρ.toInsertion) (table.shift ρ.toInsertion))
      w pos := by
  induction left generalizing t table pos with
  | zero => exact Reader.relocates_malformed _
  | succ left ih =>
    refine Reader.relocates_position.bind fun offset _ _ _ _ =>
      ((relocates_validateInstr c t).locate ⟨func, offset⟩).bind fun x _ _ _ _ => ?_
    obtain ⟨closing, t'⟩ := x
    cases closing with
    | nothing => exact ih t' table
    | block offset jump =>
      change Reader.Relocates _ _ _ (validateCode (c.relocate ρ) func left _
        (SideTable.insert (ρ.shift offset) (jump.shift ρ.toInsertion) _)) w _
      rw [← SideTable.shift_insert]
      exact ih t' _
    | function => exact Reader.relocates_pure rfl

/-- **A function is validated** the same wherever its body is. -/
theorem validateFunction_relocate {func k : Nat} {f : Function} (hf : m.functions[func]? = some f)
    (hm : ρ.Moves k ⟨m.bytes, f.body.stop⟩ ⟨ρ.bytes, ρ.shift f.body.stop⟩ f.body.start) :
    (m.relocate ρ).validateFunction func =
      ρ.outcome (SideTable.shift ρ.toInsertion) (m.validateFunction func) := by
  have hstart : ρ.shift f.body.start = f.body.start + k := hm.shift_eq _ (Nat.le_refl _) hm.pos_le
  have hstop : ρ.shift f.body.stop = f.body.stop + k := hm.stop_eq
  have hlength : (f.body.shift ρ.toInsertion).length = f.body.length := by
    rw [ByteRange.length, ByteRange.length, ByteRange.shift, hstart, hstop, Nat.add_sub_add_right]
  have hf' : (m.relocate ρ).functions[func]? = some (f.shift ρ.toInsertion) := by
    rw [relocate_getElem?_functions, hf, Option.map_some]
  let frame : ControlFrame := { kind := .function, type := { results := f.type.results }
                                opcode := f.body.start, body := f.body.start }
  have hrun : (validateCode ⟨m.relocate ρ, f.shift ρ.toInsertion⟩ func
      ((f.body.shift ρ.toInsertion).length + 1) ⟨frame.shift ρ.toInsertion, []⟩ []).runAt
        ⟨ρ.bytes, ρ.shift f.body.stop⟩ (ρ.shift f.body.start) =
      ρ.outcome (Prod.map (SideTable.shift ρ.toInsertion) (· + k))
        ((validateCode ⟨m, f⟩ func (f.body.length + 1) ⟨frame, []⟩ []).runAt ⟨m.bytes, f.body.stop⟩
          f.body.start) := by
    rw [hlength, hstart]
    exact (relocates_validateCode ⟨m, f⟩ func _ ⟨frame, []⟩ [] hm).2
  simp only [validateFunction, hf, hf']
  refine Insertion.outcome_bind hrun fun x _ => ?_
  change (if x.2 + k ≠ ρ.shift f.body.stop then _ else _) = _
  rw [hstop]
  by_cases hend : x.2 = f.body.stop
  · rw [if_neg (by simp [hend]), if_neg (by simp [hend])]
    rfl
  · rw [if_pos (by simpa using hend), if_pos hend]
    rfl

/-- The tables of functions that can each be validated at their new places. -/
theorem validateFunctions_relocate {funcs : List Nat}
    (h : ∀ func ∈ funcs, (m.relocate ρ).validateFunction func =
      ρ.outcome (SideTable.shift ρ.toInsertion) (m.validateFunction func)) :
    (m.relocate ρ).validateFunctions funcs =
      ρ.outcome (SideTable.shift ρ.toInsertion) (m.validateFunctions funcs) := by
  induction funcs with
  | nil => rfl
  | cons func funcs ih =>
    obtain ⟨hfunc, hfuncs⟩ := List.forall_mem_cons.1 h
    refine Insertion.outcome_bind hfunc fun table _ => Insertion.outcome_bind (ih hfuncs)
      fun others _ => ?_
    exact congrArg Except.ok (SideTable.shift_foldl table others).symm

/-- The start function has the same type. -/
theorem hasValidStart_relocate : (m.relocate ρ).HasValidStart ↔ m.HasValidStart := by
  have hfunction : (m.relocate ρ).start.bind ((m.relocate ρ).functions[·]?) =
      (m.start.bind (m.functions[·]?)).map (Function.shift ρ.toInsertion) := by
    change m.start.bind _ = _
    cases m.start with
    | none => rfl
    | some func => exact relocate_getElem?_functions func
  rw [HasValidStart, hfunction, HasValidStart]
  cases m.start.bind (m.functions[·]?) with
  | none => simp
  | some f => simp [Function.shift]

/-- **A module is validated** the same at its new place, if its functions are. -/
theorem validate_relocate
    (h : ∀ func, m.importedCount ≤ func → func < m.functions.size →
      (m.relocate ρ).validateFunction func =
        ρ.outcome (SideTable.shift ρ.toInsertion) (m.validateFunction func)) :
    (m.relocate ρ).validate = ρ.outcome (relocate ρ) m.validate := by
  have htable : (m.relocate ρ).sideTable.isSome = m.sideTable.isSome := Option.isSome_map
  have hall : ∀ func ∈ (List.range (m.functions.size - m.importedCount)).map (m.importedCount + ·),
      (m.relocate ρ).validateFunction func =
        ρ.outcome (SideTable.shift ρ.toInsertion) (m.validateFunction func) := fun func hfunc => by
    obtain ⟨j, hj, rfl⟩ := List.mem_map.1 hfunc
    have := List.mem_range.1 hj
    exact h _ (Nat.le_add_right ..) (by omega)
  have hfunctions := validateFunctions_relocate hall
  rw [validate, validate, htable, relocate_size_functions, relocate_importedCount]
  cases m.sideTable.isSome with
  | true => rfl
  | false =>
    refine Insertion.outcome_bind hfunctions fun table _ => ?_
    simp only [hasValidStart_relocate]
    split <;> rfl

end Module

end WasmEngine
