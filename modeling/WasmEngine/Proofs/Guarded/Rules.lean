import WasmEngine.Proofs.Guarded.Stack
import WasmEngine.Typing.Rules

/-!
# Proofs/Guarded/Rules — the typing rules on the flat stack

The rule of each instruction once more, on the flat stack and with its accesses checked.
`mirrors_instr` says that it does what `Check.instr` does on the frames, and does not overrun.
-/

namespace WasmEngine.FlatCheck

open Guarded

variable {α : Type} {results : List ValType} {t : Typing}

/-- An item that must be there. -/
def required (v : Violation) : Option α → FlatCheck α
  | some a => pure a
  | none => throw v

/-- The signature of a block type. -/
def blockSignature (c : CodeContext) : BlockType → FlatCheck Signature
  | .empty => pure {}
  | .value t => pure { results := [t] }
  | .index n =>
    if c.module.types.size ≤ n then throw Violation.unknownType
    else element c.module.types.toList n

/-- Opens a block of kind `kind`. -/
def openBlock (c : CodeContext) (s : InstrSpan) (kind : BlockKind) (type : BlockType) :
    FlatCheck Unit := do
  let type ← blockSignature c type
  if kind = .ifThen then discard (expect .i32)
  discard (expectAll type.params)
  enter kind type s.start s.stop none

/-- Closes the first half of an `if` and opens the second. -/
def elseMark (s : InstrSpan) : FlatCheck Unit := do
  unless (← innermost).kind = .ifThen do throw Violation.elseWithoutIf
  let f ← leave
  enter .ifElse f.type f.opcode f.body (some s.stop)

/-- Closes the innermost block.  An `if` without `else` must leave its parameters as its results. -/
def endMark (s : InstrSpan) : FlatCheck Closing := do
  let f ← leave
  if f.kind = .function then pure .function
  else
    if f.kind = .ifThen ∧ f.type.params ≠ f.type.results then throw Violation.typeMismatch
    pushTypes f.type.results
    pure <| .block f.opcode
      { body := f.body, elseBody := f.elseBody, stop := s.stop
        paramCount := f.type.params.length, resultCount := f.type.results.length }

/-- Types a branch table. -/
def brTable (targets : List Nat) (default : Nat) : FlatCheck Unit := do
  discard (expect .i32)
  let arity := (← labelTypes default).length
  for depth in targets do
    let types ← labelTypes depth
    unless types.length = arity do throw Violation.typeMismatch
    pushAll (← expectAll types)
  discard (expectAll (← labelTypes default))
  setUnreachable

/-- Types the choice between two operands of one type. -/
def select : FlatCheck Unit := do
  discard (expect .i32)
  let x ← pop
  let y ← pop
  if x.isSome ∧ y.isSome ∧ x ≠ y then throw Violation.typeMismatch
  push (x.or y)

/-- Applies the rule of an instruction. -/
def instr (c : CodeContext) (s : InstrSpan) : Instr BlockType → FlatCheck Closing
  | .endMark => endMark s
  | i => do rule i; pure .nothing
where
  /-- The rule of an instruction that closes no block. -/
  rule : Instr BlockType → FlatCheck Unit
    | .unreachable => setUnreachable
    | .nop | .endMark => pure ()
    | .block type => openBlock c s .block type
    | .loop type => openBlock c s .loop type
    | .ifThen type => openBlock c s .ifThen type
    | .elseMark => elseMark s
    | .br depth => do
      discard (expectAll (← labelTypes depth))
      setUnreachable
    | .brIf depth => do
      let types ← labelTypes depth
      discard (expect .i32)
      discard (expectAll types)
      pushTypes types
    | .brTable targets default => brTable targets default
    | .ret => do
      discard (expectAll (← outermost).labelTypes)
      setUnreachable
    | .call func => do
      let callee ← required .unknownFunc c.module.functions[func]?
      discard (expectAll callee.type.params)
      pushTypes callee.type.results
    | .callIndirect type table => do
      if c.module.table.isNone ∨ table ≠ 0 then throw Violation.unknownTable
      let type ← required .unknownType c.module.types[type]?
      discard (expect .i32)
      discard (expectAll type.params)
      pushTypes type.results
    | .drop => discard pop
    | .select none => select
    | .select (some t) => do
      discard (expectAll [t, t, .i32])
      push t
    | .localGet index => do
      push (← required .unknownLocal c.function.locals[index]?)
    | .localSet index => do
      discard (expect (← required .unknownLocal c.function.locals[index]?))
    | .localTee index => do
      let t ← required .unknownLocal c.function.locals[index]?
      discard (expect t)
      push t
    | .globalGet index => do
      push (← required .unknownGlobal c.module.globals[index]?).type
    | .globalSet index => do
      let g ← required .unknownGlobal c.module.globals[index]?
      unless g.isMutable do throw Violation.globalIsImmutable
      discard (expect g.type)
    | .load op arg => do
      if op.logWidth < arg.align then throw Violation.alignmentTooLarge
      discard (expect .i32)
      push op.type
    | .store op arg => do
      if op.logWidth < arg.align then throw Violation.alignmentTooLarge
      discard (expectAll [.i32, op.type])
    | .memorySize => push (some .i32)
    | .memoryGrow => do
      discard (expect .i32)
      push (some .i32)
    | .memoryCopy | .memoryFill => discard (expectAll [.i32, .i32, .i32])
    | .const value => push value.type
    | .numeric op => do
      discard (expectAll op.operands)
      push op.result

theorem mirrors_required (v : Violation) (o : Option α) :
    Mirrors results (required v o) (Check.required v o) := by
  cases o with
  | some a => exact .pure a
  | none => exact .throw v

theorem mirrors_blockSignature (c : CodeContext) (type : BlockType) :
    Mirrors results (blockSignature c type) (Check.blockSignature c type) := by
  cases type with
  | empty => exact .pure _
  | value t => exact .pure _
  | index n =>
    rw [blockSignature, Check.blockSignature]
    split
    · next hle =>
      rw [Array.getElem?_eq_none hle]
      exact .throw _
    · next hlt =>
      have hget := Array.getElem?_eq_getElem (Nat.lt_of_not_le hlt)
      rw [hget, element_eq (by rw [Array.getElem?_toList]; exact hget)]
      exact .pure _

theorem mirrors_openBlock (c : CodeContext) (s : InstrSpan) {kind : BlockKind}
    (hkind : kind ≠ .function) (type : BlockType) :
    Mirrors results (openBlock c s kind type) (Check.openBlock c s kind type) := by
  refine (mirrors_blockSignature c type).bind fun type => ?_
  have henter : Mirrors results
      (do discard (expectAll type.params); enter kind type s.start s.stop none)
      (do
        discard (Check.expectAll type.params)
        Check.enter { kind, type, opcode := s.start, body := s.stop }) :=
    (mirrors_expectAll _).discard.bind fun _ => mirrors_enter hkind type _ _ none
  exact .ite (fun _ => (mirrors_expect .i32).discard.bind fun _ => henter) fun _ => henter

theorem Mirrors.forIn {β : Type} {g : α → β → FlatCheck (ForInStep β)}
    {c : α → β → Check (ForInStep β)} (h : ∀ a b, Mirrors results (g a b) (c a b)) (xs : List α)
    (b : β) : Mirrors results (forIn xs b g) (forIn xs b c) := by
  induction xs generalizing b with
  | nil => exact .pure b
  | cons x xs ih =>
    rw [List.forIn_cons, List.forIn_cons]
    refine (h x b).bind fun step => ?_
    cases step with
    | done b => exact .pure b
    | yield b => exact ih b

/-- A block other than the function has a block around it. -/
theorem exists_around (ht : t.IsNested results) (hkind : t.frame.kind ≠ .function) :
    ∃ t₀ : Typing, t.outer = t₀.frames ∧ t₀.IsNested results := by
  obtain ⟨around, outer, houter⟩ := List.exists_cons_of_ne_nil fun h => hkind (ht.kind_iff.2 h)
  exact ⟨⟨around, outer⟩, houter, ht.leave houter⟩

theorem mirrors_elseMark (s : InstrSpan) :
    Mirrors results (elseMark s) (Check.elseMark s) := by
  intro t ht
  have hflat : (t.frame.flat (flatten t.outer).operands.length).kind = t.frame.kind := rfl
  by_cases hkind : t.frame.kind = .ifThen
  · obtain ⟨t₀, houter, ht₀⟩ := exists_around ht (by rw [hkind]; decide)
    have hcheck : Check.elseMark s t = (do
        let f ← Check.finishFrame
        modify fun t => { t with frame :=
          { kind := .ifElse, type := f.type, opcode := f.opcode, body := f.body
            elseBody := some s.stop } }
        Check.pushTypes f.type.params : Check Unit) t := by
      rw [Check.elseMark, Check.get_bind, if_pos hkind]
    have hrun : (elseMark s).runOn t.flat = (do
        let f ← leave
        enter .ifElse f.type f.opcode f.body (some s.stop) : FlatCheck Unit).runOn t.flat := by
      rw [elseMark, runOn_bind_of_ok (runOn_innermost t), if_pos (hflat.trans hkind)]
    cases hfinish : Check.finishFrame t with
    | error v =>
      rw [check_bind_of_error hfinish] at hcheck
      refine { eq := ?_, nested := fun _ _ h => by rw [hcheck] at h; cases h }
      rw [hrun, runOn_bind_of_error (runOn_leave_of_error ht hfinish), hcheck]
      rfl
    | ok x =>
      obtain ⟨f, t'⟩ := x
      have hleave := runOn_leave_of_ok ht hfinish
      rw [check_bind_of_ok hfinish] at hcheck
      obtain ⟨-, rfl, rfl⟩ := Check.finishFrame_eq_ok_iff.1 hfinish
      -- The second half is opened where the first one was.
      rw [houter] at hleave
      have hne : BlockKind.ifElse ≠ .function := by decide
      have henter := mirrors_enter hne t.frame.type t.frame.opcode t.frame.body (some s.stop) t₀
        ht₀
      have hsame : Check.elseMark s t = Check.enter
          { kind := .ifElse, type := t.frame.type, opcode := t.frame.opcode, body := t.frame.body
            elseBody := some s.stop } t₀ := by
        rw [hcheck]
        change Except.ok ((), ({ frame := _, outer := t.outer } : Typing)) = _
        rw [houter]
        rfl
      refine { eq := ?_, nested := fun a t' h => henter.nested a t' (hsame ▸ h) }
      rw [hrun, runOn_bind_of_ok hleave, hsame, ← henter.eq]
      rfl
  · have hcheck : Check.elseMark s t = .error .elseWithoutIf := by
      rw [Check.elseMark, Check.get_bind, if_neg hkind]
      rfl
    refine { eq := ?_, nested := fun _ _ h => by rw [hcheck] at h; cases h }
    rw [elseMark, runOn_bind_of_ok (runOn_innermost t), if_neg fun h => hkind (hflat.symm.trans h),
      hcheck]
    rfl

/-- The step closes what the step on frames closes.  Behind the end of the function it does not
matter what is left on the stack. -/
structure Closes (results : List ValType) (g : FlatCheck Closing) (c : Check Closing) (t : Typing) :
    Prop where
  error : ∀ v, c t = .error v → g.runOn t.flat = .ok (.error v)
  ok : ∀ closing t', c t = .ok (closing, t') → ∃ s', g.runOn t.flat = .ok (.ok (closing, s')) ∧
    (closing ≠ .function → s' = t'.flat ∧ t'.IsNested results)

theorem Mirrors.closes {g : FlatCheck Closing} {c : Check Closing} (h : Mirrors results g c)
    (ht : t.IsNested results) : Closes results g c t where
  error v hv := by
    rw [(h t ht).eq, hv]
    rfl
  ok closing t' hc := ⟨t'.flat, by rw [(h t ht).eq, hc]; rfl, fun _ => ⟨rfl, (h t ht).nested _ _ hc⟩⟩

/-- The results of a block that has been closed go to the one around it. -/
def passResults (s : InstrSpan) (f : ControlFrame) : FlatCheck Closing := do
  if f.kind = .ifThen ∧ f.type.params ≠ f.type.results then throw Violation.typeMismatch
  pushTypes f.type.results
  pure (.block f.opcode (Check.closingJump f s.stop))

/-- The same on frames. -/
def passResultsOut (s : InstrSpan) (f : ControlFrame) : Check Closing := do
  if f.kind = .ifThen ∧ f.type.params ≠ f.type.results then throw .typeMismatch
  Check.pushTypes f.type.results
  pure (.block f.opcode (Check.closingJump f s.stop))

theorem mirrors_passResults (s : InstrSpan) (f : ControlFrame) :
    Mirrors results (passResults s f) (passResultsOut s f) :=
  .ite (fun _ => .throw _) fun _ => (mirrors_pushTypes _).bind fun _ => .pure _

section EndMark

variable {s : InstrSpan} {f : ControlFrame} {t' : Typing}

theorem closes_endMark_of_error {v : Violation} (ht : t.IsNested results)
    (hfinish : Check.finishFrame t = .error v) :
    Closes results (endMark s) (Check.endMark s) t := by
  have hcheck : Check.endMark s t = .error v := check_bind_of_error hfinish
  refine { error := fun v' h => ?_, ok := fun _ _ h => by rw [hcheck] at h; cases h }
  rw [hcheck] at h
  cases h
  exact runOn_bind_of_error (runOn_leave_of_error ht hfinish)

/-- The end of the function. -/
theorem closes_endMark_of_function (ht : t.IsNested results)
    (hfinish : Check.finishFrame t = .ok (f, t')) (hkind : t.frame.kind = .function) :
    Closes results (endMark s) (Check.endMark s) t := by
  have hleave := runOn_leave_of_ok ht hfinish
  have hcheck : Check.endMark s t = _ := check_bind_of_ok hfinish
  obtain ⟨-, rfl, rfl⟩ := Check.finishFrame_eq_ok_iff.1 hfinish
  have hflat : ((t.withStack [] t.frame.isUnreachable).frame.flat
    (flatten t.outer).operands.length).kind = t.frame.kind := rfl
  have houter : (t.withStack [] t.frame.isUnreachable).outer = [] := ht.kind_iff.1 hkind
  rw [Check.get_bind, houter] at hcheck
  replace hcheck : Check.endMark s t = .ok (.function, t.withStack [] t.frame.isUnreachable) :=
    hcheck
  refine { error := fun v h => ?_, ok := fun _ _ h => ?_ }
  · rw [hcheck] at h
    cases h
  rw [hcheck] at h
  cases h
  refine ⟨flatten t.outer, ?_, fun h => absurd rfl h⟩
  rw [endMark, runOn_bind_of_ok hleave, if_pos (hflat.trans hkind)]
  rfl

/-- The end of a block in another one. -/
theorem closes_endMark_of_block (ht : t.IsNested results)
    (hfinish : Check.finishFrame t = .ok (f, t')) (hkind : t.frame.kind ≠ .function) :
    Closes results (endMark s) (Check.endMark s) t := by
  have hleave := runOn_leave_of_ok ht hfinish
  have hcheck : Check.endMark s t = _ := check_bind_of_ok hfinish
  obtain ⟨-, rfl, rfl⟩ := Check.finishFrame_eq_ok_iff.1 hfinish
  have hflat : ((t.withStack [] t.frame.isUnreachable).frame.flat
    (flatten t.outer).operands.length).kind = t.frame.kind := rfl
  obtain ⟨t₀, houter, ht₀⟩ := exists_around ht hkind
  have houter' : (t.withStack [] t.frame.isUnreachable).outer = t₀.frame :: t₀.outer := houter
  rw [Check.get_bind, houter'] at hcheck
  replace hcheck : Check.endMark s t = passResultsOut s t.frame t₀ := by
    rw [hcheck]
    change (if t.frame.kind = .ifThen ∧ t.frame.type.params ≠ t.frame.type.results then
      throw .typeMismatch >>= fun _ => _ else _ : Check Closing) _ = _
    unfold passResultsOut
    split
    · rfl
    · rfl
  have hrun : (endMark s).runOn t.flat = (passResults s t.frame).runOn t₀.flat := by
    rw [endMark, runOn_bind_of_ok hleave, if_neg fun h => hkind (hflat.symm.trans h), houter]
    rfl
  obtain ⟨herror, hok⟩ := (mirrors_passResults s t.frame).closes ht₀
  exact { error := fun v h => hrun.trans (herror v (hcheck ▸ h))
          ok := fun closing t' h => hrun ▸ hok closing t' (hcheck ▸ h) }

end EndMark

theorem closes_endMark (s : InstrSpan) (ht : t.IsNested results) :
    Closes results (endMark s) (Check.endMark s) t := by
  cases hfinish : Check.finishFrame t with
  | error v => exact closes_endMark_of_error ht hfinish
  | ok x =>
    by_cases hkind : t.frame.kind = .function
    · exact closes_endMark_of_function ht hfinish hkind
    · exact closes_endMark_of_block ht hfinish hkind

theorem mirrors_brTable (targets : List Nat) (default : Nat) :
    Mirrors results (brTable targets default) (Check.brTable targets default) := by
  refine (mirrors_expect .i32).discard.bind fun _ => (mirrors_labelTypes default).bind
    fun types => ?_
  refine (Mirrors.forIn (fun depth _ => ?_) targets _).bind fun _ =>
    (mirrors_labelTypes default).bind fun types => (mirrors_expectAll types).discard.bind
      fun _ => mirrors_setUnreachable
  refine (mirrors_labelTypes depth).bind fun types' => .ite (fun _ => ?_) fun _ => .throw _
  exact (mirrors_expectAll types').bind fun xs => (mirrors_pushAll xs).bind fun _ => .pure _

theorem mirrors_select : Mirrors results select Check.select :=
  (mirrors_expect .i32).discard.bind fun _ => mirrors_pop.bind fun _ => mirrors_pop.bind fun _ =>
    .ite (fun _ => .throw _) fun _ => mirrors_push _

/-- **The rules that close no block** do the same on both stacks. -/
theorem mirrors_rule (c : CodeContext) (s : InstrSpan) (i : Instr BlockType) :
    Mirrors c.function.type.results (instr.rule c s i) (Check.instr.rule c s i) := by
  cases i with
  | unreachable => exact mirrors_setUnreachable
  | nop | endMark => exact .pure ()
  | block type => exact mirrors_openBlock c s (by decide) type
  | loop type => exact mirrors_openBlock c s (by decide) type
  | ifThen type => exact mirrors_openBlock c s (by decide) type
  | elseMark => exact mirrors_elseMark s
  | br depth =>
    exact (mirrors_labelTypes depth).bind fun types => (mirrors_expectAll types).discard.bind
      fun _ => mirrors_setUnreachable
  | brIf depth =>
    exact (mirrors_labelTypes depth).bind fun types => (mirrors_expect .i32).discard.bind
      fun _ => (mirrors_expectAll types).discard.bind fun _ => mirrors_pushTypes types
  | brTable targets default => exact mirrors_brTable targets default
  | ret =>
    have hret : Mirrors c.function.type.results
        ((do pure (← outermost).labelTypes) >>= fun types => do
          discard (expectAll types)
          setUnreachable)
        (pure c.function.type.results >>= fun types => do
          discard (Check.expectAll types)
          Check.setUnreachable) :=
      mirrors_outermost.bind fun types => (mirrors_expectAll types).discard.bind
        fun _ => mirrors_setUnreachable
    simp only [bind_assoc, pure_bind] at hret
    exact hret
  | call func =>
    exact (mirrors_required _ _).bind fun callee => (mirrors_expectAll _).discard.bind
      fun _ => mirrors_pushTypes _
  | callIndirect type table =>
    exact .ite (fun _ => .throw _) fun _ => (mirrors_required _ _).bind fun sig =>
      (mirrors_expect .i32).discard.bind fun _ => (mirrors_expectAll _).discard.bind
        fun _ => mirrors_pushTypes _
  | drop => exact mirrors_pop.discard
  | select type =>
    cases type with
    | none => exact mirrors_select
    | some t => exact (mirrors_expectAll _).discard.bind fun _ => mirrors_push _
  | localGet index => exact (mirrors_required _ _).bind fun _ => mirrors_push _
  | localSet index => exact (mirrors_required _ _).bind fun _ => (mirrors_expect _).discard
  | localTee index =>
    exact (mirrors_required _ _).bind fun _ => (mirrors_expect _).discard.bind
      fun _ => mirrors_push _
  | globalGet index => exact (mirrors_required _ _).bind fun _ => mirrors_push _
  | globalSet index =>
    exact (mirrors_required _ _).bind fun g => .ite (fun _ => (mirrors_expect _).discard)
      fun _ => .throw _
  | load op arg =>
    exact .ite (fun _ => .throw _) fun _ => (mirrors_expect .i32).discard.bind
      fun _ => mirrors_push _
  | store op arg => exact .ite (fun _ => .throw _) fun _ => (mirrors_expectAll _).discard
  | memorySize => exact mirrors_push _
  | memoryGrow => exact (mirrors_expect .i32).discard.bind fun _ => mirrors_push _
  | memoryCopy | memoryFill => exact (mirrors_expectAll _).discard
  | const value => exact mirrors_push _
  | numeric op => exact (mirrors_expectAll _).discard.bind fun _ => mirrors_push _

/-- **The rule of every instruction** does the same on both stacks. -/
theorem closes_instr (c : CodeContext) (s : InstrSpan) (i : Instr BlockType)
    (ht : t.IsNested c.function.type.results) :
    Closes c.function.type.results (instr c s i) (Check.instr c s i) t := by
  cases i with
  | endMark => exact closes_endMark s ht
  | _ => exact ((mirrors_rule c s _).bind fun _ => .pure .nothing).closes ht

end WasmEngine.FlatCheck
