import WasmEngine.Proofs.Safety.Access

/-!
# Proofs/Safety/Call — entering and leaving functions keeps the invariant

A function that is entered with as many arguments as its type says can run, whether it is code or an
import, and yields as many results.
-/

namespace WasmEngine

variable {σ : Type} {E : Error → Prop} {S : Outline σ}

/-- Whether errors of execution are among those of `E`. -/
abbrev AllowsRuntime (E : Error → Prop) : Prop := ∀ e : Error, e.IsRuntime → E e

theorem isRuntime_stackOverflow {α : Type} {e : Error}
    (h : (stackOverflow : Except Error α) = .error e) : e.IsRuntime := by
  cases h
  trivial

/-! ## Code -/

/-- **A new activation can run.** -/
theorem Frame.canRun_new {sh : Shape σ} {limits : Limits} {f : Function} {declared below depth : Nat}
    {args : List Slot} {frame : Frame} {func : Nat} (hs : sh.IsSound)
    (hf : sh.module.functions[func]? = some f) (hlocal : f.imported = none)
    (hlocals : f.type.params.length + declared = f.locals.length)
    (hargs : args.length = f.type.params.length)
    (h : Frame.new limits f.type f.body.start declared args below depth = .ok frame) :
    CodeContext.CanRun ⟨sh.module, f⟩ sh.sideTable frame (frame.operands.length + 0) ∧
      frame.resultCount = f.type.results.length := by
  unfold Frame.new at h
  split at h
  · cases h
  · split at h
    · cases h
    · cases h
      obtain ⟨code, stop, hcode⟩ := hs.compiled.hasCode func f hf hlocal
      refine ⟨⟨?_, rfl, [f.type.results], f.type.results, stop, ?_⟩, rfl⟩
      · simp only [Array.size_append, List.size_toArray, Array.size_replicate]
        omega
      · exact ⟨CodeContext.encloses_nil.2 ⟨rfl, rfl, hcode.ends⟩, code, [], hcode.lies,
          hcode.typed, rfl⟩

theorem isRuntime_of_new {limits : Limits} {type : Signature} {entry declared below depth : Nat}
    {args : List Slot} {e : Error}
    (h : Frame.new limits type entry declared args below depth = .error e) : e.IsRuntime := by
  unfold Frame.new at h
  split at h
  · exact isRuntime_stackOverflow h
  · split at h
    · exact isRuntime_stackOverflow h
    · cases h

namespace Store

variable {s : Store σ} {id : InstanceId} {sh : Shape σ}

/-! ## Imports -/

theorem resultSlots_sound {results : List ValType} {mismatch : Error} {result : Option Value}
    (hE : AllowsRuntime E) (hm : mismatch.IsRuntime) (hr : results.length ≤ 1) :
    Control.IsSound E S results.length
      (.done (HostCall.resultSlots results mismatch result) : Control σ) := by
  unfold HostCall.resultSlots
  split
  · next h => simp [Control.IsSound, List.head?_eq_none_iff.1 h]
  · next t h =>
    obtain ⟨rest, rfl⟩ := List.head?_eq_some_iff.1 h
    split
    · exact (Nat.le_antisymm hr (Nat.succ_le_succ (Nat.zero_le _))).symm
    · exact hE _ hm
  · exact hE _ hm

theorem importOutcome_sound {ref : ImportName} {results : List ValType}
    {outcome : Except Error (Option Value)} (hE : AllowsRuntime E) (hr : results.length ≤ 1)
    (he : ∀ e, outcome = .error e → E e) :
    Control.IsSound E S results.length
      (.done (s.importOutcome id ref results outcome) : Control σ) := by
  unfold importOutcome
  split
  · exact he _ rfl
  · split
    · exact hE _ trivial
    · exact resultSlots_sound hE trivial hr

/-- A hook that fails does so by itself, or because it could not be run. -/
theorem runHook_error {h : MemoryHook σ} {args : List Value} {e : Error}
    (he : (s.runHook id h args).1 = .error e) :
    e.IsRuntime ∨ ∃ inst memory rest, s.instances[id]? = some inst ∧ inst.memory = some memory ∧
      h.run args (s.host, memory) = .error e rest ∧ (s.runHook id h args).2.host = rest.1 ∧
      (s.runHook id h args).2.instances[id]?.bind (·.memory) = some rest.2 := by
  cases hinst : s.instances[id]? with
  | none =>
    simp only [runHook, updateMemory?, withInstance_eq, hinst] at he
    cases he
    exact .inl trivial
  | some inst =>
    cases hmem : inst.memory with
    | none =>
      simp only [runHook, updateMemory?, withInstance_eq, hinst, hmem] at he
      cases he
      exact .inl trivial
    | some memory =>
      by_cases hloan : inst.loan = .shared 0
      · by_cases hheld : s.heldHooks.contains h.id
        · simp only [runHook, updateMemory?, withInstance_eq, hinst, hmem, hloan, hheld,
            if_true] at he
          cases he
          exact .inl trivial
        · cases hrun : h.run args (s.host, memory) with
          | ok a rest =>
            simp only [runHook, updateMemory?, withInstance_eq, hinst, hmem, hloan, hheld, if_true,
              hrun] at he
            cases he
          | error e' rest =>
            have hlt := (Array.getElem?_eq_some_iff.1 hinst).1
            simp only [runHook, updateMemory?, withInstance_eq, hinst, hmem, hloan, hheld, if_true,
              hrun] at he ⊢
            cases he
            exact .inr ⟨inst, memory, rest, rfl, hmem, hrun, rfl, by simp [hlt]⟩
      · simp only [runHook, updateMemory?, withInstance_eq, hinst, hmem, hloan, if_false] at he
        cases he
        exact .inl trivial

/-- **An import yields what its type declares**, or an error of its own. -/
theorem callImport_sound {type : Signature} {ref : ImportName} {binding : ImportBinding σ}
    {args : List Slot} {depth func : Nat} (hE : AllowsRuntime E) (hS : s.outline = S)
    (hs : S.shapes[id]? = some sh) (hr : type.results.length ≤ 1)
    (hfunc : sh.functions[func]? = some (.imported type ref binding))
    (hhook : ∀ e, s.HookAnswers e (s.callImport id type ref binding args depth).2 →
      (s.callImport id type ref binding args depth).1 = .done (.error e) → E e) :
    Control.IsSound E S type.results.length (s.callImport id type ref binding args depth).1 := by
  subst hS
  obtain ⟨inst, hinst, rfl⟩ := exists_of_shapes hs
  cases binding with
  | hook h =>
    refine importOutcome_sound hE hr fun e he => ?_
    replace he : (s.runHook id h (Value.ofSlots args type.params)).1 = .error e := he
    obtain hrun | ⟨inst', memory, rest, hinst', hmem, hrun, hleft⟩ := runHook_error he
    · exact hE e hrun
    · obtain rfl := Option.some.inj (hinst.symm.trans hinst')
      refine hhook e
        ⟨id, inst, func, type, ref, h, _, memory, rest, hinst, hfunc, hmem, hrun, hleft⟩ ?_
      simp only [callImport, importOutcome, he]
  | func f =>
    have hlt : id < s.shapes.size := (Array.getElem?_eq_some_iff.1 hs).1
    simp only [callImport, withInstance_eq, hinst]
    split
    · next heq =>
      split at heq
      · exact hE _ trivial
      · cases heq
    · next heq =>
      split at heq
      · cases heq
      · cases heq
        exact ⟨⟨hr, fun c hc => by cases hc; exact hlt⟩, rfl⟩

/-! ## Functions of an instance -/

/-- **A function that is called with as many arguments as it takes** yields as many results as it
declares. -/
theorem callFunction_sound {func depth : Nat} {callee : Callable σ} {args : List Slot}
    (hE : AllowsRuntime E) (hS : s.outline = S) (hs : S.shapes[id]? = some sh) (hsound : sh.IsSound)
    (hfunc : sh.functions[func]? = some callee) (hargs : args.length = callee.type.params.length)
    (hhook : ∀ e, s.HookAnswers e (s.callFunction id func args depth).2 →
      (s.callFunction id func args depth).1 = .done (.error e) → E e) :
    Control.IsSound E S callee.type.results.length (s.callFunction id func args depth).1 := by
  obtain ⟨f, hf, himp⟩ := hsound.exists_function hfunc
  obtain ⟨inst, hinst, rfl⟩ := exists_of_shapes (hS ▸ hs)
  have hfunc' : inst.functions[func]? = some callee := hfunc
  cases himp with
  | imported _ hr =>
    simp only [callFunction, hinst, hfunc'] at hhook ⊢
    exact callImport_sound hE hS hs hr hfunc hhook
  | @code declared hlocal hlocals =>
    simp only [callFunction, hinst, hfunc']
    cases hnew : Frame.new inst.limits f.type f.body.start declared args 0 depth with
    | error e => exact hE e (isRuntime_of_new hnew)
    | ok frame =>
      obtain ⟨hrun, hcount⟩ := Frame.canRun_new hsound hf hlocal hlocals hargs hnew
      exact ⟨inst.shape, hs, ⟨f, hrun⟩, hcount⟩

/-- **A function that is called from an activation** with its arguments on the stack. -/
theorem callFrom_sound {r : Run} {func n : Nat} {callee : Callable σ} {g : Function}
    (hE : AllowsRuntime E) (hS : s.outline = S) (hs : S.shapes[r.inst]? = some sh) (hsound : sh.IsSound)
    (hfunc : sh.functions[func]? = some callee)
    (hargs : callee.type.params.length ≤ r.frame.operands.length)
    (hrun : CodeContext.CanRun ⟨sh.module, g⟩ sh.sideTable r.frame
      (r.frame.operands.length - callee.type.params.length + callee.type.results.length))
    (hcallers : sh.Supports r.callers r.frame.resultCount n)
    (hhook : ∀ e, s.HookAnswers e (s.callFrom r func).store →
      (s.callFrom r func).control = .done (.error e) → E e) :
    (s.callFrom r func).IsSound E S n := by
  obtain ⟨f, hf, himp⟩ := hsound.exists_function hfunc
  obtain ⟨inst, hinst, rfl⟩ := exists_of_shapes (hS ▸ hs)
  obtain ⟨id, frame, callers⟩ := r
  replace hinst : s.instances[id]? = some inst := hinst
  have hfunc' : inst.functions[func]? = some callee := hfunc
  have hlt : ¬frame.operands.length < callee.type.params.length := Nat.not_lt.2 hargs
  -- The caller goes on when the results have been put on its stack.
  have hawaits : inst.shape.Supports
      (frame.withOperands (frame.operands.drop callee.type.params.length) :: callers)
      callee.type.results.length n := by
    refine ⟨⟨g, hrun.locals, hrun.resultCount, ?_⟩, hcallers⟩
    simp only [Frame.withOperands, List.length_drop]
    exact hrun.resumes
  have hcount : ((frame.operands.take callee.type.params.length).reverse).length =
      callee.type.params.length := by
    rw [List.length_reverse, List.length_take]
    exact Nat.min_eq_left hargs
  simp only [callFrom, hinst, hfunc', if_neg hlt] at hhook ⊢
  cases himp with
  | imported _ hr =>
    refine ⟨(outline_callImport ..).trans hS, f.type.results.length, ?_, .run ⟨_, hs, hawaits⟩ .nil⟩
    exact callImport_sound hE hS hs hr hfunc hhook
  | code hlocal hlocals =>
    simp only
    split
    · next callee hnew =>
      obtain ⟨hcan, hresults⟩ := Frame.canRun_new hsound hf hlocal hlocals hcount hnew
      exact ⟨hS, n, ⟨inst.shape, hs, ⟨f, hcan⟩, hresults ▸ hawaits⟩, .nil⟩
    · next e hnew => exact ⟨hS, n, hE e (isRuntime_of_new hnew), .nil⟩

/-- **A function that is left** gives its results to its caller. -/
theorem leave_sound {r : Run} {n : Nat} (hS : s.outline = S) (hs : S.shapes[r.inst]? = some sh)
    (hn : r.frame.resultCount ≤ r.frame.operands.length)
    (hcallers : sh.Supports r.callers r.frame.resultCount n) : (s.leave r).IsSound E S n := by
  obtain ⟨id, frame, callers⟩ := r
  have hcount : (frame.operands.take frame.resultCount).length = frame.resultCount := by
    rw [List.length_take]
    exact Nat.min_eq_left hn
  simp only [leave, if_neg (Nat.not_lt.2 hn)]
  cases callers with
  | nil =>
    refine ⟨hS, n, ?_, .nil⟩
    rw [finish, Control.IsSound, List.length_reverse, hcount]
    exact hcallers
  | cons caller callers =>
    obtain ⟨⟨g, hcan⟩, hrest⟩ := hcallers
    refine ⟨hS, n, ⟨sh, hs, ⟨g, hcan.locals, hcan.resultCount, ?_⟩, hrest⟩, .nil⟩
    simp only [Frame.withOperands, List.length_append, hcount]
    rw [Nat.add_comm frame.resultCount]
    exact hcan.resumes

end Store

end WasmEngine
