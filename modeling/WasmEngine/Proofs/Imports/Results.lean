import WasmEngine.Proofs.Nesting.Local
import WasmEngine.Proofs.Safety.Soundness

/-!
# Proofs/Imports/Results — what an import is given and what it leaves

An import is given the arguments that its type declares, at their types.  Its answer must fit the first
result of the type (`HostCall.resultSlots_eq_ok_iff`): so a call of an import that declares at most one
result leaves exactly what is declared, whatever host functions do meanwhile, or ends in an error
(`Store.import_call`).  Of further results nothing is asked: a hook that declares two and answers with
one is let through (`Store.import_call_short`).
-/

namespace WasmEngine

variable {σ : Type}

/-! ## Answers -/

namespace HostCall

/-- Whether an answer fits the first declared result, if there is one. -/
def Fits (results : List ValType) (result : Option Value) : Prop :=
  result.map Value.type = results.head?

/-- **An answer is taken if and only if it fits the first declared result.** -/
theorem resultSlots_eq_ok_iff {results : List ValType} {mismatch : Error} {result : Option Value}
    {slots : List Slot} : resultSlots results mismatch result = .ok slots ↔
      Fits results result ∧ slots = (result.map Value.toSlot).toList := by
  unfold resultSlots Fits
  cases result with
  | none => cases results.head? <;> simp [eq_comm]
  | some v =>
    cases results.head? with
    | none => simp
    | some t =>
      by_cases ht : v.type = t
      · simp [ht, eq_comm]
      · simp [ht]

/-- Of at most one declared result, an answer that fits gives exactly what is declared. -/
theorem Fits.haveTypes {results : List ValType} {result : Option Value} (h : Fits results result)
    (hone : results.length ≤ 1) : Value.HaveTypes result.toList results := by
  obtain _ | ⟨t, _ | ⟨u, results⟩⟩ := results
  · cases result with
    | none => rfl
    | some v => cases h
  · cases result with
    | none => cases h
    | some v => exact congrArg (· :: []) (Option.some.inj h)
  · simp at hone

end HostCall

namespace Store

variable {s t : Store σ} {id : InstanceId} {inst : Instance σ}

/-- **The answer of an import is taken** if it fits, and if the instance has not been poisoned
meanwhile. -/
theorem importOutcome_eq_ok_iff {ref : ImportName} {results : List ValType}
    {outcome : Except Error (Option Value)} {slots : List Slot} :
    s.importOutcome id ref results outcome = .ok slots ↔
      ∃ result, outcome = .ok result ∧ ¬s.IsPoisoned id ∧ HostCall.Fits results result ∧
        slots = (result.map Value.toSlot).toList := by
  cases outcome with
  | error e => simp [importOutcome]
  | ok result =>
    simp only [importOutcome, IsPoisoned]
    split
    · next hp => simp [hp]
    · next hp => simp [hp, HostCall.resultSlots_eq_ok_iff]

/-- A host function that has ended well has answered what fits, whoever it was called by. -/
theorem fits_of_endHostCall {call : HostCall} {outcome : Except Error (Option Value)}
    {slots : List Slot} (h : (s.endHostCall call outcome).1 = .ok slots) :
    ∃ result, HostCall.Fits call.results result ∧ slots = (result.map Value.toSlot).toList := by
  unfold endHostCall at h
  split at h
  · obtain ⟨result, -, hr⟩ := Except.bind_eq_ok_iff.1 h
    exact ⟨result, HostCall.resultSlots_eq_ok_iff.1 hr⟩
  · obtain ⟨result, -, -, hr⟩ := importOutcome_eq_ok_iff.1 h
    exact ⟨result, hr⟩

end Store

/-! ## Host functions at work -/

/-- A host function that an import is bound to, at work for as long as its call goes on, or the outcome
of the call.  Above it are the invocations that it has asked for. -/
inductive Config.Answers (call : HostCall) : Config σ → Prop where
  | own {s : Store σ} {program : HostProgram σ} : Answers call ⟨s, .host call program, []⟩
  | asked {s : Store σ} {control : Control σ} {above : List (Pending σ)} {results : List ValType}
      {k : Except Error (List Value) → HostProgram σ} :
      Answers call ⟨s, control, above ++ [.host call results k]⟩
  | failed {s : Store σ} {e : Error} : Answers call ⟨s, .done (.error e), []⟩
  | answered {s : Store σ} {result : Option Value} (h : HostCall.Fits call.results result) :
      Answers call ⟨s, .done (.ok (result.map Value.toSlot).toList), []⟩

namespace Config.Answers

variable {call : HostCall} {c : Config σ}

/-- **A step of a host function** goes on with its call, or answers what it declares. -/
theorem step (h : c.Answers call) : c.step.Answers call := by
  cases h with
  | failed => exact .failed
  | answered h => exact .answered h
  | @own s program =>
    cases program with
    | done outcome =>
      change Answers call ⟨(s.endHostCall call outcome).2, .done (s.endHostCall call outcome).1, []⟩
      cases hout : (s.endHostCall call outcome).1 with
      | error e => exact .failed
      | ok slots =>
        obtain ⟨result, hfits, rfl⟩ := Store.fits_of_endHostCall hout
        exact .answered hfits
    | getState k => exact .own
    | setState host k => exact .own
    | viewMemory k => exact .own
    | updateMemory op k => exact .own
    | setFuel other fuel k => exact .own
    | call target callee args holds k =>
      change Answers call (ofTransition (s.serve call (.call target callee args holds k)) [])
      simp only [Store.serve]
      split
      · exact .own
      · split
        · exact .failed
        · exact @Answers.asked _ call _ _ [.invocation _ _] _ _
  | @asked s control above results k =>
    cases hend : (⟨s, control, above⟩ : Config σ).outcome? with
    | none =>
      have hstep := step_onto hend [.host call results k]
      rw [onto] at hstep
      rw [hstep]
      exact .asked
    | some outcome =>
      -- The invocation that the host function waits for has ended.
      cases eq_of_outcome? hend
      change Answers call (ofTransition (s.deliver outcome (.host call results k)) [])
      by_cases hf : Store.IsFault outcome
      · rw [Store.deliver_host_of_fault hf]
        cases outcome with
        | ok slots => exact hf.elim
        | error e => exact .failed
      · rw [Store.deliver_host hf]
        exact .own

theorem run (h : c.Answers call) (n : Nat) : (Config.run n c).Answers call :=
  run_induction (P := Answers call) (fun _ => step) h n

/-- A call that has ended well has an answer that fits. -/
theorem of_outcome {slots : List Slot} (h : c.Answers call) (hout : c.outcome? = some (.ok slots)) :
    ∃ result, HostCall.Fits call.results result ∧ slots = (result.map Value.toSlot).toList := by
  cases h with
  | own => cases hout
  | @asked s control above results k =>
    obtain ⟨p, ps, hp⟩ := List.exists_cons_of_ne_nil
      (List.append_ne_nil_of_right_ne_nil above (List.cons_ne_nil (Pending.host call results k) []))
    rw [hp] at hout
    cases control <;> cases hout
  | failed => cases hout
  | @answered s result hfits =>
    cases hout
    exact ⟨result, hfits, rfl⟩

end Config.Answers

/-! ## Calls of imports -/

namespace Store

variable {s : Store σ} {id : InstanceId} {inst : Instance σ} {func depth : Nat} {type : Signature}
  {ref : ImportName} {binding : ImportBinding σ} {args rest : List Slot} {frame : Frame}
  {callers : List Frame}

/-- An import that has been called has an answer, or its host function is at work. -/
theorem callImport_answers (s : Store σ) (id : InstanceId) (type : Signature) (ref : ImportName)
    (binding : ImportBinding σ) (args : List Slot) (depth : Nat) :
    ∃ call : HostCall, call.results = type.results ∧
      Config.Answers call ⟨(s.callImport id type ref binding args depth).2,
        (s.callImport id type ref binding args depth).1, []⟩ := by
  cases binding with
  | hook h =>
    refine ⟨{ caller := none, depth, results := type.results }, rfl, ?_⟩
    simp only [callImport]
    cases hout : importOutcome _ id ref type.results _ with
    | error e => exact .failed
    | ok slots =>
      obtain ⟨result, -, -, hfits, rfl⟩ := importOutcome_eq_ok_iff.1 hout
      exact .answered hfits
  | func f =>
    simp only [callImport]
    split
    · exact ⟨{ caller := none, depth, results := type.results }, rfl, .failed⟩
    · exact ⟨_, rfl, .own⟩

/-- A loop that calls an import takes the arguments off its operands, and waits for the import. -/
theorem callFrom_import (hinst : s.instances[id]? = some inst)
    (hfunc : inst.functions[func]? = some (.imported type ref binding))
    (hops : frame.operands = args.reverse ++ rest) (hargs : args.length = type.params.length)
    (ps : List (Pending σ)) :
    Config.ofTransition (s.callFrom ⟨id, frame, callers⟩ func) ps =
      Config.onto ⟨(s.callImport id type ref binding args frame.depth).2,
        (s.callImport id type ref binding args frame.depth).1, []⟩
        (.run ⟨id, frame.withOperands rest, callers⟩ :: ps) := by
  have hlen : args.reverse.length = type.params.length := by rw [List.length_reverse, hargs]
  have hcount : type.params.length ≤ frame.operands.length := by
    rw [hops, List.length_append, hlen]
    exact Nat.le_add_right ..
  have htake : (frame.operands.take type.params.length).reverse = args := by
    rw [hops, ← hlen, List.take_left, List.reverse_reverse]
  have hdrop : frame.operands.drop type.params.length = rest := by
    rw [hops, ← hlen, List.drop_left]
  simp only [callFrom_imported hinst hfunc hcount, htake, hdrop]
  rfl

/-- **A call of an import leaves the answer that it declares.**  The binding is given the declared
arguments, in order and at their types; the call takes them off the operands.  If it ends well, then
with an answer that fits the first declared result, and the frame goes on with the answer pushed; so if
at most one result is declared, exactly what is declared is pushed.  Any other answer ends in an error,
and an error of the import ends the dispatch loop. -/
theorem import_call (hinst : s.instances[id]? = some inst)
    (hfunc : inst.functions[func]? = some (.imported type ref binding))
    (hops : frame.operands = args.reverse ++ rest) (hargs : args.length = type.params.length) :
    let values := Value.ofSlots args type.params
    let start := s.callImport id type ref binding args frame.depth
    let own : Config σ := ⟨start.2, start.1, []⟩
    let calling := Config.ofTransition (s.callFrom ⟨id, frame, callers⟩ func)
    Value.HaveTypes values type.params ∧
    (∀ h, binding = .hook h → start =
      (.done ((s.runHook id h values).2.importOutcome id ref type.results (s.runHook id h values).1),
        (s.runHook id h values).2)) ∧
    (∀ f, binding = .func f → start.1 = .done stackOverflow ∨ ∃ call : HostCall,
      start.1 = .host call (f.body { depth := frame.depth } values) ∧ call.results = type.results) ∧
    (∀ n slots, (Config.run n own).outcome? = some (.ok slots) →
      (∃ result, HostCall.Fits type.results result ∧ slots = (result.map Value.toSlot).toList ∧
        (type.results.length ≤ 1 → Value.HaveTypes result.toList type.results)) ∧
      ∃ m ≤ n, ∀ ps, Config.run (m + 1) (calling ps) =
        ⟨(Config.run n own).store,
          .run ⟨id, frame.withOperands (slots.reverse ++ rest), callers⟩, ps⟩) ∧
    (∀ n e, (Config.run n own).outcome? = some (.error e) →
      ∃ m ≤ n, ∀ ps, Config.run (m + 1) (calling ps) =
        ⟨(Config.run n own).store, .done (.error e), ps⟩) ∧
    ∀ (t : Store σ) (answer : Option Value), ¬HostCall.Fits type.results answer →
      ∃ e, t.importOutcome id ref type.results (.ok answer) = .error e := by
  intro values start own calling
  -- What the import comes to is delivered to the frame that waits for it.
  have hdelivered {n : Nat} {outcome : Except Error (List Slot)}
      (hout : (Config.run n own).outcome? = some outcome) :
      ∃ m ≤ n, ∀ ps, Config.run (m + 1) (calling ps) =
        .ofTransition ((Config.run n own).store.deliver outcome
          (.run ⟨id, frame.withOperands rest, callers⟩)) ps := by
    obtain ⟨m, hmn, hm⟩ := Config.exists_delivered hout
    refine ⟨m, hmn, fun ps => ?_⟩
    have hcalling : calling ps = own.onto (.run ⟨id, frame.withOperands rest, callers⟩ :: ps) :=
      callFrom_import hinst hfunc hops hargs ps
    rw [hcalling, hm]
  refine ⟨Value.haveTypes_ofSlots hargs, ?_, ?_, fun n slots hout => ⟨?_, ?_⟩, fun n e hout => ?_,
    fun t answer hno => ?_⟩
  · rintro h rfl
    rfl
  · rintro f rfl
    simp only [start, callImport]
    split
    · exact .inl rfl
    · exact .inr ⟨_, rfl, rfl⟩
  · obtain ⟨call, hresults, hanswers⟩ := callImport_answers s id type ref binding args frame.depth
    obtain ⟨result, hfits, hslots⟩ := (hanswers.run n).of_outcome hout
    rw [hresults] at hfits
    exact ⟨result, hfits, hslots, hfits.haveTypes⟩
  · exact hdelivered hout
  · exact hdelivered hout
  · cases hout : t.importOutcome id ref type.results (.ok answer) with
    | error e => exact ⟨e, rfl⟩
    | ok slots =>
      obtain ⟨result, hresult, -, hfits, -⟩ := importOutcome_eq_ok_iff.1 hout
      exact absurd (Except.ok.inj hresult ▸ hfits) hno

/-- The hypotheses are met by a call of `asking`'s import, whose host function calls back: it is given
the topmost operand, and the frame goes on with the answer in its place. -/
theorem import_call_of_asking :
    let type : Signature := { params := [.i32], results := [.i32] }
    let frame : Frame :=
      { pc := 50, locals := #[7], resultCount := 1, operands := [7, 5], below := 0, depth := 1 }
    let start := asking.callImport 0 type { module := "a", name := "b" } (.func .asking) [7] 1
    (∃ call : HostCall, start.1 = .host call (HostFunc.asking.body { depth := 1 } [.i32 7]) ∧
      call.results = [.i32]) ∧
    (Config.run 8 ⟨start.2, start.1, []⟩).outcome? = some (.ok [8]) ∧
    (∃ result, HostCall.Fits type.results result ∧ [8] = (result.map Value.toSlot).toList ∧
      Value.HaveTypes result.toList [.i32]) ∧
    ∃ m ≤ 8, Config.run (m + 1) (.ofTransition (asking.callFrom ⟨0, frame, []⟩ 0) []) =
      ⟨(Config.run 8 ⟨start.2, start.1, []⟩).store,
        .run ⟨0, frame.withOperands [8, 5], []⟩, []⟩ := by
  intro type frame start
  have hcall := @import_call _ asking 0 asking.instances[0] 0 type { module := "a", name := "b" }
    (.func .asking) [7] [5] frame [] rfl rfl rfl rfl
  obtain ⟨-, -, hbegins, hresults, -⟩ := hcall
  have hout : (Config.run 8 ⟨start.2, start.1, []⟩).outcome? = some (.ok [8]) := by cbv
  obtain ⟨⟨result, hfits, hslots, htypes⟩, m, hm, hrun⟩ := hresults 8 [8] hout
  refine ⟨(hbegins _ rfl).resolve_left fun h => ?_, hout,
    ⟨result, hfits, hslots, htypes (Nat.le_refl 1)⟩, m, hm, hrun []⟩
  cases h

end Store

/-! ## A hook that answers too little -/

namespace Module

/-- A module that exports an import of two results, and has a memory. -/
def hookedBytes : ByteArray :=
  ⟨#[0x00, 0x61, 0x73, 0x6d, 0x01, 0x00, 0x00, 0x00, 0x01, 0x06, 0x01, 0x60, 0x00, 0x02, 0x7f, 0x7f,
    0x02, 0x07, 0x01, 0x01, 0x61, 0x01, 0x62, 0x00, 0x00, 0x05, 0x03, 0x01, 0x00, 0x00, 0x07, 0x05,
    0x01, 0x01, 0x66, 0x00, 0x00]⟩

/-- What `hookedBytes` compile to. -/
def hooked : Module :=
  let type : Signature := { params := [], results := [.i32, .i32] }
  { bytes := hookedBytes, types := #[type]
    imports := [{ ref := { module := "a", name := "b" }, kind := .func }]
    functions := #[{ typeIndex := 0, type, imported := some { module := "a", name := "b" } }]
    memory := some { min := 0, max := none }
    exports := [{ name := "f", kind := .func, index := 0 }], sideTable := some [] }

theorem compile_hookedBytes : compile hookedBytes = .ok hooked := by decide +kernel

end Module

/-- A hook that declares two results and answers with one. -/
def MemoryHook.short : MemoryHook Unit where
  id := 0
  signature := { params := [], results := [.i32, .i32] }
  run _ := pure (some (.i32 9))

namespace Store

/-- A store with one instance of `Module.hooked`, whose import is bound to `MemoryHook.short`. -/
def short : Store Unit where
  instances :=
    #[{ moduleId := 0, module := .hooked, sideTable := []
        functions := #[.imported { params := [], results := [.i32, .i32] }
          { module := "a", name := "b" } (.hook .short)]
        limits := {}, memory := some (Memory.new 0 Memory.maxPages), fuel := none }]
  host := ()
  moduleCount := 1

/-- **A hook that declares two results may answer with one**: the call ends well, and leaves one. -/
theorem import_call_short :
    (∃ imports : Imports Unit, imports.get? { module := "a", name := "b" } = some (.hook .short) ∧
      ({ host := (), moduleCount := 1 } : Store Unit).instantiate ⟨0, .hooked⟩ imports {} 0 =
        some (.ok 0, short)) ∧
    Module.compile Module.hookedBytes = .ok .hooked ∧
    MemoryHook.short.signature.results = [.i32, .i32] ∧
    (short.invoke 0 "f" [] 1).map Prod.fst = some (.ok [.i32 9]) ∧
    ¬Value.HaveTypes [.i32 9] [.i32, .i32] := by
  refine ⟨⟨⟨[({ module := "a", name := "b" }, .hook .short)]⟩, rfl, ?_⟩,
    Module.compile_hookedBytes, rfl, ?_, by decide⟩
  · cbv
  · cbv

end Store

end WasmEngine
