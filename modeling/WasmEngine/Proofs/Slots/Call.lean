import WasmEngine.Proofs.Safety.Step
import WasmEngine.Proofs.Slots.Access

/-!
# Proofs/Slots/Call — entering and leaving functions with operands of their types

`Config.IsFit` is the invariant of a configuration with its values: each activation goes on with any
results of the types that the one above it declares, and what comes out in the end fits the declared
types.  Functions are entered with arguments of their types, and what an import answers is a result
of its type.  Nothing is said of errors.
-/

namespace WasmEngine

variable {σ : Type} {S : Outline σ}

/-! ## The invariant -/

/-- `sh.Bears frames ks ts`: the innermost of the activations goes on with any operands of types
`ks`, each of the others with the results of the one before it, and the outermost yields `ts`. -/
def Shape.Bears (sh : Shape σ) : List Frame → (ks ts : List ValType) → Prop
  | [], ks, ts => ks = ts
  | f :: frames, ks, ts =>
    ∃ func : Function, (∀ vs : List Slot, FitAll vs.reverse (known ks) →
        CodeContext.RunsOn ⟨sh.module, func⟩ sh.sideTable (f.withOperands (vs ++ f.operands))) ∧
      sh.Bears frames func.type.results ts

/-- A dispatch loop that goes on with operands of types `ks` yields results of types `ts`. -/
def Run.TurnsTo (S : Outline σ) (r : Run) (ks ts : List ValType) : Prop :=
  ∃ sh, S.shapes[r.inst]? = some sh ∧ sh.Bears (r.frame :: r.callers) ks ts

/-- What acts next yields results of types `ts`, or an error. -/
def Control.Yields (S : Outline σ) (ts : List ValType) : Control σ → Prop
  | .run r => r.TurnsTo S [] ts
  | .host call _ => call.IsSound S ∧ call.results = ts
  | .done (.ok slots) => FitAll slots (known ts)
  | .done (.error _) => True

/-- What waits for results of types `ks` passes on results of types `ts`. -/
inductive PendingFit (S : Outline σ) : List (Pending σ) → (ks ts : List ValType) → Prop where
  | nil {ts} : PendingFit S [] ts ts
  | run {r rest ks ms ts} (h : r.TurnsTo S ks ms) (hrest : PendingFit S rest ms ts) :
      PendingFit S (.run r :: rest) ks ts
  | invocation {id holds rest ks ts} (hrest : PendingFit S rest ks ts) :
      PendingFit S (.invocation id holds :: rest) ks ts
  | host {call : HostCall} {results k rest ks ts} (h : call.IsSound S)
      (hrest : PendingFit S rest call.results ts) :
      PendingFit S (.host call results k :: rest) ks ts

theorem PendingFit.append {ps qs : List (Pending σ)} {ks ms ts : List ValType}
    (hp : PendingFit S ps ks ms) (hq : PendingFit S qs ms ts) : PendingFit S (ps ++ qs) ks ts := by
  induction hp with
  | nil => exact hq
  | run h _ ih => exact .run h (ih hq)
  | invocation _ ih => exact .invocation (ih hq)
  | host h _ ih => exact .host h (ih hq)

/-- A transition after which results of types `ts`, or an error, come out. -/
structure Transition.IsFit (S : Outline σ) (ts : List ValType) (t : Transition σ) : Prop where
  outline_eq : t.store.outline = S
  control : ∃ ks, t.control.Yields S ks ∧ PendingFit S t.waiting ks ts

/-- **The invariant of a configuration** from which results of types `ts`, or an error, come out. -/
structure Config.IsFit (S : Outline σ) (ts : List ValType) (c : Config σ) : Prop where
  outline_eq : c.store.outline = S
  control : ∃ ks, c.control.Yields S ks ∧ PendingFit S c.pending ks ts

theorem Config.isFit_ofTransition {ms ts : List ValType} {t : Transition σ}
    {pending : List (Pending σ)} (ht : t.IsFit S ms) (hp : PendingFit S pending ms ts) :
    (ofTransition t pending).IsFit S ts := by
  obtain ⟨hS, ks, hk, hw⟩ := ht
  exact ⟨hS, ks, hk, hw.append hp⟩

/-! ## Code -/

/-- **A new activation runs on**, if its arguments fit. -/
theorem Frame.runsOn_new {sh : Shape σ} {limits : Limits} {f : Function} {declared below depth : Nat}
    {args : List Slot} {frame : Frame} {func : Nat} (hs : sh.IsSound)
    (hf : sh.module.functions[func]? = some f) (hlocal : f.imported = none)
    (hlocals : f.type.params.length + declared = f.locals.length)
    (hargs : FitAll args (known f.type.params))
    (h : Frame.new limits f.type f.body.start declared args below depth = .ok frame) :
    CodeContext.RunsOn ⟨sh.module, f⟩ sh.sideTable frame := by
  unfold Frame.new at h
  split at h
  · cases h
  · split at h
    · cases h
    · cases h
      obtain ⟨code, stop, hcode⟩ := hs.compiled.hasCode func f hf hlocal
      obtain ⟨ds, hds⟩ := (hs.compiled.sound.fits func f hf hlocal).locals_eq
      obtain ⟨next, hend⟩ := hcode.ends
      refine ⟨?_, rfl, [f.type.results], f.type.results, stop, [], [], [], rfl, .function hend, .nil,
        code, hcode.lies, hcode.typed⟩
      -- The declared locals are zeros, which fit everything.
      have hcount : declared = ds.length := by
        rw [hds, List.length_append] at hlocals
        exact Nat.add_left_cancel hlocals
      rw [Array.toList_append, Array.toList_replicate, hds, known, List.map_append, hcount]
      exact hargs.append (fitAll_replicate ds)

namespace Store

variable {s : Store σ} {id : InstanceId} {sh : Shape σ}

/-! ## Imports -/

theorem yields_resultSlots {results : List ValType} {mismatch : Error} {result : Option Value}
    (hr : results.length ≤ 1) : Control.Yields S results
      (.done (HostCall.resultSlots results mismatch result) : Control σ) := by
  unfold HostCall.resultSlots
  split
  · next h =>
    rw [List.head?_eq_none_iff.1 h]
    exact .nil
  · next v t h =>
    obtain ⟨rest, rfl⟩ := List.head?_eq_some_iff.1 h
    obtain rfl := List.length_eq_zero_iff.1 (Nat.le_zero.1 (Nat.le_of_succ_le_succ hr))
    split
    · next heq => exact .cons (heq ▸ Slot.fits_toSlot v) .nil
    · trivial
  · trivial

theorem yields_importOutcome {ref : ImportName} {results : List ValType}
    {outcome : Except Error (Option Value)} (hr : results.length ≤ 1) :
    Control.Yields S results (.done (s.importOutcome id ref results outcome) : Control σ) := by
  unfold importOutcome
  split
  · trivial
  · split
    · trivial
    · exact yields_resultSlots hr

/-- **An import yields what its type declares.** -/
theorem yields_callImport {type : Signature} {ref : ImportName} {binding : ImportBinding σ}
    {args : List Slot} {depth : Nat} (hS : s.outline = S) (hs : S.shapes[id]? = some sh)
    (hr : type.results.length ≤ 1) :
    Control.Yields S type.results (s.callImport id type ref binding args depth).1 := by
  cases binding with
  | hook h => exact yields_importOutcome hr
  | func f =>
    subst hS
    have hlt : id < s.shapes.size := (Array.getElem?_eq_some_iff.1 hs).1
    obtain ⟨inst, hinst, -⟩ := exists_of_shapes hs
    simp only [callImport, withInstance_eq, hinst]
    split
    · trivial
    · next heq =>
      split at heq
      · cases heq
      · cases heq
        exact ⟨⟨hr, fun c hc => by cases hc; exact hlt⟩, rfl⟩

/-! ## Functions of an instance -/

/-- **A function that is called with arguments of its types** yields results of its types. -/
theorem yields_callFunction {func depth : Nat} {callee : Callable σ} {args : List Slot}
    (hS : s.outline = S) (hs : S.shapes[id]? = some sh) (hsound : sh.IsSound)
    (hfunc : sh.functions[func]? = some callee) (hargs : FitAll args (known callee.type.params)) :
    Control.Yields S callee.type.results (s.callFunction id func args depth).1 := by
  obtain ⟨f, hf, himp⟩ := hsound.exists_function hfunc
  obtain ⟨inst, hinst, rfl⟩ := exists_of_shapes (hS ▸ hs)
  have hfunc' : inst.functions[func]? = some callee := hfunc
  cases himp with
  | imported _ hr =>
    simp only [callFunction, hinst, hfunc']
    exact yields_callImport hS hs hr
  | @code declared hlocal hlocals =>
    simp only [callFunction, hinst, hfunc']
    cases hnew : Frame.new inst.limits f.type f.body.start declared args 0 depth with
    | error e => trivial
    | ok frame =>
      refine ⟨inst.shape, hs, f, fun vs hvs => ?_, rfl⟩
      obtain rfl := CodeContext.eq_nil_of_fitAll hvs
      exact Frame.runsOn_new hsound hf hlocal hlocals hargs hnew

/-- **A function that is called from an activation** with its arguments on the stack. -/
theorem isFit_callFrom {r : Run} {func : Nat} {callee : Callable σ} {g : Function}
    {args rest : List Slot} {ts : List ValType} (hS : s.outline = S)
    (hs : S.shapes[r.inst]? = some sh) (hsound : sh.IsSound)
    (hfunc : sh.functions[func]? = some callee) (hops : r.frame.operands = args ++ rest)
    (hargs : FitAll args.reverse (known callee.type.params))
    (hrun : ∀ vs : List Slot, FitAll vs.reverse (known callee.type.results) →
      CodeContext.RunsOn ⟨sh.module, g⟩ sh.sideTable (r.frame.withOperands (vs ++ rest)))
    (hcallers : sh.Bears r.callers g.type.results ts) : (s.callFrom r func).IsFit S ts := by
  obtain ⟨f, hf, himp⟩ := hsound.exists_function hfunc
  obtain ⟨inst, hinst, rfl⟩ := exists_of_shapes (hS ▸ hs)
  obtain ⟨id, frame, callers⟩ := r
  replace hinst : s.instances[id]? = some inst := hinst
  replace hops : frame.operands = args ++ rest := hops
  have hfunc' : inst.functions[func]? = some callee := hfunc
  have hcount := hargs.length_known
  rw [List.length_reverse] at hcount
  have hlt : ¬frame.operands.length < callee.type.params.length := by
    rw [hops, List.length_append]
    omega
  have htake : frame.operands.take callee.type.params.length = args := by
    rw [hops, ← hcount, List.take_left]
  have hdrop : frame.operands.drop callee.type.params.length = rest := by
    rw [hops, ← hcount, List.drop_left]
  have hawaits : inst.shape.Bears (frame.withOperands rest :: callers) callee.type.results ts :=
    ⟨g, hrun, hcallers⟩
  simp only [callFrom, hinst, hfunc', if_neg hlt, htake, hdrop]
  cases himp with
  | imported _ hr =>
    exact ⟨(outline_callImport ..).trans hS, f.type.results, yields_callImport hS hs hr,
      .run ⟨_, hs, hawaits⟩ .nil⟩
  | code hlocal hlocals =>
    simp only
    split
    · next callee hnew =>
      refine ⟨hS, ts, ⟨inst.shape, hs, f, fun vs hvs => ?_, hawaits⟩, .nil⟩
      obtain rfl := CodeContext.eq_nil_of_fitAll hvs
      exact Frame.runsOn_new hsound hf hlocal hlocals hargs hnew
    · exact ⟨hS, ts, trivial, .nil⟩

/-- **A function that is left** gives its results to its caller. -/
theorem isFit_leave {r : Run} {g : Function} {results rest : List Slot} {ts : List ValType}
    (hS : s.outline = S) (hs : S.shapes[r.inst]? = some sh)
    (hcount : r.frame.resultCount = g.type.results.length) (hops : r.frame.operands = results ++ rest)
    (hresults : FitAll results.reverse (known g.type.results))
    (hcallers : sh.Bears r.callers g.type.results ts) : (s.leave r).IsFit S ts := by
  obtain ⟨id, frame, callers⟩ := r
  replace hops : frame.operands = results ++ rest := hops
  replace hcount : frame.resultCount = results.length := by
    rw [hcount, ← hresults.length_known, List.length_reverse]
  have hlt : ¬frame.operands.length < frame.resultCount := by
    rw [hops, hcount, List.length_append]
    omega
  have htake : frame.operands.take frame.resultCount = results := by
    rw [hops, hcount, List.take_left]
  simp only [leave, if_neg hlt, htake]
  cases callers with
  | nil =>
    obtain rfl : g.type.results = ts := hcallers
    exact ⟨hS, g.type.results, hresults, .nil⟩
  | cons caller callers =>
    obtain ⟨f, hcan, hrest⟩ := hcallers
    refine ⟨hS, ts, ⟨sh, hs, f, fun vs hvs => ?_, hrest⟩, .nil⟩
    obtain rfl := CodeContext.eq_nil_of_fitAll hvs
    exact hcan results hresults

end Store

end WasmEngine
