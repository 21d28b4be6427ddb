import WasmEngine.Proofs.Slots.Call

/-!
# Proofs/Slots/Step — a step computes what fits

`Config.IsFit.step` is preservation with values, for all that the machine does.  It takes globals that
fit and memories that are counted in 32 bits as given; what a step makes of these is another matter.
-/

namespace WasmEngine

variable {σ : Type} {S : Outline σ} {loaded : List LoadedModule}

namespace Store

variable {s s' : Store σ} {id : InstanceId} {sh : Shape σ}

/-! ## Globals and memories that have not changed -/

theorem GlobalsFit.of_view (hfit : s.GlobalsFit)
    (h : s'.view (fun inst => (inst.module, inst.globals)) =
      s.view fun inst => (inst.module, inst.globals)) : s'.GlobalsFit := by
  intro id inst' hinst'
  have hid := congrArg (fun v => v.1[id]?) h
  simp only [view, Array.getElem?_map, hinst', Option.map_some] at hid
  obtain ⟨inst, hinst, heq⟩ := Option.map_eq_some_iff.1 hid.symm
  obtain ⟨hmodule, hglobals⟩ := Prod.mk.inj heq
  rw [Instance.GlobalsFit, ← hmodule, ← hglobals]
  exact hfit id inst hinst

theorem IsSized.of_map (hsized : s.IsSized)
    (h : s'.instances.map (·.memory) = s.instances.map (·.memory)) : s'.IsSized := by
  intro id inst' m hinst' hm
  have hid := congrArg (·[id]?) h
  simp only [Array.getElem?_map, hinst', Option.map_some, hm] at hid
  obtain ⟨inst, hinst, hmemory⟩ := Option.map_eq_some_iff.1 hid.symm
  exact hsized id inst m hinst hmemory

/-! ## Dispatch loops -/

variable {r : Run} {j : Instr Empty} {types : LabelTypes} {ps qs : List OperandType} {g : Function}
  {args rest : List Slot} {ts : List ValType}

/-- An access leaves operands on which its activation goes on. -/
theorem isFit_access (hsized : s.IsSized) (hfit : s.GlobalsFit) (hS : s.outline = S)
    (hs : S.shapes[r.inst]? = some sh) (hj : j.NeedsStore) (hstandard : j.LoadsStandard)
    (ha : HasArrow ⟨sh.module, g⟩ types j ps qs) (hops : r.frame.operands = args ++ rest)
    (hargs : FitAll args.reverse ps)
    (hrun : ∀ vs : List Slot, FitAll vs.reverse qs →
      CodeContext.RunsOn ⟨sh.module, g⟩ sh.sideTable (r.frame.withOperands (vs ++ rest)))
    (hcallers : sh.Bears r.callers g.type.results ts) (hcall : ∀ func, j ≠ .call func)
    (hcall' : ∀ type table, j ≠ .callIndirect type table) :
    Transition.IsFit S ts (match s.access r.inst j.embed r.frame.operands with
      | (.ok operands, s) => s.resume { r with frame := r.frame.withOperands operands }
      | (.error e, s) => s.finish (.error e)) := by
  have houtline : (s.access r.inst j.embed r.frame.operands).2.outline = S :=
    (outline_access j.embed r.frame.operands).trans hS
  have hs' : s.outline.shapes[r.inst]? = some sh := hS ▸ hs
  have hleaves : Leaves qs rest (s.access r.inst j.embed r.frame.operands).1 :=
    hops ▸ access_fits hsized hfit hs' hj hcall hcall' hstandard ha hargs
  split
  · next operands s' heq =>
    rw [heq] at houtline hleaves
    obtain ⟨vs, rfl, hvs⟩ := hleaves operands rfl
    refine ⟨houtline, ts, ⟨sh, hs, g, fun us hus => ?_, hcallers⟩, .nil⟩
    obtain rfl := CodeContext.eq_nil_of_fitAll hus
    exact hrun vs hvs
  · next e s' heq =>
    rw [heq] at houtline
    exact ⟨houtline, ts, trivial, .nil⟩

theorem isFit_execOutside (hsized : s.IsSized) (hfit : s.GlobalsFit) (hS : s.outline = S)
    (hs : S.shapes[r.inst]? = some sh) (hsound : sh.IsSound) (hj : j.NeedsStore)
    (hstandard : j.LoadsStandard) (ha : HasArrow ⟨sh.module, g⟩ types j ps qs)
    (hops : r.frame.operands = args ++ rest) (hargs : FitAll args.reverse ps)
    (hrun : ∀ vs : List Slot, FitAll vs.reverse qs →
      CodeContext.RunsOn ⟨sh.module, g⟩ sh.sideTable (r.frame.withOperands (vs ++ rest)))
    (hcallers : sh.Bears r.callers g.type.results ts) :
    (s.execOutside r j.embed).IsFit S ts := by
  have haccess := isFit_access hsized hfit hS hs hj hstandard ha hops hargs hrun hcallers
  cases ha with
  | call hf =>
    obtain ⟨callee, hcallee, himp⟩ := hsound.exists_callable hf
    rw [← himp.type_eq] at hargs hrun
    exact isFit_callFrom hS hs hsound hcallee hops hargs hrun hcallers
  | @callIndirect type sig ht hsig =>
    obtain ⟨id, frame, callers⟩ := r
    obtain ⟨slot, args, rfl, -, hargs⟩ := CodeContext.exists_top _ hargs
    simp only at hs hops hrun hcallers ⊢
    have hentry := tableEntry_sound (n := slot.toUInt32.toNat) (hS ▸ hs) hsound hsig
    simp only [execOutside, Instr.embed, Instr.map, hops, List.cons_append]
    cases heq : s.tableEntry id type slot.toUInt32.toNat with
    | ok func =>
      simp only [heq] at hentry ⊢
      obtain ⟨callee, hcallee, rfl⟩ := hentry
      exact isFit_callFrom (r := ⟨id, frame.withOperands (args ++ rest), callers⟩) hS hs hsound hcallee
        rfl hargs hrun hcallers
    | error e =>
      simp only
      exact ⟨hS, ts, trivial, .nil⟩
  | globalGet | globalSet | load | store | memorySize | memoryGrow | memoryCopy | memoryFill =>
    exact haccess (fun _ h => by cases h) (fun _ _ h => by cases h)
  | _ => exact hj.elim

/-- **A step of a dispatch loop** computes what fits. -/
theorem isFit_dispatch (hsized : s.IsSized) (hfit : s.GlobalsFit) (hsound : S.IsSound loaded)
    (hS : s.outline = S) (h : r.TurnsTo S [] ts) : (s.dispatch r).IsFit S ts := by
  obtain ⟨id, frame, callers⟩ := r
  obtain ⟨sh, hs, g, hrun, hcallers⟩ := h
  have houtline : (s.spendFuel id).2.outline = S :=
    (outline_eq_of_view (view_spendFuel fun _ _ => rfl)).trans hS
  have hglobals : (s.spendFuel id).2.GlobalsFit := hfit.of_view (view_spendFuel fun _ _ => rfl)
  have hmemories : (s.spendFuel id).2.IsSized :=
    hsized.of_map (congrArg Prod.fst (view_spendFuel fun _ _ => rfl))
  obtain ⟨i, next, hfetch, hgives⟩ := Frame.exec_fits (hrun [] .nil)
  have hstandard := Instr.fetch_loadsStandard _ _ _ _ _ hfetch
  simp only [dispatch]
  split
  · next s' heq =>
    rw [heq] at houtline
    exact ⟨houtline, ts, trivial, .nil⟩
  · next s' heq =>
    rw [heq] at houtline hglobals hmemories
    obtain ⟨inst, hinst, rfl⟩ := exists_of_shapes (houtline ▸ hs)
    have hfetch' : s'.fetch? id frame.pc = some (i, next) := by
      rw [fetch?, hinst]
      exact hfetch
    simp only [hfetch']
    change CodeContext.Gives _ _ i ({ frame with pc := next }.exec frame.pc i) at hgives
    generalize { frame with pc := next }.exec frame.pc i = outcome at hgives ⊢
    cases hgives with
    | @next f h =>
      refine ⟨houtline, ts, ⟨inst.shape, hs, g, fun us hus => ?_, hcallers⟩, .nil⟩
      obtain rfl := CodeContext.eq_nil_of_fitAll hus
      exact h
    | leave hcount hops hresults =>
      exact isFit_leave (r := ⟨id, _, callers⟩) houtline hs hcount hops hresults hcallers
    | @outside f j types ps qs args rest hi hj ha hops hargs hcount h =>
      subst hi
      have hstandard' : j.LoadsStandard := by
        cases j with
        | load op arg => exact hstandard
        | _ => trivial
      exact isFit_execOutside (r := ⟨id, f, callers⟩) hmemories hglobals houtline hs
        (hsound.sound id _ hs) hj hstandard' ha hops hargs h hcallers
    | error e => exact ⟨houtline, ts, trivial, .nil⟩

/-! ## Invocations -/

theorem fits_lookupCallee {inst : Instance σ} {callee : Callee} {args : List Value} {func : Nat}
    {results : List ValType} (hfits : callee.Fits inst.shape)
    (h : lookupCallee inst callee args = .ok (func, results)) :
    ∃ f : Callable σ, inst.functions[func]? = some f ∧ Value.HaveTypes args f.type.params ∧
      results = f.type.results := by
  cases callee with
  | «export» name =>
    obtain ⟨func', hfunc, h⟩ := Except.bind_eq_ok_iff.1 h
    obtain ⟨type, htype, h⟩ := Except.bind_eq_ok_iff.1 h
    split at h
    · next hargs =>
      cases h
      unfold Instance.funcType at htype
      split at htype
      · next f hf =>
        cases htype
        exact ⟨f, hf, hargs, rfl⟩
      · cases htype
    · cases h
  | typed f =>
    simp only [lookupCallee] at h
    split at h
    · next hargs =>
      cases h
      obtain ⟨callee, hcallee, htype⟩ := hfits hargs.1
      exact ⟨callee, hcallee, by rw [htype]; exact hargs.2, by rw [htype]⟩
    · cases h

/-- **An invocation** yields what the callee declares. -/
theorem yields_invocation {callee : Callee} {args : List Value} {depth : Nat} (hS : s.outline = S)
    (hs : S.shapes[id]? = some sh) (hsound : sh.IsSound) (hfits : callee.Fits sh) :
    Control.Yields S (s.invocation id callee args depth).1.2
      (s.invocation id callee args depth).1.1 := by
  obtain ⟨inst, hinst, rfl⟩ := exists_of_shapes (hS ▸ hs)
  simp only [invocation, hinst]
  split
  · trivial
  · next func results heq =>
    obtain ⟨f, hf, hargs, rfl⟩ := fits_lookupCallee hfits heq
    by_cases hp : inst.isPoisoned = true
    · simp only [if_pos hp]
      trivial
    · simp only [if_neg hp]
      exact yields_callFunction hS hs hsound hf (.of_haveTypes hargs)

theorem yields_invocation_of_acquireAll {callee : Callee} (args : List Value) (depth : Nat)
    (holds : List Hold) (hS : s.outline = S) (hs : S.shapes[id]? = some sh) (hsound : sh.IsSound)
    (hfits : callee.Fits sh) :
    ((s.acquireAll holds).2.invocation id callee args depth).2.outline = S ∧
      Control.Yields S ((s.acquireAll holds).2.invocation id callee args depth).1.2
        ((s.acquireAll holds).2.invocation id callee args depth).1.1 := by
  have houtline := (outline_acquireAll (s := s) holds).trans hS
  exact ⟨(outline_invocation ..).trans houtline, yields_invocation houtline hs hsound hfits⟩

/-! ## Host functions -/

theorem isFit_serve {call : HostCall} {program : HostProgram σ} (hsound : S.IsSound loaded)
    (hS : s.outline = S) (h : call.IsSound S) (hallows : s.Allows call program) :
    (s.serve call program).IsFit S call.results := by
  have hproceed (s' : Store σ) (program' : HostProgram σ) (hs' : s'.outline = S) :
      (s'.proceed call program').IsFit S call.results := ⟨hs', _, ⟨h, rfl⟩, .nil⟩
  cases program with
  | done outcome =>
    refine ⟨(outline_endHostCall call outcome).trans hS, _, ?_, .nil⟩
    cases hcaller : call.caller with
    | none =>
      simp only [serve, finish, endHostCall, hcaller]
      cases outcome with
      | error e => trivial
      | ok result => exact yields_resultSlots h.results
    | some c =>
      simp only [serve, finish, endHostCall, hcaller]
      exact yields_importOutcome h.results
  | getState k => exact hproceed s _ hS
  | setState host k => exact hproceed _ _ hS
  | viewMemory k => exact hproceed s _ hS
  | updateMemory op k => exact hproceed _ _ ((outline_updateCallerMemory call op).trans hS)
  | setFuel id fuel k =>
    refine hproceed _ k (Eq.trans ?_ hS)
    exact outline_modifyInstance fun _ => rfl
  | call target callee args holds k =>
    simp only [serve]
    cases htarget : callTarget call target with
    | error e => exact hproceed s _ hS
    | ok target =>
      obtain ⟨id, depth⟩ := target
      obtain ⟨hid, hgenuine⟩ := hallows id depth htarget
      obtain ⟨sh, hs⟩ := exists_shape hid
      have hs : S.shapes[id]? = some sh := hS ▸ hs
      have houtline := (outline_acquireAll (s := s) holds).trans hS
      have hyields := yields_invocation_of_acquireAll args depth holds hS hs
        (hsound.sound id sh hs) (hgenuine.fits hS hsound hs)
      simp only
      split
      · next heq =>
        rw [heq] at houtline
        exact ⟨houtline, _, trivial, .nil⟩
      · next heq =>
        rw [heq] at hyields
        exact ⟨hyields.1, _, hyields.2, .invocation (.host h .nil)⟩

/-- **An outcome on its way** keeps the invariant. -/
theorem isFit_deliver {outcome : Except Error (List Slot)} {p : Pending σ} {rest : List (Pending σ)}
    {ks ts : List ValType} (hS : s.outline = S)
    (h : Control.Yields S ks (.done outcome : Control σ)) (hp : PendingFit S (p :: rest) ks ts) :
    ∃ ms, (s.deliver outcome p).IsFit S ms ∧ PendingFit S rest ms ts := by
  cases hp with
  | @run r _ _ ms _ hr hrest =>
    refine ⟨ms, ?_, hrest⟩
    cases outcome with
    | error e => exact ⟨hS, ms, trivial, .nil⟩
    | ok results =>
      obtain ⟨sh, hs, g, hrun, hcallers⟩ := hr
      refine ⟨hS, ms, ⟨sh, hs, g, fun us hus => ?_, hcallers⟩, .nil⟩
      obtain rfl := CodeContext.eq_nil_of_fitAll hus
      have hresults : FitAll results (known ks) := h
      exact hrun results.reverse (by rwa [List.reverse_reverse])
  | @invocation id holds _ _ _ hrest =>
    refine ⟨ks, ⟨?_, ks, h, .nil⟩, hrest⟩
    refine (outline_releaseAll holds).trans (Eq.trans ?_ hS)
    split
    · split
      · exact outline_modifyInstance fun _ => rfl
      · rfl
    · rfl
  | @host call results k' _ _ _ hcall hrest =>
    refine ⟨call.results, ?_, hrest⟩
    simp only [deliver]
    split
    · exact ⟨hS, call.results, trivial, .nil⟩
    · exact ⟨hS, _, ⟨hcall, rfl⟩, .nil⟩

end Store

namespace Config

/-- **A step computes what fits**, as long as globals fit and memories are counted in 32 bits. -/
theorem IsFit.step {c : Config σ} {ts : List ValType} (h : c.IsFit S ts) (hsound : S.IsSound loaded)
    (hsized : c.store.IsSized) (hglobals : c.store.GlobalsFit) (hallows : c.Allows) :
    c.step.IsFit S ts := by
  obtain ⟨store, control, pending⟩ := c
  obtain ⟨houtline, ks, hcontrol, hp⟩ := h
  cases control with
  | run r =>
    exact isFit_ofTransition (Store.isFit_dispatch hsized hglobals hsound houtline hcontrol) hp
  | host call program =>
    obtain ⟨hcall, rfl⟩ := hcontrol
    exact isFit_ofTransition (Store.isFit_serve hsound houtline hcall (hallows _ _ rfl)) hp
  | done outcome =>
    cases pending with
    | nil => exact ⟨houtline, ks, hcontrol, hp⟩
    | cons p pending =>
      obtain ⟨ms, ht, hrest⟩ := Store.isFit_deliver houtline hcontrol hp
      exact isFit_ofTransition ht hrest

end Config

end WasmEngine
