import WasmEngine.Proofs.Safety.Call

/-!
# Proofs/Safety/Step — a step keeps the invariant

`Config.IsSound.step` is preservation for all that the machine does: dispatch loops, host functions
and their requests, and outcomes on their way to what waits for them.  A request of a host function
must be one that the embedder can make (`Config.Allows`): it names an instance that exists, and an
export or a handle that an instance has made.
-/

namespace WasmEngine

variable {σ : Type} {E : Error → Prop} {S : Outline σ} {loaded : List LoadedModule}

/-- A handle made for the module of an instance names a function of the type that it claims. -/
def Callee.Fits (sh : Shape σ) : Callee → Prop
  | .export _ => True
  | .typed f => f.moduleId = sh.moduleId → ∃ callee, sh.functions[f.index]? = some callee ∧
      callee.type = { params := f.params, results := f.results }

/-- What the embedder can call: an export, or a handle that an instance of the store has made. -/
def Callee.IsGenuine (s : Store σ) : Callee → Prop
  | .export _ => True
  | .typed f => ∃ (id : InstanceId) (inst : Instance σ) (name : String),
      s.instances[id]? = some inst ∧ inst.typedFunc name f.params f.results = .ok f

/-- Whether the next request of a host function is one that it can make. -/
def Store.Allows (s : Store σ) (call : HostCall) : HostProgram σ → Prop
  | .call target callee _ _ _ => ∀ id depth, callTarget call target = .ok (id, depth) →
      id < s.instances.size ∧ callee.IsGenuine s
  | _ => True

/-- Whether what acts next may do what it does. -/
def Config.Allows (c : Config σ) : Prop :=
  ∀ call program, c.control = .host call program → c.store.Allows call program

/-! ## Handles -/

/-- A handle names an exported function of the type that it claims. -/
theorem Instance.of_typedFunc {inst : Instance σ} {name : String} {params results : List ValType}
    {f : TypedFunc} (h : inst.typedFunc name params results = .ok f) :
    f.moduleId = inst.moduleId ∧ ∃ callee, inst.functions[f.index]? = some callee ∧
      callee.type = { params := f.params, results := f.results } := by
  simp only [Instance.typedFunc, bind, Except.bind] at h
  split at h
  · cases h
  · next index _ =>
    split at h
    · cases h
    · next type htype =>
      split at h
      · next heq =>
        cases h
        refine ⟨rfl, ?_⟩
        simp only [Instance.funcType] at htype
        split at htype
        · next callee hcallee =>
          cases htype
          exact ⟨callee, hcallee, heq⟩
        · cases htype
      · cases h

/-- **A handle fits every instance of its module.** -/
theorem Callee.IsGenuine.fits {s : Store σ} {id : InstanceId} {sh : Shape σ} {callee : Callee}
    (h : callee.IsGenuine s) (hS : s.outline = S) (hsound : S.IsSound loaded)
    (hs : S.shapes[id]? = some sh) : callee.Fits sh := by
  cases callee with
  | «export» name => trivial
  | typed f =>
    intro heq
    obtain ⟨id', inst, name, hinst, hf⟩ := h
    obtain ⟨hid, callee, hcallee, htype⟩ := Instance.of_typedFunc hf
    have hs' : S.shapes[id']? = some inst.shape := by
      rw [← hS]
      exact (Store.getElem?_shapes s id').trans (hinst ▸ rfl)
    have hm := hsound.module_eq hs hs' (heq.symm.trans hid)
    obtain ⟨g, hg, himp⟩ := (hsound.sound id' _ hs').exists_function hcallee
    obtain ⟨callee', hcallee', himp'⟩ := (hsound.sound id sh hs).exists_callable (hm ▸ hg)
    exact ⟨callee', hcallee', himp'.type_eq.trans (himp.type_eq.symm.trans htype)⟩

namespace Store

variable {s : Store σ} {id : InstanceId} {sh : Shape σ}

/-! ## Dispatch loops -/

theorem access_resume_sound {r : Run} {n : Nat} {j : Instr Empty} {types : LabelTypes}
    {ps qs : List OperandType} {g : Function} (hE : AllowsRuntime E) (hS : s.outline = S)
    (hs : S.shapes[r.inst]? = some sh) (hsound : sh.IsSound) (hj : j.NeedsStore)
    (ha : HasArrow ⟨sh.module, g⟩ types j ps qs) (hn : ps.length ≤ r.frame.operands.length)
    (hrun : CodeContext.CanRun ⟨sh.module, g⟩ sh.sideTable r.frame
      (r.frame.operands.length - ps.length + qs.length))
    (hcallers : sh.Supports r.callers r.frame.resultCount n) (hcall : ∀ func, j ≠ .call func)
    (hcall' : ∀ type table, j ≠ .callIndirect type table) :
    Transition.IsSound E S n (match s.access r.inst j.embed r.frame.operands with
      | (.ok operands, s) => s.resume { r with frame := r.frame.withOperands operands }
      | (.error e, s) => s.finish (.error e)) := by
  have houtline : (s.access r.inst j.embed r.frame.operands).2.outline = S :=
    (outline_access j.embed r.frame.operands).trans hS
  have hacc := access_sound (hS ▸ hs) hsound hj hcall hcall' ha hn
  split
  · next operands s' heq =>
    rw [heq] at houtline hacc
    refine ⟨houtline, n, ⟨sh, hs, ⟨g, hrun.locals, hrun.resultCount, ?_⟩, hcallers⟩, .nil⟩
    have hlen : operands.length = _ := hacc
    simp only [Frame.withOperands, hlen]
    exact hrun.resumes
  · next e s' heq =>
    rw [heq] at houtline hacc
    exact ⟨houtline, n, hE e hacc, .nil⟩

theorem execOutside_sound {r : Run} {n : Nat} {j : Instr Empty} {types : LabelTypes}
    {ps qs : List OperandType} {g : Function} (hE : AllowsRuntime E) (hS : s.outline = S)
    (hs : S.shapes[r.inst]? = some sh) (hsound : sh.IsSound) (hj : j.NeedsStore)
    (ha : HasArrow ⟨sh.module, g⟩ types j ps qs) (hn : ps.length ≤ r.frame.operands.length)
    (hrun : CodeContext.CanRun ⟨sh.module, g⟩ sh.sideTable r.frame
      (r.frame.operands.length - ps.length + qs.length))
    (hcallers : sh.Supports r.callers r.frame.resultCount n)
    (hhook : ∀ e, s.HookAnswers e (s.execOutside r j.embed).store →
      (s.execOutside r j.embed).control = .done (.error e) → E e) :
    (s.execOutside r j.embed).IsSound E S n := by
  have haccess := access_resume_sound hE hS hs hsound hj ha hn hrun hcallers
  cases ha with
  | call hf =>
    obtain ⟨callee, hcallee, himp⟩ := hsound.exists_callable hf
    rw [List.length_map, ← himp.type_eq] at hn
    rw [List.length_map, List.length_map, ← himp.type_eq] at hrun
    exact callFrom_sound hE hS hs hsound hcallee hn hrun hcallers hhook
  | @callIndirect type sig ht hsig =>
    rw [List.length_append, List.length_map, List.length_singleton] at hn
    rw [List.length_append, List.length_map, List.length_map, List.length_singleton] at hrun
    obtain ⟨id, frame, callers⟩ := r
    simp only at hs hn hrun hcallers hhook ⊢
    obtain ⟨slot, rest, hops⟩ := List.exists_cons_of_length_pos (l := frame.operands) (by omega)
    have hentry := tableEntry_sound (n := slot.toUInt32.toNat) (hS ▸ hs) hsound hsig
    simp only [execOutside, Instr.embed, Instr.map, hops] at hhook ⊢
    cases heq : s.tableEntry id type slot.toUInt32.toNat with
    | ok func =>
      simp only [heq] at hentry hhook ⊢
      obtain ⟨callee, hcallee, rfl⟩ := hentry
      rw [hops, List.length_cons] at hn hrun
      refine callFrom_sound hE hS hs hsound hcallee (Nat.le_of_succ_le_succ hn)
        ⟨hrun.locals, hrun.resultCount, ?_⟩ hcallers hhook
      rw [Nat.add_sub_add_right] at hrun
      exact hrun.resumes
    | error e =>
      simp only [heq] at hentry ⊢
      exact ⟨hS, n, hE e hentry, .nil⟩
  | globalGet | globalSet | load | store | memorySize | memoryGrow | memoryCopy | memoryFill =>
    exact haccess (fun _ h => by cases h) (fun _ _ h => by cases h)
  | _ => exact hj.elim

/-- **A step of a dispatch loop** keeps the invariant. -/
theorem dispatch_sound {r : Run} {n : Nat} (hE : AllowsRuntime E) (hsound : S.IsSound loaded)
    (hS : s.outline = S) (h : r.Awaits S 0 n)
    (hhook : ∀ e, s.HookAnswers e (s.dispatch r).store →
      (s.dispatch r).control = .done (.error e) → E e) :
    (s.dispatch r).IsSound E S n := by
  obtain ⟨id, frame, callers⟩ := r
  obtain ⟨sh, hs, ⟨g, hrun⟩, hcallers⟩ := h
  have houtline : (s.spendFuel id).2.outline = S :=
    (outline_eq_of_view (view_spendFuel fun _ _ => rfl)).trans hS
  have hanswers (e : Error) (s' : Store σ) (h : (s.spendFuel id).2.HookAnswers e s') :
      s.HookAnswers e s' := h.of_view (view_spendFuel fun _ _ => rfl)
  obtain ⟨i, next, hfetch, hpermits⟩ := Frame.exec_sound hrun
  simp only [dispatch] at hhook ⊢
  split
  · next s' heq =>
    rw [heq] at houtline
    exact ⟨houtline, n, hE _ trivial, .nil⟩
  · next s' heq =>
    rw [heq] at houtline hanswers
    simp only [heq] at hhook
    obtain ⟨inst, hinst, rfl⟩ := exists_of_shapes (houtline ▸ hs)
    have hfetch' : s'.fetch? id frame.pc = some (i, next) := by
      rw [fetch?, hinst]
      exact hfetch
    simp only [hfetch'] at hhook ⊢
    generalize { frame with pc := next }.exec frame.pc i = outcome at hpermits hhook ⊢
    cases hpermits with
    | @next f h =>
      have hcount : f.resultCount = frame.resultCount := h.resultCount.trans hrun.resultCount.symm
      exact ⟨houtline, n, ⟨inst.shape, hs, ⟨g, h⟩, hcount ▸ hcallers⟩, .nil⟩
    | @leave f h hn =>
      have hcount : f.resultCount = frame.resultCount := h.trans hrun.resultCount.symm
      exact leave_sound (r := ⟨id, f, callers⟩) houtline hs hn (hcount ▸ hcallers)
    | @outside f j types ps qs hi hj ha hn h =>
      have hcount : f.resultCount = frame.resultCount := h.resultCount.trans hrun.resultCount.symm
      subst hi
      exact execOutside_sound (r := ⟨id, f, callers⟩) hE houtline hs (hsound.sound id _ hs) hj ha hn h
        (hcount ▸ hcallers) fun e he => hhook e (hanswers e _ he)
    | trap cause => exact ⟨houtline, n, hE _ trivial, .nil⟩

/-! ## Invocations -/

theorem lookupCallee_sound {inst : Instance σ} {callee : Callee} (args : List Value)
    (hsound : inst.shape.IsSound) (hfits : callee.Fits inst.shape) :
    match lookupCallee inst callee args with
    | .ok (func, results) => ∃ f : Callable σ, inst.functions[func]? = some f ∧
        args.length = f.type.params.length ∧ results = f.type.results
    | .error e => e.IsRuntime := by
  have hlen {types : List ValType} (h : Value.HaveTypes args types) :
      args.length = types.length := by
    rw [← h, List.length_map]
  cases callee with
  | «export» name =>
    simp only [lookupCallee, Instance.exportedFunc]
    cases he : inst.module.export? name with
    | none => trivial
    | some e =>
      by_cases hk : e.kind = .func
      · have hi : e.index < inst.functions.size :=
          hsound.size_eq ▸ hsound.compiled.sound.exports e (List.mem_of_find?_eq_some he) hk
        simp only [if_pos hk, Instance.funcType, Array.getElem?_eq_getElem hi, bind, Except.bind]
        split
        · next heq =>
          split at heq
          · next htypes =>
            cases heq
            exact ⟨_, Array.getElem?_eq_getElem hi, hlen htypes, rfl⟩
          · cases heq
        · next heq =>
          split at heq
          · cases heq
          · cases heq
            trivial
      · simp only [if_neg hk]
        trivial
  | typed f =>
    simp only [lookupCallee]
    split
    · next heq =>
      split at heq
      · next h =>
        cases heq
        obtain ⟨callee, hcallee, htype⟩ := hfits h.1
        exact ⟨callee, hcallee, by rw [htype]; exact hlen h.2, by rw [htype]⟩
      · cases heq
    · next heq =>
      split at heq
      · cases heq
      · cases heq
        trivial

/-- **An invocation** yields what the callee declares. -/
theorem invocation_sound {callee : Callee} {args : List Value} {depth : Nat}
    (hE : AllowsRuntime E) (hS : s.outline = S) (hs : S.shapes[id]? = some sh) (hsound : sh.IsSound)
    (hfits : callee.Fits sh)
    (hhook : ∀ e, s.HookAnswers e (s.invocation id callee args depth).2 →
      (s.invocation id callee args depth).1.1 = .done (.error e) → E e) :
    Control.IsSound E S (s.invocation id callee args depth).1.2.length
      (s.invocation id callee args depth).1.1 := by
  obtain ⟨inst, hinst, rfl⟩ := exists_of_shapes (hS ▸ hs)
  simp only [invocation, hinst] at hhook ⊢
  have hcallee := lookupCallee_sound args hsound hfits
  split
  · next e heq =>
    rw [heq] at hcallee
    exact hE e hcallee
  · next func results heq =>
    rw [heq] at hcallee
    obtain ⟨f, hf, hargs, rfl⟩ := hcallee
    simp only [heq] at hhook
    by_cases hp : inst.isPoisoned = true
    · simp only [if_pos hp]
      exact hE _ trivial
    · simp only [if_neg hp] at hhook ⊢
      exact callFunction_sound hE hS hs hsound hf (by rwa [List.length_map]) hhook

theorem isRuntime_of_acquire {hold : Hold} {e : Error} (h : (s.acquire hold).1 = .error e) :
    e.IsRuntime := by
  cases hold with
  | hook h' =>
    simp only [acquire] at h
    split at h
    · cases h
      rfl
    · cases h
  | memory id exclusive =>
    simp only [acquire, withInstance_eq] at h
    split at h
    · cases h
    · split at h
      · cases h
      · split at h <;> cases h
        rfl

theorem isRuntime_of_acquireAll {holds : List Hold} {e : Error}
    (h : (s.acquireAll holds).1 = .error e) : e.IsRuntime := by
  induction holds generalizing s with
  | nil => cases h
  | cons hold holds ih =>
    rw [acquireAll] at h
    split at h
    · next heq =>
      cases h
      exact isRuntime_of_acquire (congrArg Prod.fst heq)
    · next s₁ heq =>
      split at h
      · cases h
      · next heq' =>
        cases h
        exact ih (congrArg Prod.fst heq')

/-- **An invocation with things borrowed** yields what the callee declares. -/
theorem invocation_sound_of_acquireAll {callee : Callee} {args : List Value} {depth : Nat}
    {holds : List Hold} {s' : Store σ} (hE : AllowsRuntime E) (hS : s.outline = S)
    (hs : S.shapes[id]? = some sh) (hsound : sh.IsSound) (hfits : callee.Fits sh)
    (heq : s.acquireAll holds = (.ok (), s'))
    (hhook : ∀ e, s.HookAnswers e (s'.invocation id callee args depth).2 →
      (s'.invocation id callee args depth).1.1 = .done (.error e) → E e) :
    (s'.invocation id callee args depth).2.outline = S ∧
      Control.IsSound E S (s'.invocation id callee args depth).1.2.length
        (s'.invocation id callee args depth).1.1 := by
  have houtline := (outline_acquireAll (s := s) holds).trans hS
  have hview := view_acquireAll (s := s) (g := fun inst => (inst.functions, inst.memory))
    (fun _ _ => rfl) holds
  rw [heq] at houtline hview
  exact ⟨(outline_invocation ..).trans houtline,
    invocation_sound hE houtline hs hsound hfits fun e he => hhook e (he.of_view hview)⟩

/-! ## Host functions -/

theorem serve_sound {call : HostCall} {program : HostProgram σ} (hE : AllowsRuntime E)
    (hsound : S.IsSound loaded) (hS : s.outline = S) (h : call.IsSound S)
    (hallows : s.Allows call program) (hdone : ∀ e, program = .done (.error e) → E e)
    (hhook : ∀ e, s.HookAnswers e (s.serve call program).store →
      (s.serve call program).control = .done (.error e) → E e) :
    (s.serve call program).IsSound E S call.results.length := by
  have hproceed (s' : Store σ) (program' : HostProgram σ) (hs' : s'.outline = S) :
      (s'.proceed call program').IsSound E S call.results.length :=
    ⟨hs', _, ⟨h, rfl⟩, .nil⟩
  cases program with
  | done outcome =>
    refine ⟨(outline_endHostCall call outcome).trans hS, _, ?_, .nil⟩
    cases hcaller : call.caller with
    | none =>
      simp only [serve, finish, endHostCall, hcaller]
      cases outcome with
      | error e => exact hdone e rfl
      | ok result => exact resultSlots_sound hE trivial h.results
    | some c =>
      simp only [serve, finish, endHostCall, hcaller]
      exact importOutcome_sound hE h.results fun e he => hdone e (he ▸ rfl)
  | getState k => exact hproceed s _ hS
  | setState host k => exact hproceed _ _ hS
  | viewMemory k => exact hproceed s _ hS
  | updateMemory op k => exact hproceed _ _ ((outline_updateCallerMemory call op).trans hS)
  | setFuel id fuel k =>
    refine hproceed _ k (Eq.trans ?_ hS)
    exact outline_modifyInstance fun _ => rfl
  | call target callee args holds k =>
    simp only [serve] at hhook ⊢
    cases htarget : callTarget call target with
    | error e => exact hproceed s _ hS
    | ok target =>
      obtain ⟨id, depth⟩ := target
      obtain ⟨hid, hgenuine⟩ := hallows id depth htarget
      obtain ⟨sh, hs⟩ := exists_shape hid
      simp only [htarget] at hhook ⊢
      have hs : S.shapes[id]? = some sh := hS ▸ hs
      have hfits := hgenuine.fits hS hsound hs
      split
      · next e s' heq =>
        have houtline := (outline_acquireAll (s := s) holds).trans hS
        rw [heq] at houtline
        exact ⟨houtline, _, hE e (isRuntime_of_acquireAll (congrArg Prod.fst heq)), .nil⟩
      · next s' heq =>
        simp only [heq] at hhook
        obtain ⟨houtline, hcontrol⟩ :=
          invocation_sound_of_acquireAll hE hS hs (hsound.sound id sh hs) hfits heq hhook
        exact ⟨houtline, _, hcontrol, .invocation (.host h .nil)⟩

/-- **An outcome on its way** keeps the invariant. -/
theorem deliver_sound {outcome : Except Error (List Slot)} {p : Pending σ} {rest : List (Pending σ)}
    {k n : Nat} (hS : s.outline = S) (h : Control.IsSound E S k (.done outcome : Control σ))
    (hp : PendingSound S (p :: rest) k n) :
    ∃ m, (s.deliver outcome p).IsSound E S m ∧ PendingSound S rest m n := by
  cases hp with
  | @run r _ _ m _ hr hrest =>
    refine ⟨m, ?_, hrest⟩
    cases outcome with
    | error e => exact ⟨hS, m, h, .nil⟩
    | ok results =>
      obtain ⟨sh, hs, ⟨g, hrun⟩, hcallers⟩ := hr
      refine ⟨hS, m, ⟨sh, hs, ⟨g, hrun.locals, hrun.resultCount, ?_⟩, hcallers⟩, .nil⟩
      have hlen : results.length = k := h
      simp only [Frame.withOperands, List.length_append, List.length_reverse, hlen]
      rw [Nat.add_comm k]
      exact hrun.resumes
  | @invocation id holds _ _ _ hrest =>
    refine ⟨k, ⟨?_, k, h, .nil⟩, hrest⟩
    refine (outline_releaseAll holds).trans (Eq.trans ?_ hS)
    split
    · split
      · exact outline_modifyInstance fun _ => rfl
      · rfl
    · rfl
  | @host call results k' _ _ _ hcall hrest =>
    refine ⟨call.results.length, ?_, hrest⟩
    simp only [deliver]
    split
    · exact ⟨hS, call.results.length, h, .nil⟩
    · exact ⟨hS, _, ⟨hcall, rfl⟩, .nil⟩

end Store

namespace Config

theorem IsSound.step {c : Config σ} {n : Nat} (hE : AllowsRuntime E) (hsound : S.IsSound loaded)
    (h : c.IsSound E S n) (hallows : c.Allows) (hhost : ∀ e, c.HostAnswers e → E e) :
    c.step.IsSound E S n := by
  obtain ⟨store, control, pending⟩ := c
  obtain ⟨houtline, k, hcontrol, hp⟩ := h
  cases control with
  | run r =>
    refine isSound_ofTransition (Store.dispatch_sound hE hsound houtline hcontrol ?_) hp
    exact fun e he hstep => hhost e (.inr ⟨he, hstep⟩)
  | host call program =>
    obtain ⟨hcall, rfl⟩ := hcontrol
    refine isSound_ofTransition (Store.serve_sound hE hsound houtline hcall (hallows _ _ rfl)
      ?_ ?_) hp
    · rintro e rfl
      exact hhost e (.inl ⟨call, rfl⟩)
    · exact fun e he hstep => hhost e (.inr ⟨he, hstep⟩)
  | done outcome =>
    cases pending with
    | nil => exact ⟨houtline, k, hcontrol, hp⟩
    | cons p pending =>
      obtain ⟨m, ht, hrest⟩ := Store.deliver_sound houtline hcontrol hp
      exact isSound_ofTransition ht hrest

end Config

end WasmEngine
