import WasmEngine.Proofs.Fuel.Budget
import WasmEngine.Proofs.Limits.Slots
import WasmEngine.Proofs.Structured.Refinement

/-!
# Proofs/Limits/Raised — raising limits changes no result

The bounds on call depth and on slots are looked at in one place, where a function is entered, and
only to end in a stack overflow (`Frame.new_of_le`).  So a step from limits to wider ones commutes with
every step of a call without imports, up to an overflow within the narrower limits:
`Config.step_withLimits`, `Config.run_withLimits`.  A call that does not overflow then ends alike within
both: `Store.call_of_wider_limits`.
-/

namespace WasmEngine

variable {σ α : Type}

/-- Limits of which one leaves calls at least as much room as the other. -/
structure Limits.IsWithin (narrow wide : Limits) : Prop where
  maxCallDepth : narrow.maxCallDepth ≤ wide.maxCallDepth
  maxValueStack : narrow.maxValueStack ≤ wide.maxValueStack

/-- **Wider limits admit the same frame**, or the narrower ones overflow. -/
theorem Frame.new_of_le {narrow wide : Limits} (h : narrow.IsWithin wide) (type : Signature)
    (entry declared : Nat) (args : List Slot) (below outerDepth : Nat) :
    Frame.new narrow type entry declared args below outerDepth = stackOverflow ∨
      Frame.new wide type entry declared args below outerDepth =
        Frame.new narrow type entry declared args below outerDepth := by
  obtain ⟨hdepth, hslots⟩ := h
  unfold Frame.new
  by_cases hcall : narrow.maxCallDepth ≤ outerDepth
  · exact .inl (if_pos hcall)
  · by_cases hstack : narrow.maxValueStack < below + args.length + declared
    · exact .inl ((if_neg hcall).trans (if_pos hstack))
    · refine .inr ?_
      have hcall' : ¬wide.maxCallDepth ≤ outerDepth := by omega
      have hstack' : ¬wide.maxValueStack < below + args.length + declared := by omega
      rw [if_neg hcall, if_neg hcall', if_neg hstack, if_neg hstack']

/-- A transition with other limits for an instance. -/
def Transition.withLimits (t : Transition σ) (id : InstanceId) (limits : Limits) : Transition σ :=
  { t with store := t.store.withLimits id limits }

/-- A configuration with other limits for an instance. -/
def Config.withLimits (c : Config σ) (id : InstanceId) (limits : Limits) : Config σ :=
  { c with store := c.store.withLimits id limits }

namespace Store

variable {s s' : Store σ} {id i : InstanceId} {limits : Limits} {r : Run} {inst : Instance σ}

/-- Whether an instance imports nothing and has limits within others. -/
def IsWithin (s : Store σ) (id : InstanceId) (limits : Limits) : Prop :=
  ∀ inst, s.instances[id]? = some inst → inst.IsClosed ∧ inst.limits.IsWithin limits

/-- The functions and the limits of an instance are fixed. -/
theorem isFixed_bounds :
    Instance.IsFixed fun inst : Instance σ => (inst.functions, inst.limits) :=
  ⟨fun _ => rfl, fun _ _ _ => rfl⟩

theorem IsWithin.of_map (h : s.IsWithin id limits)
    (hs : s'.instances.map (fun inst => (inst.functions, inst.limits)) =
      s.instances.map fun inst => (inst.functions, inst.limits)) : s'.IsWithin id limits := by
  intro inst' hinst'
  have hi := congrArg (·[id]?) hs
  simp only [Array.getElem?_map, hinst', Option.map_some] at hi
  obtain ⟨inst, hinst, heq⟩ := Option.map_eq_some_iff.1 hi.symm
  obtain ⟨hfunctions, hlimits⟩ := Prod.mk.inj heq
  obtain ⟨hclosed, hle⟩ := h inst hinst
  exact ⟨fun func type ref binding hf => hclosed func type ref binding (hfunctions ▸ hf),
    hlimits ▸ hle⟩

theorem IsWithin.of_cores (h : s.IsWithin id limits) (hs : s'.cores = s.cores) :
    s'.IsWithin id limits :=
  h.of_map (map_eq_of_cores isFixed_bounds hs)

/-! ## Operations -/

/-- Other limits are one way to change the bounds of an instance. -/
theorem withLimits_eq_rebound (s : Store σ) (id : InstanceId) (limits : Limits) :
    s.withLimits id limits = s.rebound id (fun _ => limits) fun fuel => fuel := rfl

theorem spendFuel_withLimits : (s.withLimits id limits).spendFuel i =
    ((s.spendFuel i).1, (s.spendFuel i).2.withLimits id limits) := by
  have hfuel : (s.withLimits id limits).instances[i]?.bind (·.fuel) =
      s.instances[i]?.bind (·.fuel) := by
    rw [withLimits_eq_rebound, getElem?_rebound]
    split
    · cases s.instances[i]? <;> rfl
    · rfl
  have hcomm (n : Nat) : (s.withLimits id limits).modifyInstance i ({ · with fuel := some n }) =
      (s.modifyInstance i ({ · with fuel := some n })).withLimits id limits := by
    refine ext_of_instances (fun j => ?_) rfl rfl rfl
    simp only [withLimits, getElem?_modifyInstance]
    by_cases hi : j = i <;> by_cases hid : j = id <;> simp [hi, hid]
    all_goals cases s.instances[i]? <;> simp_all
  unfold spendFuel
  rw [hfuel]
  split
  · rfl
  · rfl
  · exact congrArg (Prod.mk true) (hcomm _)

theorem fetch?_withLimits (pc : Nat) :
    (s.withLimits id limits).fetch? i pc = s.fetch? i pc := by
  rw [withLimits_eq_rebound, fetch?_rebound]

theorem leave_withLimits :
    (s.withLimits id limits).leave r = (s.leave r).withLimits id limits := by
  obtain ⟨i, frame, callers⟩ := r
  simp only [leave]
  split
  · rfl
  · cases callers <;> rfl

/-- **A call within wider limits** does the same, or it overflows. -/
theorem callFrom_withLimits (h : s.IsWithin r.inst limits) (func : Nat) :
    (s.callFrom r func).control = .done stackOverflow ∨
      (s.withLimits r.inst limits).callFrom r func =
        (s.callFrom r func).withLimits r.inst limits := by
  obtain ⟨id, frame, callers⟩ := r
  replace h : s.IsWithin id limits := h
  cases hinst : s.instances[id]? with
  | none =>
    have hnone : (s.withLimits id limits).instances[id]? = none := by
      rw [withLimits_eq_rebound]
      exact getElem?_rebound_of_none hinst
    refine .inr ?_
    simp only [callFrom, hnone, hinst]
    rfl
  | some inst =>
    have hinst' := getElem?_withLimits hinst limits
    obtain ⟨hclosed, hle⟩ := h inst hinst
    cases hfunc : inst.functions[func]? with
    | none =>
      refine .inr ?_
      simp only [callFrom, hinst', hinst, hfunc]
      rfl
    | some callee =>
      cases callee with
      | imported type ref binding => exact absurd hfunc (hclosed func type ref binding)
      | code type entry declared =>
        obtain hlt | hcount := Nat.lt_or_ge frame.operands.length type.params.length
        · replace hlt : frame.operands.length <
              (Callable.code type entry declared : Callable σ).type.params.length := hlt
          refine .inr ?_
          simp only [callFrom, hinst', hinst, hfunc, if_pos hlt]
          rfl
        · rw [callFrom_code hinst hfunc hcount, callFrom_code hinst' hfunc hcount]
          obtain hover | heq := Frame.new_of_le hle type entry declared
            (frame.operands.take type.params.length).reverse
            (frame.withOperands (frame.operands.drop type.params.length)).slotCount frame.depth
          · exact .inl (by rw [hover]; rfl)
          · refine .inr ?_
            rw [heq]
            split <;> rfl

theorem execOutside_withLimits (h : s.IsWithin r.inst limits) (instr : Instr BlockJump) :
    (s.execOutside r instr).control = .done stackOverflow ∨
      (s.withLimits r.inst limits).execOutside r instr =
        (s.execOutside r instr).withLimits r.inst limits := by
  unfold execOutside
  split
  · exact callFrom_withLimits h _
  · split
    · exact .inr rfl
    · next rest _ =>
      rw [withLimits_eq_rebound, tableEntry_rebound, ← withLimits_eq_rebound]
      split
      · exact callFrom_withLimits (r := { r with frame := r.frame.withOperands rest }) h _
      · exact .inr rfl
  · refine .inr ?_
    rw [withLimits_eq_rebound, access_rebound]
    generalize s.access r.inst _ _ = x
    obtain ⟨outcome, s⟩ := x
    cases outcome <;> rfl

/-- **An instruction within wider limits** does the same, or it overflows. -/
theorem dispatch_withLimits (h : s.IsWithin r.inst limits) :
    (s.dispatch r).control = .done stackOverflow ∨
      (s.withLimits r.inst limits).dispatch r = (s.dispatch r).withLimits r.inst limits := by
  obtain ⟨id, frame, callers⟩ := r
  have h₁ : (s.spendFuel id).2.IsWithin id limits := h.of_cores cores_spendFuel
  simp only [dispatch, spendFuel_withLimits]
  generalize s.spendFuel id = x at h₁ ⊢
  obtain ⟨isPaid, s₁⟩ := x
  cases isPaid with
  | false => exact .inr rfl
  | true =>
    simp only [fetch?_withLimits]
    cases s₁.fetch? id frame.pc with
    | none => exact .inr rfl
    | some found =>
      obtain ⟨instr, pc⟩ := found
      simp only
      cases { frame with pc }.exec frame.pc instr with
      | error e => exact .inr rfl
      | ok flow =>
        cases flow with
        | next frame => exact .inr rfl
        | leave frame => exact .inr leave_withLimits
        | outside frame => exact execOutside_withLimits (r := ⟨id, frame, callers⟩) h₁ instr

/-- The end of an invocation looks at no limits. -/
theorem deliver_invocation_withLimits (outcome : Except Error (List Slot)) (holds : List Hold) :
    (s.withLimits id limits).deliver outcome (.invocation i holds) =
      (s.deliver outcome (.invocation i holds)).withLimits id limits := by
  have hrelease (s : Store σ) :
      (s.withLimits id limits).releaseAll holds = (s.releaseAll holds).withLimits id limits := by
    rw [withLimits_eq_rebound, releaseAll_rebound, ← withLimits_eq_rebound]
  have hpoison : (s.withLimits id limits).modifyInstance i ({ · with isPoisoned := true }) =
      (s.modifyInstance i ({ · with isPoisoned := true })).withLimits id limits := by
    rw [withLimits_eq_rebound, modifyInstance_rebound fun _ _ _ => rfl, ← withLimits_eq_rebound]
  cases outcome with
  | ok slots => exact congrArg (finish · _) (hrelease s)
  | error e =>
    by_cases he : e.IsFatal
    · simp only [deliver, if_pos he]
      rw [hpoison, hrelease]
      rfl
    · simp only [deliver, if_neg he]
      rw [hrelease]
      rfl

/-! ## Invocations -/

variable {callee : Callee} {args : List Value} {holds : List Hold} {depth : Nat}

theorem callFunction_withLimits (h : s.IsWithin id limits) (func : Nat) (args : List Slot)
    (depth : Nat) : (s.callFunction id func args depth).1 = .done stackOverflow ∨
      (s.withLimits id limits).callFunction id func args depth =
        ((s.callFunction id func args depth).1,
          (s.callFunction id func args depth).2.withLimits id limits) := by
  unfold callFunction
  cases hinst : s.instances[id]? with
  | none =>
    rw [withLimits_eq_rebound, getElem?_rebound_of_none hinst]
    exact .inr rfl
  | some inst =>
    obtain ⟨hclosed, hle⟩ := h inst hinst
    simp only [getElem?_withLimits hinst limits]
    cases hfunc : inst.functions[func]? with
    | none => exact .inr rfl
    | some callee =>
      cases callee with
      | imported type ref binding => exact absurd hfunc (hclosed func type ref binding)
      | code type entry declared =>
        obtain hover | heq := Frame.new_of_le hle type entry declared args 0 depth
        · exact .inl (by simp only [hover]; rfl)
        · refine .inr ?_
          simp only [heq]
          cases Frame.new inst.limits type entry declared args 0 depth <;> rfl

/-- **An invocation within wider limits** declares the same results, and begins alike or
overflows. -/
theorem invocation_withLimits (h : s.IsWithin id limits) (callee : Callee) (args : List Value)
    (depth : Nat) :
    ((s.withLimits id limits).invocation id callee args depth).1.2 =
        (s.invocation id callee args depth).1.2 ∧
      ((s.invocation id callee args depth).1.1 = .done stackOverflow ∨
        (s.withLimits id limits).invocation id callee args depth =
          ((s.invocation id callee args depth).1,
            (s.invocation id callee args depth).2.withLimits id limits)) := by
  unfold invocation
  cases hinst : s.instances[id]? with
  | none =>
    rw [withLimits_eq_rebound, getElem?_rebound_of_none hinst]
    exact ⟨rfl, .inr rfl⟩
  | some inst =>
    have hlookup : lookupCallee { inst with limits } callee args =
        lookupCallee inst callee args := by
      cases callee <;> rfl
    simp only [getElem?_withLimits hinst limits, hlookup]
    cases lookupCallee inst callee args with
    | error e => exact ⟨rfl, .inr rfl⟩
    | ok found =>
      obtain ⟨func, results⟩ := found
      simp only
      split
      · exact ⟨rfl, .inr rfl⟩
      · refine ⟨rfl, ?_⟩
        obtain hover | heq := callFunction_withLimits h func (args.map Value.toSlot)
          (max depth inst.reentryDepth)
        · exact .inl hover
        · exact .inr (by rw [heq])

theorem callConfig_withLimits (h : s.IsWithin id limits) (callee : Callee) (args : List Value)
    (holds : List Hold) :
    (s.callConfig id callee args holds).control = .done stackOverflow ∨
      (s.withLimits id limits).callConfig id callee args holds =
        (s.callConfig id callee args holds).withLimits id limits := by
  have h₁ : (s.acquireAll holds).2.IsWithin id limits := h.of_cores (cores_acquireAll holds)
  obtain ⟨-, hover | heq⟩ := invocation_withLimits h₁ callee args 0
  · exact .inl hover
  · refine .inr ?_
    simp only [callConfig]
    rw [withLimits_eq_rebound, acquireAll_rebound]
    simp only [rebounded]
    rw [← withLimits_eq_rebound, heq]
    rfl

end Store

namespace Config

variable {c : Config σ} {id : InstanceId} {limits : Limits} {holds : List Hold}

/-! ## Runs -/

/-- Whether an invocation of an instance without imports is what runs, or has just ended. -/
def Invokes (id : InstanceId) (holds : List Hold) (c : Config σ) : Prop :=
  c.IsInside id holds ∨ ∃ outcome, c.control = .done outcome ∧
    (c.pending = [.invocation id holds] ∨ c.pending = [])

theorem Invokes.step (h : c.Invokes id holds) : c.step.Invokes id holds := by
  obtain h | ⟨outcome, hcontrol, hpending⟩ := h
  · obtain h | ⟨outcome, hcontrol, hpending⟩ := h.step
    · exact .inl h
    · exact .inr ⟨outcome, hcontrol, .inl hpending⟩
  · obtain ⟨s, control, ps⟩ := c
    cases hcontrol
    obtain rfl | rfl := hpending
    · exact .inr ⟨outcome, rfl, .inr rfl⟩
    · exact .inr ⟨outcome, rfl, .inr rfl⟩

/-- The end of an invocation keeps its outcome. -/
theorem Invokes.control_step (h : c.Invokes id holds) {outcome : Except Error (List Slot)}
    (hdone : c.control = .done outcome) : c.step.control = .done outcome := by
  obtain h | ⟨-, -, hpending⟩ := h
  · obtain ⟨r, hcontrol, -⟩ := h.run
    cases hcontrol.symm.trans hdone
  · obtain ⟨s, control, ps⟩ := c
    cases hdone
    obtain rfl | rfl := hpending <;> rfl

theorem Invokes.isWithin_step (h : c.Invokes id holds) (hlimits : c.store.IsWithin id limits) :
    c.step.store.IsWithin id limits := by
  obtain ⟨s, control, ps⟩ := c
  obtain ⟨⟨r, rfl, -⟩, rfl, -⟩ | ⟨outcome, rfl, rfl | rfl⟩ := h
  · exact hlimits.of_map ((s.dispatch_turn r).map_eq Store.isFixed_bounds)
  · have hview : (s.deliver outcome (.invocation id holds)).store.view
        (fun inst => (inst.functions, inst.limits)) =
        s.view fun inst => (inst.functions, inst.limits) := by
      refine (Store.view_releaseAll (fun _ _ => rfl) holds).trans ?_
      cases outcome with
      | ok slots => rfl
      | error e =>
        simp only
        split
        · exact Store.view_modifyInstance fun _ => rfl
        · rfl
    exact hlimits.of_map (congrArg Prod.fst hview)
  · exact hlimits

/-- **A step within wider limits** does the same, or it overflows. -/
theorem step_withLimits (h : c.Invokes id holds) (hlimits : c.store.IsWithin id limits) :
    c.step.control = .done stackOverflow ∨
      (c.withLimits id limits).step = c.step.withLimits id limits := by
  obtain ⟨s, control, ps⟩ := c
  obtain ⟨⟨r, rfl, rfl⟩, rfl, -⟩ | ⟨outcome, rfl, rfl | rfl⟩ := h
  · obtain hover | heq := Store.dispatch_withLimits hlimits
    · exact .inl hover
    · exact .inr (congrArg (ofTransition · _) heq)
  · refine .inr ?_
    exact congrArg (ofTransition · []) (Store.deliver_invocation_withLimits outcome holds)
  · exact .inr rfl

/-- **A run within wider limits** is the same, unless it overflows. -/
theorem run_withLimits (h : c.Invokes id holds) (hlimits : c.store.IsWithin id limits) (n : Nat) :
    (run n c).control = .done stackOverflow ∨
      run n (c.withLimits id limits) = (run n c).withLimits id limits := by
  induction n with
  | zero => exact .inr rfl
  | succ n ih =>
    have hn : (run n c).Invokes id holds ∧ (run n c).store.IsWithin id limits :=
      run_induction (P := fun c => c.Invokes id holds ∧ c.store.IsWithin id limits)
        (fun c h => ⟨h.1.step, h.1.isWithin_step h.2⟩) ⟨h, hlimits⟩ n
    rw [run_succ, run_succ]
    obtain hover | heq := ih
    · exact .inl (hn.1.control_step hover)
    · rw [heq]
      exact step_withLimits hn.1 hn.2

end Config

namespace Store

variable {s t : Store σ} {id : InstanceId} {limits : Limits} {callee : Callee} {args : List Value}
  {holds : List Hold} {inst : Instance σ}

theorem callConfig_invokes (h : s.IsWithin id limits) (hinst : s.instances[id]? = some inst)
    (callee : Callee) (args : List Value) (holds : List Hold) :
    (s.callConfig id callee args holds).Invokes id holds ∧
      (s.callConfig id callee args holds).store.IsWithin id limits := by
  have hstore : (s.callConfig id callee args holds).store.IsWithin id limits := by
    obtain ⟨e, s', -, hs, heq⟩ | ⟨s₁, inst', control, s', hs, -, -, he, heq⟩ :=
      callConfig_cases s id callee args holds
    · rw [heq]
      exact h.of_cores hs
    · rw [heq]
      exact (h.of_cores hs).of_map (he.map_eq isFixed_bounds)
  obtain ⟨outcome, s', heq⟩ | hinside :=
    callConfig_isInside callee args holds hinst (h inst hinst).1
  · refine ⟨.inr ⟨outcome, ?_, .inl ?_⟩, hstore⟩ <;> rw [heq]
  · exact ⟨.inl hinside, hstore⟩

/-- **A call that does not overflow ends alike within wider limits.** -/
theorem call_of_wider_limits (h : s.IsWithin id limits) (hinst : s.instances[id]? = some inst)
    {budget : Nat} {result : Except Error (List Value)}
    (hcall : s.call id callee args holds budget = some (result, t))
    (hresult : result ≠ .error (.trap .stackOverflow)) :
    (s.withLimits id limits).call id callee args holds budget =
      some (result, t.withLimits id limits) := by
  have hacquire : (s.withLimits id limits).acquireAll holds =
      ((s.acquireAll holds).1, (s.acquireAll holds).2.withLimits id limits) := by
    rw [withLimits_eq_rebound, acquireAll_rebound]
    rfl
  cases hs : (s.acquireAll holds).1 with
  | error e =>
    have heq : s.acquireAll holds = (.error e, (s.acquireAll holds).2) := Prod.ext hs rfl
    rw [call, heq] at hcall
    rw [call, hacquire, hs]
    cases hcall
    rfl
  | ok u =>
    have hs' : ((s.withLimits id limits).acquireAll holds).1 = .ok () := by rw [hacquire, hs]
    have hresults : (((s.withLimits id limits).acquireAll holds).2.invocation id callee args 0).1.2 =
        ((s.acquireAll holds).2.invocation id callee args 0).1.2 := by
      rw [hacquire]
      exact (invocation_withLimits (h.of_cores (cores_acquireAll holds)) callee args 0).1
    rw [call_eq_run hs] at hcall
    obtain ⟨outcome, hout, heq⟩ := Option.map_eq_some_iff.1 hcall
    obtain ⟨rfl, rfl⟩ := Prod.mk.inj heq
    obtain ⟨hinvokes, hwithin⟩ := callConfig_invokes h hinst callee args holds
    -- An overflow, at the start or later, would be the result.
    have hno (hover : (Config.run budget (s.callConfig id callee args holds)).control =
        .done stackOverflow) : False := by
      generalize Config.run budget (s.callConfig id callee args holds) = c at hover hout
      obtain ⟨s', control, ps⟩ := c
      cases hover
      cases ps with
      | nil =>
        cases hout
        exact hresult rfl
      | cons p ps => cases hout
    have hstart : (s.withLimits id limits).callConfig id callee args holds =
        (s.callConfig id callee args holds).withLimits id limits := by
      refine (callConfig_withLimits h callee args holds).resolve_left fun hover => hno ?_
      have hkeeps : (Config.run budget (s.callConfig id callee args holds)).control =
            .done stackOverflow ∧
          (Config.run budget (s.callConfig id callee args holds)).Invokes id holds :=
        Config.run_induction (P := fun c => c.control = .done stackOverflow ∧ c.Invokes id holds)
          (fun c hc => ⟨hc.2.control_step hc.1, hc.2.step⟩) ⟨hover, hinvokes⟩ budget
      exact hkeeps.1
    have hrun := (Config.run_withLimits hinvokes hwithin budget).resolve_left hno
    rw [call_eq_run hs', hresults, hstart, hrun]
    exact Option.map_eq_some_iff.2 ⟨outcome, hout, rfl⟩

/-- **Raising the bounds on call depth and on slots changes no result.**  A call of an export in an
instance of a compiled module without imports that ends in anything but a stack overflow ends with the same
result within limits that differ only in these bounds and are not lower, and leaves the same store, with
memory, globals and budget, but for the limits. -/
theorem raising_limits {bytes : ByteArray} {m : LoadedModule} {imports : Imports σ}
    {limits₀ : Limits} {new : Instance σ} {name : String} {budget depth slots : Nat}
    {result : Except Error (List Value)} (hm : Module.compile bytes = .ok m.module)
    (himports : m.module.imports = []) (hnew : Instance.allocate m imports limits₀ = .ok new)
    (hinst : s.instances[id]? = some inst) (hfunctions : inst.functions = new.functions)
    (hdepth : inst.limits.maxCallDepth ≤ depth) (hslots : inst.limits.maxValueStack ≤ slots)
    (hcall : s.call id (.export name) args holds budget = some (result, t))
    (hresult : result ≠ .error (.trap .stackOverflow)) :
    let limits : Limits := { inst.limits with maxCallDepth := depth, maxValueStack := slots }
    (s.withLimits id limits).call id (.export name) args holds budget =
      some (result, t.withLimits id limits) := by
  obtain ⟨-, table, hcompiled⟩ := Module.compile_sound hm
  have hclosed : inst.IsClosed := by
    intro func type ref binding hf
    exact Instance.isClosed_of_allocate hcompiled.sound himports hnew _ _ _ _ (hfunctions ▸ hf)
  refine call_of_wider_limits (fun inst' hinst' => ?_) hinst hcall hresult
  obtain rfl := Option.some.inj (hinst.symm.trans hinst')
  exact ⟨hclosed, hdepth, hslots⟩

/-- The sample answers the same with twice the bounds. -/
theorem raising_limits_sample :
    ∃ (limits : Limits) (t : Store Unit), limits.maxCallDepth = 2048 ∧
      (sample.withLimits 0 limits).call 0 (.export "f") [.i32 1] [] 6 =
        some (.ok [.i32 7], t.withLimits 0 limits) := by
  obtain ⟨t, hcall⟩ : ∃ t, sample.call 0 (.export "f") [.i32 1] [] 6 =
      some (.ok [.i32 7], t) := ⟨_, by cbv⟩
  obtain ⟨new, hnew, hfunctions⟩ : ∃ new : Instance Unit,
      Instance.allocate ⟨0, .compiledSample⟩ {} {} = .ok new ∧
        #[.code { params := [.i32], results := [.i32] } 32 0] = new.functions := ⟨_, by cbv, rfl⟩
  have hdepth : sample.instances[0].limits.maxCallDepth ≤ 2048 := by decide
  have hslots : sample.instances[0].limits.maxValueStack ≤ 1 <<< 21 := by decide
  exact ⟨_, t, rfl, raising_limits Module.compile_sampleBytes rfl hnew rfl hfunctions hdepth hslots
    hcall (fun h => by cases h)⟩

end Store

end WasmEngine
