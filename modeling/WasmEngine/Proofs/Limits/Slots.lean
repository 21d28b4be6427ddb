import Mathlib
import WasmEngine.Proofs.Nesting.Depth
import WasmEngine.Proofs.Nesting.Local

/-!
# Proofs/Limits/Slots — what the bound on slots bounds

A function is entered only if its locals fit on top of what is below, within `Limits.maxValueStack`.
`IsStacked` says that of all frames of a dispatch loop, and that each frame counts the slots below it;
every step keeps it (`Config.IsStacked.step`).  So the slots of a dispatch loop, but for the operands of
the function that runs, are within the bound (`Store.slots_within`).  Operands are not counted when they
are pushed, nor are the results of imports: a loop may hold more (`Store.slots_beyond`).
-/

namespace WasmEngine

variable {σ : Type}

/-! ## Frames on a stack -/

/-- The slots of frames: their operands and locals. -/
def slotsIn : List Frame → Nat
  | [] => 0
  | f :: fs => f.operands.length + f.locals.size + slotsIn fs

/-- Whether frames, innermost first, count the slots below them, and fit within a bound with their
locals. -/
def IsStacked (bound : Nat) : List Frame → Prop
  | [] => True
  | f :: fs => f.below = slotsIn fs ∧ f.below + f.locals.size ≤ bound ∧ IsStacked bound fs

theorem IsStacked.slotCount_eq {bound : Nat} {f : Frame} {fs : List Frame}
    (h : IsStacked bound (f :: fs)) : f.slotCount = slotsIn (f :: fs) := by
  obtain ⟨hbelow, -, -⟩ := h
  rw [Frame.slotCount, slotsIn, hbelow]
  omega

/-- **Without the operands of the innermost frame, the slots are within the bound.** -/
theorem IsStacked.slots_le {bound : Nat} {f : Frame} {fs : List Frame}
    (h : IsStacked bound (f :: fs)) : slotsIn (f :: fs) ≤ bound + f.operands.length := by
  obtain ⟨hbelow, hfits, -⟩ := h
  rw [slotsIn]
  omega

/-- Only the locals and the count of a frame matter. -/
theorem IsStacked.of_fixed {bound : Nat} {f g : Frame} {fs : List Frame}
    (h : IsStacked bound (f :: fs)) (hf : g.fixed = f.fixed) : IsStacked bound (g :: fs) := by
  obtain ⟨hbelow, hfits, hrest⟩ := h
  obtain ⟨hlocals, -, hbelow', -⟩ := Frame.eq_of_fixed hf
  exact ⟨hbelow'.trans hbelow, by rw [hbelow', hlocals]; exact hfits, hrest⟩

/-! ## Dispatch loops -/

/-- Whether the frames of a dispatch loop are stacked within the limits of its instance. -/
def Run.IsStackedIn (r : Run) (limits : Array Limits) : Prop :=
  ∀ l, limits[r.inst]? = some l → IsStacked l.maxValueStack (r.frame :: r.callers)

/-- Whether all dispatch loops of a stack are stacked within limits. -/
def StackIn (limits : Array Limits) (ps : List (Pending σ)) : Prop :=
  ∀ r, .run r ∈ ps → r.IsStackedIn limits

/-- The limits of all instances. -/
def Store.limits (s : Store σ) : Array Limits := s.instances.map (·.limits)

theorem Run.IsStackedIn.of_fixed {r : Run} {f : Frame} {limits : Array Limits}
    (h : r.IsStackedIn limits) (hf : f.fixed = r.frame.fixed) :
    Run.IsStackedIn { r with frame := f } limits :=
  fun l hl => (h l hl).of_fixed hf

theorem StackIn.run {r : Run} {limits : Array Limits} {ps : List (Pending σ)}
    (h : r.IsStackedIn limits) (hps : StackIn limits ps) : StackIn limits (.run r :: ps) := by
  rintro r' (_ | ⟨_, hr⟩)
  · exact h
  · exact hps r' hr

theorem StackIn.cons {p : Pending σ} {limits : Array Limits} {ps : List (Pending σ)}
    (hp : ∀ r, p ≠ .run r) (hps : StackIn limits ps) : StackIn limits (p :: ps) := by
  rintro r' (_ | ⟨_, hr⟩)
  · exact absurd rfl (hp r')
  · exact hps r' hr

theorem StackIn.on {control : Control σ} {limits : Array Limits} {ps : List (Pending σ)}
    (hc : ∀ r, control = .run r → r.IsStackedIn limits) (hps : StackIn limits ps) :
    StackIn limits (control.on ps) := by
  cases control with
  | run r => exact .run (hc r rfl) hps
  | host call program => exact .cons (fun r h => by cases h) hps
  | done outcome => exact hps

theorem StackIn.append {limits : Array Limits} {ps qs : List (Pending σ)}
    (hp : StackIn limits ps) (hq : StackIn limits qs) : StackIn limits (ps ++ qs) :=
  fun r hr => (List.mem_append.1 hr).elim (hp r) (hq r)

theorem Control.on_append (control : Control σ) (ps qs : List (Pending σ)) :
    control.on (ps ++ qs) = control.on ps ++ qs := by
  cases control <;> rfl

theorem StackIn.ofTransition {t : Transition σ} {limits : Array Limits} {ps : List (Pending σ)}
    (ht : StackIn limits (t.control.on t.waiting)) (hps : StackIn limits ps) :
    StackIn limits (Config.ofTransition t ps).stack := by
  rw [Config.stack, Config.ofTransition, Control.on_append]
  exact ht.append hps

namespace Store

variable {s : Store σ} {r : Run} {limits : Array Limits} {inst : Instance σ} {id : InstanceId}

theorem stackIn_finish {outcome : Except Error (List Slot)} :
    StackIn limits ((s.finish outcome).control.on (s.finish outcome).waiting) :=
  fun _ hr => absurd hr List.not_mem_nil

theorem stackIn_resume (h : r.IsStackedIn limits) :
    StackIn limits ((s.resume r).control.on (s.resume r).waiting) :=
  StackIn.run h fun _ hr => absurd hr List.not_mem_nil

theorem leave_stacked (h : r.IsStackedIn limits) :
    StackIn limits ((s.leave r).control.on (s.leave r).waiting) := by
  obtain ⟨id, frame, callers⟩ := r
  simp only [leave]
  split
  · exact stackIn_finish
  · cases callers with
    | nil => exact stackIn_finish
    | cons caller callers =>
      refine stackIn_resume fun l hl => ?_
      obtain ⟨-, -, hrest⟩ := h l hl
      exact hrest.of_fixed rfl

/-- **A call stacks a frame**: it counts the slots below it, and its locals fit. -/
theorem callFrom_stacked (hs : s.limits = limits) (h : r.IsStackedIn limits) (func : Nat) :
    StackIn limits ((s.callFrom r func).control.on (s.callFrom r func).waiting) := by
  obtain ⟨id, frame, callers⟩ := r
  cases hinst : s.instances[id]? with
  | none =>
    simp only [callFrom, hinst]
    exact stackIn_finish
  | some inst =>
    cases hfunc : inst.functions[func]? with
    | none =>
      simp only [callFrom, hinst, hfunc]
      exact stackIn_finish
    | some callee =>
      obtain hlt | hcount := Nat.lt_or_ge frame.operands.length callee.type.params.length
      · simp only [callFrom, hinst, hfunc, if_pos hlt]
        exact stackIn_finish
      · cases callee with
        | imported type ref binding =>
          simp only [callFrom, hinst, hfunc, if_neg (Nat.not_lt.2 hcount)]
          refine .on (fun r hr => (callImport_ne_run _ _ _ _ _ _ _ r hr).elim) (.run ?_ ?_)
          · exact fun l hl => (h l hl).of_fixed rfl
          · exact fun r hr => absurd hr List.not_mem_nil
        | code type entry declared =>
          rw [callFrom_code hinst hfunc hcount]
          split
          · next callee hnew =>
            obtain ⟨-, hbelow, -, hfits⟩ := Frame.of_new hnew
            refine stackIn_resume fun l hl => ?_
            have hcaller := (h l hl).of_fixed (g := frame.withOperands
              (frame.operands.drop type.params.length)) rfl
            have hl' : inst.limits = l := by
              rw [← hs, Store.limits, Array.getElem?_map, hinst] at hl
              exact Option.some.inj hl
            exact ⟨hbelow.trans hcaller.slotCount_eq, by rw [hbelow, ← hl']; exact hfits, hcaller⟩
          · exact stackIn_finish

theorem execOutside_stacked (hs : s.limits = limits) (h : r.IsStackedIn limits)
    (instr : Instr BlockJump) :
    StackIn limits ((s.execOutside r instr).control.on (s.execOutside r instr).waiting) := by
  unfold execOutside
  split
  · exact callFrom_stacked hs h _
  · split
    · exact stackIn_finish
    · next rest _ =>
      have hrest := h.of_fixed (f := r.frame.withOperands rest) rfl
      split
      · exact callFrom_stacked hs hrest _
      · exact stackIn_finish
  · split
    · exact stackIn_resume (h.of_fixed rfl)
    · exact stackIn_finish

theorem limits_of_cores {s' : Store σ} (h : s'.cores = s.cores) : s'.limits = s.limits :=
  map_eq_of_cores ⟨fun _ => rfl, fun _ _ _ => rfl⟩ h

/-- **An instruction keeps frames stacked.** -/
theorem dispatch_stacked (hs : s.limits = limits) (h : r.IsStackedIn limits) :
    StackIn limits ((s.dispatch r).control.on (s.dispatch r).waiting) := by
  have hs₁ : (s.spendFuel r.inst).2.limits = limits := (limits_of_cores cores_spendFuel).trans hs
  unfold dispatch
  generalize s.spendFuel r.inst = x at hs₁
  obtain ⟨isPaid, s₁⟩ := x
  cases isPaid with
  | false => exact stackIn_finish
  | true =>
    obtain ⟨id, frame, callers⟩ := r
    simp only
    split
    · exact stackIn_finish
    · split
      · next hexec => exact stackIn_resume (h.of_fixed (Frame.fixed_of_exec hexec))
      · next frame' hexec =>
        exact leave_stacked (r := ⟨id, frame', callers⟩) (h.of_fixed (Frame.fixed_of_exec hexec))
      · next frame' hexec =>
        exact execOutside_stacked (r := ⟨id, frame', callers⟩) hs₁
          (h.of_fixed (Frame.fixed_of_exec hexec)) _
      · exact stackIn_finish

/-! ## Invocations -/

/-- **A function that starts on a stack of its own** is stacked. -/
theorem callFunction_stacked (hs : s.limits = limits) {func depth : Nat} {args : List Slot}
    (hr : (s.callFunction id func args depth).1 = .run r) : r.IsStackedIn limits := by
  unfold callFunction at hr
  cases hinst : s.instances[id]? with
  | none =>
    rw [hinst] at hr
    cases hr
  | some inst =>
    simp only [hinst] at hr
    cases hfunc : inst.functions[func]? with
    | none =>
      rw [hfunc] at hr
      cases hr
    | some callee =>
      cases callee with
      | imported type ref binding =>
        simp only [hfunc] at hr
        exact (callImport_ne_run _ _ _ _ _ _ _ r hr).elim
      | code type entry declared =>
        simp only [hfunc] at hr
        cases hnew : Frame.new inst.limits type entry declared args 0 depth with
        | error e =>
          rw [hnew] at hr
          cases hr
        | ok frame =>
          rw [hnew] at hr
          cases hr
          obtain ⟨-, hbelow, -, hfits⟩ := Frame.of_new hnew
          intro l hl
          rw [← hs, Store.limits, Array.getElem?_map, hinst] at hl
          obtain rfl := Option.some.inj hl
          exact ⟨hbelow, by rw [hbelow]; exact hfits, trivial⟩

theorem invocation_stacked (hs : s.limits = limits) {callee : Callee} {args : List Value}
    {depth : Nat} (hr : (s.invocation id callee args depth).1.1 = .run r) :
    r.IsStackedIn limits := by
  unfold invocation at hr
  split at hr
  · cases hr
  · split at hr
    · cases hr
    · split at hr
      · cases hr
      · exact callFunction_stacked hs hr

theorem serve_stacked (hs : s.limits = limits) (call : HostCall) (program : HostProgram σ) :
    StackIn limits ((s.serve call program).control.on (s.serve call program).waiting) := by
  have hproceed (s : Store σ) (program : HostProgram σ) : StackIn limits
      ((s.proceed call program).control.on (s.proceed call program).waiting) :=
    .cons (fun r h => by cases h) fun r hr => absurd hr List.not_mem_nil
  cases program with
  | done outcome => exact stackIn_finish
  | getState k => exact hproceed _ _
  | setState host k => exact hproceed _ _
  | viewMemory k => exact hproceed _ _
  | updateMemory op k => exact hproceed _ _
  | setFuel other fuel k => exact hproceed _ _
  | call target callee args holds k =>
    simp only [serve]
    split
    · exact hproceed _ _
    · have hs₁ : (s.acquireAll holds).2.limits = limits :=
        (limits_of_cores (cores_acquireAll holds)).trans hs
      split
      · exact stackIn_finish
      · next s₁ heq =>
        rw [heq] at hs₁
        refine .on (fun r hr => invocation_stacked hs₁ hr) ?_
        exact .cons (fun r h => by cases h) <| .cons (fun r h => by cases h)
          fun r hr => absurd hr List.not_mem_nil

theorem deliver_stacked {p : Pending σ} (h : StackIn limits [p])
    (outcome : Except Error (List Slot)) :
    StackIn limits ((s.deliver outcome p).control.on (s.deliver outcome p).waiting) := by
  cases p with
  | run r =>
    cases outcome with
    | error e => exact stackIn_finish
    | ok results =>
      exact stackIn_resume ((h r List.mem_cons_self).of_fixed rfl)
  | invocation id holds => exact stackIn_finish
  | host call results k =>
    by_cases hf : IsFault outcome
    · rw [deliver_host_of_fault hf]
      exact stackIn_finish
    · rw [deliver_host hf]
      exact .cons (fun r h => by cases h) fun r hr => absurd hr List.not_mem_nil

end Store

/-! ## Runs -/

/-- Whether all dispatch loops of a configuration are stacked within the limits of their instances. -/
def Config.IsStacked (c : Config σ) : Prop := StackIn c.store.limits c.stack

theorem Config.limits_step (c : Config σ) : c.step.store.limits = c.store.limits := by
  have hfixed : Instance.IsFixed fun inst : Instance σ => inst.limits :=
    ⟨fun _ => rfl, fun _ _ _ => rfl⟩
  obtain ⟨s, control, ps⟩ := c
  cases control with
  | run r => exact (s.dispatch_turn r).map_eq hfixed
  | host call program => exact (s.serve_service call program).map_eq hfixed
  | done outcome =>
    cases ps with
    | nil => rfl
    | cons p ps =>
      cases p with
      | run r => cases outcome <;> rfl
      | host call results k =>
        by_cases hf : Store.IsFault outcome
        · exact congrArg (fun t => t.store.limits) (Store.deliver_host_of_fault hf s call results k)
        · exact congrArg (fun t => t.store.limits) (Store.deliver_host hf s call results k)
      | invocation id holds =>
        refine (Store.limits_of_cores (Store.cores_releaseAll holds)).trans ?_
        cases outcome with
        | ok slots => rfl
        | error e =>
          simp only
          split
          · exact Store.map_modifyInstance fun _ => rfl
          · rfl

/-- **A step keeps dispatch loops stacked.** -/
theorem Config.IsStacked.step {c : Config σ} (h : c.IsStacked) : c.step.IsStacked := by
  rw [IsStacked, c.limits_step]
  obtain ⟨s, control, ps⟩ := c
  have hps : StackIn s.limits ps := by
    intro r hr
    refine h r ?_
    cases control with
    | run r' => exact List.mem_cons_of_mem _ hr
    | host call program => exact List.mem_cons_of_mem _ hr
    | done outcome => exact hr
  cases control with
  | run r => exact .ofTransition (Store.dispatch_stacked rfl (h r List.mem_cons_self)) hps
  | host call program => exact .ofTransition (Store.serve_stacked rfl call program) hps
  | done outcome =>
    cases ps with
    | nil => exact h
    | cons p ps =>
      have hp : StackIn s.limits [p] := fun r hr => hps r <| by
        obtain rfl := List.mem_singleton.1 hr
        exact List.mem_cons_self
      exact .ofTransition (Store.deliver_stacked hp outcome)
        fun r hr => hps r (List.mem_cons_of_mem _ hr)

theorem Config.IsStacked.run {c : Config σ} (h : c.IsStacked) (n : Nat) :
    (Config.run n c).IsStacked :=
  run_induction (P := IsStacked) (fun _ => step) h n

namespace Store

variable {s : Store σ} {root : Option InstanceId} {c : Config σ} {r : Run} {inst : Instance σ}

theorem limits_of_outline {s' : Store σ} (h : s'.outline = s.outline) : s'.limits = s.limits := by
  have hshapes (s : Store σ) : s.limits = s.shapes.map (·.limits) := by
    rw [limits, shapes, Array.map_map]
    rfl
  rw [hshapes, hshapes]
  exact congrArg (fun o => o.shapes.map (·.limits)) h

/-- **Runs start with dispatch loops stacked.** -/
theorem Starts.isStacked (h : s.Starts root c) : c.IsStacked := by
  cases h with
  | @call id callee args holds hholds =>
    have hlimits : (s.callConfig id callee args holds).store.limits =
        (s.acquireAll holds).2.limits := limits_of_outline (outline_invocation ..)
    rw [Config.IsStacked, hlimits]
    refine .on (fun r hr => invocation_stacked rfl hr) ?_
    exact .cons (fun r h => by cases h) fun r hr => absurd hr List.not_mem_nil
  | standalone f args =>
    exact .cons (fun r h => by cases h) fun r hr => absurd hr List.not_mem_nil
  | @start inst func hinst =>
    have hlimits : (s.startConfig inst func).store.limits =
        { s with instances := s.instances.push inst : Store σ }.limits :=
      limits_of_outline (outline_callFunction ..)
    rw [Config.IsStacked, hlimits]
    exact .on (fun r hr => callFunction_stacked rfl hr) fun r hr => absurd hr List.not_mem_nil

/-- **What the bound on slots bounds.**  In every configuration that a run gets to, the slots of a
dispatch loop, but for the operands of the function that runs, are within the bound of its instance.
A call of a function whose locals do not fit on top of all slots ends in a stack overflow. -/
theorem slots_within (hstart : s.Starts root c) (n : Nat) (hr : .run r ∈ (Config.run n c).stack)
    (hinst : (Config.run n c).store.instances[r.inst]? = some inst) :
    slotsIn (r.frame :: r.callers) ≤ inst.limits.maxValueStack + r.frame.operands.length ∧
    ∀ func type entry declared, inst.functions[func]? = some (.code type entry declared) →
      type.params.length ≤ r.frame.operands.length →
      inst.limits.maxValueStack < slotsIn (r.frame :: r.callers) + declared →
      ((Config.run n c).store.callFrom r func).control = .done stackOverflow := by
  have hstacked : IsStacked inst.limits.maxValueStack (r.frame :: r.callers) :=
    hstart.isStacked.run n r hr inst.limits <| by
      rw [limits, Array.getElem?_map, hinst]
      rfl
  refine ⟨hstacked.slots_le, fun func type entry declared hfunc hcount hover => ?_⟩
  obtain ⟨id, frame, callers⟩ := r
  -- The locals on top of the slots without the arguments are the slots with what is declared.
  have hslots : frame.slotCount = slotsIn (frame :: callers) := hstacked.slotCount_eq
  have hargs : (frame.operands.take type.params.length).reverse.length = type.params.length := by
    rw [List.length_reverse, List.length_take]
    exact Nat.min_eq_left hcount
  simp only at hover hcount
  rw [← hslots, Frame.slotCount] at hover
  have hover' : inst.limits.maxValueStack <
      (frame.withOperands (frame.operands.drop type.params.length)).slotCount +
        (frame.operands.take type.params.length).reverse.length + declared := by
    rw [hargs, Frame.slotCount]
    simp only [Frame.withOperands, List.length_drop]
    omega
  have hnew : Frame.new inst.limits type entry declared
      (frame.operands.take type.params.length).reverse
      (frame.withOperands (frame.operands.drop type.params.length)).slotCount frame.depth =
        stackOverflow := by
    rw [Frame.new, if_pos hover']
    exact ite_self _
  rw [callFrom_code hinst hfunc hcount, hnew]
  rfl

end Store

/-! ## Operands beyond the bound -/

namespace Module

/-- A module that exports a function `f`, which pushes three constants and adds them. -/
def addingBytes : ByteArray :=
  ⟨#[0x00, 0x61, 0x73, 0x6d, 0x01, 0x00, 0x00, 0x00, 0x01, 0x05, 0x01, 0x60, 0x00, 0x01, 0x7f, 0x03,
    0x02, 0x01, 0x00, 0x07, 0x05, 0x01, 0x01, 0x66, 0x00, 0x00, 0x0a, 0x0c, 0x01, 0x0a, 0x00, 0x41,
    0x01, 0x41, 0x02, 0x41, 0x03, 0x6a, 0x6a, 0x0b]⟩

/-- What `addingBytes` compile to. -/
def adding : Module :=
  let type : Signature := { params := [], results := [.i32] }
  { bytes := addingBytes, types := #[type]
    functions := #[{ typeIndex := 0, type, locals := [], body := ⟨31, 40⟩ }]
    exports := [{ name := "f", kind := .func, index := 0 }], sideTable := some [] }

theorem compile_addingBytes : compile addingBytes = .ok adding := by decide +kernel

end Module

namespace Store

/-- A store with one instance of `Module.adding`, which may hold two slots. -/
def narrow : Store Unit where
  instances :=
    #[{ moduleId := 0, module := .adding, sideTable := []
        functions := #[.code { params := [], results := [.i32] } 31 0]
        limits := { maxValueStack := 2 }, fuel := none }]
  host := ()
  moduleCount := 1

/-- In the middle of a call of the store that may hold two slots, its loop holds one. -/
theorem slots_within_narrow :
    ∃ r inst, .run r ∈ (Config.run 1 (narrow.callConfig 0 (.export "f") [] [])).stack ∧
      (Config.run 1 (narrow.callConfig 0 (.export "f") [] [])).store.instances[r.inst]? = some inst ∧
      slotsIn (r.frame :: r.callers) = 1 ∧
      slotsIn (r.frame :: r.callers) ≤ inst.limits.maxValueStack + r.frame.operands.length := by
  obtain ⟨r, inst, hr, hinst, hslots⟩ : ∃ r inst,
      .run r ∈ (Config.run 1 (narrow.callConfig 0 (.export "f") [] [])).stack ∧
        (Config.run 1 (narrow.callConfig 0 (.export "f") [] [])).store.instances[r.inst]? =
          some inst ∧ slotsIn (r.frame :: r.callers) = 1 :=
    ⟨{ inst := 0, frame := { pc := 33, locals := #[], operands := [1], resultCount := 1
                             below := 0, depth := 1 } }, narrow.instances[0],
      by cbv; exact .head _, by cbv, rfl⟩
  exact ⟨r, inst, hr, hinst, hslots, (slots_within (.call rfl) 1 hr hinst).1⟩

/-- **A dispatch loop may hold more slots than the bound says**: operands are pushed unchecked, and
the call returns. -/
theorem slots_beyond :
    (∃ limits : Limits, limits.maxValueStack = 2 ∧
      ({ host := (), moduleCount := 1 } : Store Unit).instantiate ⟨0, .adding⟩ {} limits 0 =
        some (.ok 0, narrow)) ∧
    Module.compile Module.addingBytes = .ok .adding ∧
    (∃ r, (Config.run 3 (narrow.callConfig 0 (.export "f") [] [])).control = .run r ∧
      slotsIn (r.frame :: r.callers) = 3) ∧
    ∃ t, narrow.invoke 0 "f" [] 8 = some (.ok [.i32 6], t) := by
  refine ⟨⟨{ maxValueStack := 2 }, rfl, by cbv⟩, Module.compile_addingBytes, ?_, ⟨_, by cbv⟩⟩
  exact ⟨{ inst := 0, frame := { pc := 37, locals := #[], operands := [3, 2, 1], resultCount := 1
                                 below := 0, depth := 1 } }, by cbv, rfl⟩

end Store

end WasmEngine
