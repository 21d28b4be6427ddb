import WasmEngine.Proofs.Nesting.Depth
import WasmEngine.Proofs.Nesting.Poison

/-!
# Proofs/Nesting/Budgets — depth budgets are kept, and given back

What calls a function knows how many frames and host functions of its instance are live, so that a
call begins exactly if the budget leaves room (`Config.Calls`, `Control.Begins`), and a host function
learns that number of frames (`Config.StartsHost`).  When a run ends, all counters are zero again:
`Store.AtRest` holds over whole sessions.  `Store.depth_budgets` puts the laws together.
-/

namespace WasmEngine

variable {σ : Type} {root : Option InstanceId} {s s' t : Store σ} {ps : List (Pending σ)}
  {id : InstanceId} {c : Config σ}

/-! ## Calls and their budgets -/

/-- The step of a configuration calls a function of an instance: a call instruction with enough fuel,
or the request of a host function that borrows what it holds and finds its callee. -/
inductive Config.Calls : Config σ → InstanceId → Nat → Prop where
  | call {s : Store σ} {r : Run} {ps : List (Pending σ)} {func pc : Nat}
      (hfuel : (s.spendFuel r.inst).1 = true)
      (hfetch : s.fetch? r.inst r.frame.pc = some (.call func, pc)) :
      Calls ⟨s, .run r, ps⟩ r.inst func
  | callIndirect {s : Store σ} {r : Run} {ps : List (Pending σ)} {type table pc func : Nat}
      {slot : Slot} {rest : List Slot} (hfuel : (s.spendFuel r.inst).1 = true)
      (hfetch : s.fetch? r.inst r.frame.pc = some (.callIndirect type table, pc))
      (hoperands : r.frame.operands = slot :: rest)
      (hentry : s.tableEntry r.inst type slot.toUInt32.toNat = .ok func) :
      Calls ⟨s, .run r, ps⟩ r.inst func
  | invoke {s s₁ : Store σ} {call : HostCall} {target : Target} {callee : Callee}
      {args : List Value} {holds : List Hold} {k : Except Error (List Value) → HostProgram σ}
      {ps : List (Pending σ)} {id : InstanceId} {depth func : Nat} {inst : Instance σ}
      {results : List ValType} (htarget : Store.callTarget call target = .ok (id, depth))
      (hholds : s.acquireAll holds = (.ok (), s₁)) (hinst : s.instances[id]? = some inst)
      (hlookup : Store.lookupCallee inst callee args = .ok (func, results))
      (hp : inst.isPoisoned = false) :
      Calls ⟨s, .host call (.call target callee args holds k), ps⟩ id func

/-- What a call of a function comes to, when a number of frames and of host functions of its instance
are live: a stack overflow if its budget leaves no room.  Otherwise a host function starts, and learns
how many frames are live, and so does a wasm function, unless its locals are too many. -/
structure Control.Begins (inst : Instance σ) (id : InstanceId) (func frames hosts : Nat)
    (control : Control σ) : Prop where
  code : ∀ type entry declared, inst.functions[func]? = some (.code type entry declared) →
    (inst.limits.maxCallDepth ≤ frames → control = .done stackOverflow) ∧
      (frames < inst.limits.maxCallDepth → control = .done stackOverflow ∨
        ∃ r, control = .run r ∧ r.inst = id ∧ r.frame.pc = entry ∧ r.frame.depth = frames + 1)
  host : ∀ type ref f, inst.functions[func]? = some (.imported type ref (.func f)) →
    (inst.limits.maxHostDepth ≤ hosts → control = .done stackOverflow) ∧
      (hosts < inst.limits.maxHostDepth → ∃ call args,
        control = .host call (f.body { depth := frames } args) ∧ call.instance? = some id ∧
          call.depth = frames)

/-- A memory hook has no budget. -/
theorem Control.Begins.of_hook {inst : Instance σ} {func frames hosts : Nat} {control : Control σ}
    (hfunc : ∀ callee, inst.functions[func]? = some callee →
      ∃ type ref h, callee = .imported type ref (.hook h)) :
    control.Begins inst id func frames hosts := by
  refine ⟨fun _ _ _ hcode => ?_, fun _ _ _ hhost => ?_⟩
  · obtain ⟨_, _, _, hhook⟩ := hfunc _ hcode
    cases hhook
  · obtain ⟨_, _, _, hhook⟩ := hfunc _ hhost
    cases hhook

/-- A wasm function begins with its frame. -/
theorem Control.Begins.of_code {inst : Instance σ} {func frames hosts : Nat} {type : Signature}
    {entry declared : Nat} {control : Control σ}
    (hfunc : inst.functions[func]? = some (.code type entry declared)) (args : List Slot)
    (below : Nat)
    (herror : Frame.new inst.limits type entry declared args below frames = stackOverflow →
      control = .done stackOverflow)
    (hok : ∀ frame, Frame.new inst.limits type entry declared args below frames = .ok frame →
      ∃ callers, control = .run ⟨id, frame, callers⟩) :
    control.Begins inst id func frames hosts := by
  refine ⟨fun _ _ _ hcode => ?_, fun _ _ _ hhost => ?_⟩
  · cases hfunc.symm.trans hcode
    unfold Frame.new at herror hok
    by_cases hdepth : inst.limits.maxCallDepth ≤ frames
    · rw [if_pos hdepth] at herror
      exact ⟨fun _ => herror rfl, fun hroom => absurd hdepth (Nat.not_le.2 hroom)⟩
    · rw [if_neg hdepth] at herror hok
      refine ⟨fun hfull => absurd hfull hdepth, fun _ => ?_⟩
      split at herror
      · exact .inl (herror rfl)
      · next hsize =>
        rw [if_neg hsize] at hok
        obtain ⟨callers, hcontrol⟩ := hok _ rfl
        exact .inr ⟨_, hcontrol, rfl, rfl, rfl⟩
  · cases hfunc.symm.trans hhost

namespace Store

theorem callImport_begins {inst : Instance σ} {func : Nat} {type : Signature} {ref : ImportName}
    {binding : ImportBinding σ} (hinst : s.instances[id]? = some inst)
    (hbound : inst.functions[func]? = some (.imported type ref binding)) (args : List Slot)
    (depth : Nat) :
    Control.Begins inst id func depth inst.hostDepth
      (s.callImport id type ref binding args depth).1 := by
  cases binding with
  | hook h => exact .of_hook fun callee hcallee => ⟨type, ref, h,
      (Option.some.inj (hbound.symm.trans hcallee)).symm⟩
  | func f =>
    refine ⟨fun _ _ _ hcode => ?_, fun type' ref' f' hhost => ?_⟩
    · cases hbound.symm.trans hcode
    · cases hbound.symm.trans hhost
      simp only [callImport, withInstance_eq, hinst]
      refine ⟨fun hfull => ?_, fun hroom => ?_⟩
      · rw [if_pos hfull]
      · rw [if_neg (Nat.not_le.2 hroom)]
        exact ⟨_, _, rfl, rfl, rfl⟩

theorem callFunction_begins {inst : Instance σ} (hinst : s.instances[id]? = some inst)
    (func : Nat) (args : List Slot) (depth : Nat) :
    Control.Begins inst id func depth inst.hostDepth (s.callFunction id func args depth).1 := by
  simp only [callFunction, hinst]
  cases hfunc : inst.functions[func]? with
  | none =>
    exact .of_hook fun callee hcallee => by cases hfunc.symm.trans hcallee
  | some callee =>
    cases callee with
    | imported type ref binding => exact callImport_begins hinst hfunc args depth
    | code type entry declared =>
      refine .of_code hfunc args 0 (fun hnew => ?_) fun frame hnew => ?_
      · simp only [hnew]
        rfl
      · simp only [hnew]
        exact ⟨[], rfl⟩

theorem callFrom_begins {inst : Instance σ} {r : Run} {func : Nat}
    (hinst : s.instances[r.inst]? = some inst)
    (hf : ¬(Config.ofTransition (s.callFrom r func) ps).IsFaulty) :
    Control.Begins inst r.inst func r.frame.depth inst.hostDepth (s.callFrom r func).control := by
  obtain ⟨id, frame, callers⟩ := r
  simp only [callFrom, hinst] at hf ⊢
  cases hfunc : inst.functions[func]? with
  | none =>
    simp only [hfunc] at hf
    exact absurd ⟨_, rfl⟩ hf
  | some callee =>
    simp only [hfunc] at hf ⊢
    by_cases hoperands : frame.operands.length < callee.type.params.length
    · rw [if_pos hoperands] at hf
      exact absurd ⟨_, rfl⟩ hf
    · rw [if_neg hoperands]
      cases callee with
      | imported type ref binding => exact callImport_begins hinst hfunc ..
      | code type entry declared =>
        simp only [Callable.type]
        generalize hrest : frame.withOperands (frame.operands.drop type.params.length) = rest
        have hd : rest.depth = frame.depth := by rw [← hrest]; rfl
        rw [← hd]
        refine .of_code hfunc (frame.operands.take type.params.length).reverse rest.slotCount
          (fun hnew => ?_) fun callee hnew => ?_
        · simp only [hnew]
          rfl
        · simp only [hnew]
          exact ⟨_, rfl⟩

theorem fetch?_of_cores (hs : s'.cores = s.cores) (id : InstanceId) (pc : Nat) :
    s'.fetch? id pc = s.fetch? id pc := by
  have hfetch (s : Store σ) : s.fetch? id pc =
      s.cores[id]?.bind fun inst => Instr.fetch inst.module.bytes inst.sideTable pc := by
    rw [fetch?, getElem?_cores]
    cases s.instances[id]? <;> rfl
  rw [hfetch, hfetch, hs]

theorem tableEntry_of_cores (hs : s'.cores = s.cores) (id : InstanceId) (type slot : Nat) :
    s'.tableEntry id type slot = s.tableEntry id type slot := by
  cases hinst' : s'.instances[id]? with
  | none =>
    have hcore := congrArg (·[id]?) hs
    simp only [getElem?_cores, hinst', Option.map_none] at hcore
    rw [tableEntry, tableEntry, hinst', Option.map_eq_none_iff.1 hcore.symm]
  | some inst' =>
    obtain ⟨inst, hinst, hcore⟩ := exists_of_cores hs hinst'
    have htable : inst.table = inst'.table := (congrArg Instance.table hcore :)
    have hfunctions : inst.functions = inst'.functions := (congrArg Instance.functions hcore :)
    have hmodule : inst.module = inst'.module := (congrArg Instance.module hcore :)
    simp only [tableEntry, hinst, hinst', htable, hfunctions, hmodule]

theorem lookupCallee_of_core {inst inst' : Instance σ} (h : inst.core = inst'.core)
    (callee : Callee) (args : List Value) :
    lookupCallee inst callee args = lookupCallee inst' callee args := by
  have hcore (inst : Instance σ) :
      lookupCallee inst.core callee args = lookupCallee inst callee args := by
    cases callee <;> rfl
  rw [← hcore, h, hcore]

end Store

/-- Functions and limits belong to the core of an instance. -/
theorem Control.Begins.of_core {inst inst' : Instance σ} {func frames hosts : Nat}
    {control : Control σ} (h : control.Begins inst id func frames hosts)
    (hcore : inst.core = inst'.core) : control.Begins inst' id func frames hosts := by
  have hfunctions : inst'.functions = inst.functions := (congrArg Instance.functions hcore).symm
  have hlimits : inst'.limits = inst.limits := (congrArg Instance.limits hcore).symm
  refine ⟨?_, ?_⟩
  · rw [hfunctions, hlimits]
    exact h.code
  · rw [hfunctions, hlimits]
    exact h.host

namespace Config

/-- An instruction that calls a function has spent its fuel, and knows how many frames are live. -/
theorem IsBalanced.begins_of_dispatch {r : Run} {inst : Instance σ} {func : Nat}
    (h : IsBalanced root ⟨s, .run r, ps⟩) (hinst : s.instances[r.inst]? = some inst)
    (hf : ¬(ofTransition (s.dispatch r) ps).IsFaulty) (frame : Frame)
    (hdepth : frame.depth = r.frame.depth)
    (hdispatch : s.dispatch r = (s.spendFuel r.inst).2.callFrom { r with frame } func) :
    (s.dispatch r).control.Begins inst r.inst func (liveFrames ⟨s, .run r, ps⟩ r.inst)
      (liveHosts ⟨s, .run r, ps⟩ r.inst) := by
  have hs : (s.spendFuel r.inst).2.cores = s.cores := Store.cores_spendFuel
  obtain ⟨inst', hinst', hcore⟩ := Store.exists_of_cores hs.symm hinst
  have hframes : liveFrames ⟨s, .run r, ps⟩ r.inst = frame.depth := by
    have htop : r.frame.depth = framesIn r.inst ps + r.callers.length + 1 := h.isCounted.1.1
    change framesIn r.inst (.run r :: ps) = _
    simp only [hdepth, htop, framesIn, if_true]
    omega
  have hhosts : liveHosts ⟨s, .run r, ps⟩ r.inst = inst'.hostDepth :=
    (h.counts r.inst inst hinst).hostDepth.symm.trans (congrArg Instance.hostDepth hcore).symm
  rw [hdispatch] at hf ⊢
  rw [hframes, hhosts]
  exact Control.Begins.of_core (Store.callFrom_begins (r := { r with frame }) hinst' hf) hcore

/-- **A call begins exactly if its budget leaves room.** -/
theorem IsBalanced.begins {func : Nat} {inst : Instance σ} (h : c.IsBalanced root)
    (hcall : c.Calls id func) (hinst : c.store.instances[id]? = some inst)
    (hf : ¬c.step.IsFaulty) :
    c.step.control.Begins inst id func (c.liveFrames id) (c.liveHosts id) := by
  cases hcall with
  | @call s r ps func pc hfuel hfetch =>
    refine h.begins_of_dispatch hinst hf { r.frame with pc } rfl ?_
    have hs : (s.spendFuel r.inst).2.cores = s.cores := Store.cores_spendFuel
    have hspend : s.spendFuel r.inst = (true, (s.spendFuel r.inst).2) := Prod.ext hfuel rfl
    generalize (s.spendFuel r.inst).2 = s' at hs hspend
    have hfetch' := (Store.fetch?_of_cores hs r.inst r.frame.pc).trans hfetch
    simp only [Store.dispatch, hspend, hfetch', Frame.exec, Store.execOutside]
  | @callIndirect s r ps type table pc func slot rest hfuel hfetch hoperands hentry =>
    refine h.begins_of_dispatch hinst hf ({ r.frame with pc }.withOperands rest) rfl ?_
    have hs : (s.spendFuel r.inst).2.cores = s.cores := Store.cores_spendFuel
    have hspend : s.spendFuel r.inst = (true, (s.spendFuel r.inst).2) := Prod.ext hfuel rfl
    generalize (s.spendFuel r.inst).2 = s' at hs hspend
    have hfetch' := (Store.fetch?_of_cores hs r.inst r.frame.pc).trans hfetch
    have hentry' := (Store.tableEntry_of_cores hs r.inst type slot.toUInt32.toNat).trans hentry
    simp only [Store.dispatch, hspend, hfetch', Frame.exec, Store.execOutside, hoperands, hentry']
  | @invoke s s₁ call target callee args holds k ps id depth func inst₀ results htarget hholds hinst₀
      hlookup hp =>
    obtain rfl := Option.some.inj (hinst.symm.trans hinst₀)
    have hs : s₁.cores = s.cores := by
      have hcores : (s.acquireAll holds).2.cores = s.cores := Store.cores_acquireAll holds
      rwa [hholds] at hcores
    obtain ⟨inst₁, hinst₁, hcore⟩ := Store.exists_of_cores hs.symm hinst
    have hlookup₁ : Store.lookupCallee inst₁ callee args = .ok (func, results) :=
      (Store.lookupCallee_of_core hcore callee args).trans hlookup
    have hp₁ : inst₁.isPoisoned = false := (congrArg Instance.isPoisoned hcore).trans hp
    have hcount : inst₁.hostDepth = inst.hostDepth := (congrArg Instance.hostDepth hcore :)
    have hframes := h.depth_of_target htarget hs hinst₁
    have hbegins := Store.callFunction_begins hinst₁ func (args.map Value.toSlot)
      (max depth inst₁.reentryDepth)
    have hhosts : inst.hostDepth = hostsIn id
        (.host call [] (fun _ => .call target callee args holds k) :: ps) :=
      (h.counts id inst hinst).hostDepth
    rw [hframes, hcount, hhosts] at hbegins
    have hstep : (Config.step ⟨s, .host call (.call target callee args holds k), ps⟩).control =
        (s₁.callFunction id func (args.map Value.toSlot) (framesIn id ps)).1 := by
      simp only [Config.step, Store.serve, htarget, hholds, Store.invocation, hinst₁, hlookup₁, hp₁]
      rw [← hframes]
      rfl
    rw [hstep]
    exact hbegins.of_core hcore

end Config

/-! ## What a host function learns -/

/-- A host function that is bound in an instance starts, and learns how many frames are live. -/
def Config.StartsHost (c : Config σ) (id : InstanceId) : Prop :=
  ∃ (inst : Instance σ) (func : Nat) (type : Signature) (ref : ImportName) (f : HostFunc σ)
      (args : List Value) (call : HostCall), c.store.instances[id]? = some inst ∧
    inst.functions[func]? = some (.imported type ref (.func f)) ∧
    c.control = .host call (f.body { depth := c.liveFrames id } args) ∧
    call.instance? = some id ∧ call.depth = c.liveFrames id

/-- What begins above all frames of its instance tells them to the host function that it starts. -/
theorem Store.Entry.startsHost {other : InstanceId} {depth : Nat} {control : Control σ}
    (h : s.Entry id depth (control, s')) (hdepth : depth = framesIn id ps)
    (hmore : hostsIn other ps < hostsIn other (control.on ps)) :
    Config.StartsHost ⟨s', control, ps⟩ other := by
  cases h with
  | failed hs => exact absurd hmore (Nat.lt_irrefl _)
  | answered hs hp => exact absurd hmore (Nat.lt_irrefl _)
  | code hinst hroom hd => exact absurd hmore (Nat.lt_irrefl _)
  | @host inst func type ref f args hinst hbound hroom =>
    obtain rfl : id = other := by
      by_contra hne
      have hcaller : (hostCall id inst ref depth type.results).instance? ≠ some other :=
        fun heq => hne (Option.some.inj heq)
      rw [Control.on, hostsIn, if_neg hcaller, Nat.zero_add] at hmore
      exact Nat.lt_irrefl _ hmore
    have hframes : Config.liveFrames ⟨s.countHost id depth,
        .host (hostCall id inst ref depth type.results) (f.body { depth } args), ps⟩ id = depth :=
      hdepth.symm
    refine ⟨{ inst with hostDepth := inst.hostDepth + 1, reentryDepth := depth }, func, type, ref, f,
      args, hostCall id inst ref depth type.results, ?_, hbound, ?_, rfl, hframes.symm⟩
    · rw [countHost, getElem?_modifyInstance, if_pos rfl, hinst]
      rfl
    · rw [hframes]

/-- **A host function learns how many frames are live when it starts.** -/
theorem Config.IsBalanced.startsHost (h : c.IsBalanced root)
    (hmore : c.liveHosts id < c.step.liveHosts id) : c.step.StartsHost id := by
  obtain ⟨s, control, ps⟩ := c
  cases control with
  | run r =>
    have ht := s.dispatch_turn r
    obtain ⟨-, ⟨hframes, hc⟩, -⟩ := h
    change hostsIn id ps < (ofTransition (s.dispatch r) ps).liveHosts id at hmore
    change (ofTransition (s.dispatch r) ps).StartsHost id
    generalize s.dispatch r = t at ht hmore
    cases ht with
    | fail hs => exact absurd hmore (Nat.lt_irrefl _)
    | finish hs hr => exact absurd hmore (Nat.lt_irrefl _)
    | stay hs hd => exact absurd hmore (Nat.lt_irrefl _)
    | enter hs hinst hroom hd hcallee => exact absurd hmore (Nat.lt_irrefl _)
    | leave hs hr hd => exact absurd hmore (Nat.lt_irrefl _)
    | @«import» inst func type ref binding frame s₁ s' control hs hinst himport hd he hcontrol =>
      have hdepth : r.frame.depth = framesIn r.inst (.run { r with frame } :: ps) := by
        have htop : r.frame.depth = framesIn r.inst ps + r.callers.length + 1 := hframes.1
        simp only [htop, framesIn, if_true]
        omega
      exact he.startsHost hdepth hmore
  | host call program =>
    have ht := s.serve_service call program
    change hostsIn id (.host call [] (fun _ => program) :: ps) <
      (ofTransition (s.serve call program) ps).liveHosts id at hmore
    change (ofTransition (s.serve call program) ps).StartsHost id
    generalize s.serve call program = t at ht hmore
    cases ht with
    | conflict hs => exact absurd hmore (Nat.not_lt.2 (Nat.le_add_left ..))
    | finish hp => exact absurd hmore (Nat.not_lt.2 (Nat.le_add_left ..))
    | proceed hs => exact absurd hmore (Nat.lt_irrefl _)
    | refused hs => exact absurd hmore (Nat.lt_irrefl _)
    | @invoke target other depth holds results k inst s₁ s' control hs htarget hinst hp he =>
      have hdepth : max depth inst.reentryDepth =
          framesIn other (.invocation other holds :: .host call results k :: ps) :=
        h.depth_of_target htarget hs hinst
      exact he.startsHost hdepth hmore
  | done outcome =>
    cases ps with
    | nil => exact absurd hmore (Nat.lt_irrefl _)
    | cons p ps =>
      refine absurd hmore (Nat.not_lt.2 ?_)
      cases p with
      | run r => cases outcome <;> exact Nat.le_refl _
      | invocation other holds => exact Nat.le_refl _
      | host call results k =>
        by_cases hf : Store.IsFault outcome
        · simp only [Config.step, Store.deliver_host_of_fault hf]
          exact Nat.le_add_left ..
        · simp only [Config.step, Store.deliver_host hf]
          exact Nat.le_refl _

/-! ## Stores at rest -/

/-- The counters of all instances. -/
def Store.counters (s : Store σ) : Array (Nat × Nat) :=
  s.instances.map fun inst => (inst.hostDepth, inst.reentryDepth)

/-- No host function of any instance is running. -/
def Store.AtRest (s : Store σ) : Prop :=
  ∀ (id : InstanceId) (inst : Instance σ), s.instances[id]? = some inst →
    inst.hostDepth = 0 ∧ inst.reentryDepth = 0

namespace Store

theorem AtRest.counts (h : s.AtRest) : s.Counts [] := fun id inst hinst =>
  ⟨(h id inst hinst).1, (h id inst hinst).2, Nat.zero_le _, Nat.zero_le _⟩

theorem Counts.atRest (h : s.Counts []) : s.AtRest := fun id inst hinst =>
  ⟨(h id inst hinst).hostDepth, (h id inst hinst).reentryDepth⟩

theorem AtRest.of_cores (h : s.AtRest) (hs : s'.cores = s.cores) : s'.AtRest :=
  (h.counts.of_same hs).atRest

theorem AtRest.push {inst : Instance σ} (h : s.AtRest) (hinst : inst.IsFresh) :
    ({ s with instances := s.instances.push inst } : Store σ).AtRest := by
  intro id inst' hinst'
  obtain ⟨-, rfl⟩ | hinst' := of_getElem?_push hinst'
  · exact ⟨hinst.hostDepth, hinst.reentryDepth⟩
  · exact h id inst' hinst'

theorem AtRest.pop (h : s.AtRest) :
    ({ s with instances := s.instances.pop } : Store σ).AtRest :=
  fun id inst hinst => h id inst (of_getElem?_pop hinst)

/-- The counters are what is on the stack. -/
theorem Counts.counters_eq {ps' : List (Pending σ)} (h : s.Counts ps) (h' : s'.Counts ps')
    (hsize : s'.instances.size = s.instances.size)
    (hhosts : ∀ id, hostsIn id ps' = hostsIn id ps)
    (hreentry : ∀ id, reentryIn id ps' = reentryIn id ps) : s'.counters = s.counters := by
  refine Array.ext_getElem? fun id => ?_
  rw [counters, counters, Array.getElem?_map, Array.getElem?_map]
  by_cases hid : id < s.instances.size
  · have hid' : id < s'.instances.size := hsize ▸ hid
    have hinst := h id _ (Array.getElem?_eq_getElem hid)
    have hinst' := h' id _ (Array.getElem?_eq_getElem hid')
    rw [Array.getElem?_eq_getElem hid, Array.getElem?_eq_getElem hid', Option.map_some,
      Option.map_some, hinst.hostDepth, hinst.reentryDepth, hinst'.hostDepth,
      hinst'.reentryDepth, hhosts, hreentry]
  · rw [Array.getElem?_eq_none (Nat.not_lt.1 hid),
      Array.getElem?_eq_none (hsize ▸ Nat.not_lt.1 hid)]

/-- **Runs start balanced**, with host functions that learn of no frame. -/
theorem Starts.isBalanced (h : s.Starts root c) (hs : s.AtRest) :
    c.IsBalanced root ∧ ∀ id, 0 < c.liveHosts id → c.StartsHost id := by
  have hnested := h.isNested
  cases h with
  | @call id callee args holds hholds =>
    obtain ⟨e, s', -, hcores, heq⟩ | ⟨s₁, inst, control, s', hcores, hinst, -, he, heq⟩ :=
      callConfig_cases s id callee args holds
    · rw [heq] at hnested ⊢
      have hcounts := (hs.of_cores hcores).counts
      exact ⟨⟨hnested, trivial, hcounts.of_cores rfl (fun _ => rfl) (fun _ => rfl)
        fun _ => Nat.le_refl _⟩, fun _ hmore => absurd hmore (Nat.lt_irrefl _)⟩
    · rw [heq] at hnested ⊢
      have hcounts : s₁.Counts [.invocation id holds] :=
        (hs.of_cores hcores).counts.of_cores rfl (fun _ => rfl) (fun _ => rfl)
          fun _ => Nat.le_refl _
      have hdepth : inst.reentryDepth = framesIn (σ := σ) id [.invocation id holds] :=
        (hs.of_cores hcores id inst hinst).2
      obtain ⟨hcounted, hcounts'⟩ := he.isCounted hdepth trivial hcounts
      exact ⟨⟨hnested, hcounted, hcounts'⟩, fun _ hmore => he.startsHost hdepth hmore⟩
  | standalone f args =>
    refine ⟨⟨hnested, ⟨fun c hc => ?_, trivial⟩, hs.counts.of_cores rfl (fun _ => rfl)
      (fun _ => rfl) fun _ => Nat.le_refl _⟩, fun _ hmore => absurd hmore (Nat.lt_irrefl _)⟩
    cases hc
  | @start inst func hinst =>
    have he := callFunction_entry { s with instances := s.instances.push inst } s.instances.size
      func [] 0
    have hcounts := (hs.push hinst).counts
    have hdepth : 0 = framesIn (σ := σ) s.instances.size [] := rfl
    obtain ⟨hcounted, hcounts'⟩ := he.isCounted hdepth trivial hcounts
    exact ⟨⟨hnested, hcounted, hcounts'⟩, fun _ hmore => he.startsHost rfl hmore⟩

/-- **A run that ends leaves its store at rest.** -/
theorem Starts.atRest {n : Nat} (h : s.Starts root c) (hs : s.AtRest)
    (hf : ¬(Config.run n c).IsFaulty) (hend : (Config.run n c).outcome?.isSome) :
    (Config.run n c).store.AtRest := by
  have hcounts := ((h.isBalanced hs).1.run hf).counts
  obtain ⟨outcome, hout⟩ := Option.isSome_iff_exists.1 hend
  generalize Config.run n c = c' at hout hcounts
  obtain ⟨s', control, pending⟩ := c'
  unfold Config.outcome? at hout
  split at hout
  · next hcontrol hpending =>
    cases hcontrol
    cases hpending
    exact Counts.atRest hcounts
  · cases hout

/-- No run of some leaves the data of the engine. -/
def AreFaultless (runs : List (Config σ × Nat)) : Prop :=
  ∀ c n, (c, n) ∈ runs → ¬(Config.run n c).IsFaulty

theorem Effect.atRest {runs : List (Config σ × Nat)} (h : s.Effect runs t) (hs : s.AtRest)
    (hf : AreFaultless runs) : t.AtRest := by
  cases h with
  | quiet hcores => exact hs.of_cores hcores
  | create hinst => exact hs.push hinst
  | run hstart hend => exact hstart.atRest hs (hf _ _ List.mem_cons_self) hend
  | @undo inst func n hinst c hc hend =>
    subst hc
    have hstart : s.Starts (some s.instances.size) (s.startConfig inst func) := .start hinst
    exact (hstart.atRest hs (hf _ _ List.mem_cons_self) hend).pop

/-- **Between operations no host function is running**, whatever the operations came to. -/
theorem Session.atRest {runs : List (Config σ × Nat)} (h : s.Session runs t) (hs : s.AtRest)
    (hf : AreFaultless runs) : t.AtRest := by
  induction h with
  | nil => exact hs
  | step h hop ih =>
    refine hop.effect.atRest (ih fun c n hmem => ?_) fun c n hmem => ?_
    · exact hf c n (List.mem_append_left _ hmem)
    · exact hf c n (List.mem_append_right _ hmem)

end Store

/-! ## The laws of the depth budgets -/

/-- The laws of the depth budgets in the run from a configuration. -/
structure Config.KeepsBudgets (c : Config σ) : Prop where
  /-- The frames and host functions that are live are no more than the limits allow, and the counter
  of host functions counts them. -/
  bounds : ∀ n id inst, ¬(run n c).IsFaulty → (run n c).store.instances[id]? = some inst →
    (run n c).liveFrames id ≤ inst.limits.maxCallDepth ∧
      (run n c).liveHosts id ≤ inst.limits.maxHostDepth ∧
      inst.hostDepth = (run n c).liveHosts id
  /-- The depth of a host function is the number of frames of its caller. -/
  depth : ∀ n call program caller, (run n c).control = .host call program →
    call.caller = some caller → call.depth = (run n c).liveFrames caller.inst
  /-- Every host function is told that number when it starts. -/
  learns : (∀ id, 0 < c.liveHosts id → c.StartsHost id) ∧
    ∀ n id, ¬(run n c).IsFaulty → (run n c).liveHosts id < (run (n + 1) c).liveHosts id →
      (run (n + 1) c).StartsHost id
  /-- A call that its budget has no room for is a stack overflow at once, and any other begins. -/
  begins : ∀ n id func inst, (run n c).Calls id func →
    (run n c).store.instances[id]? = some inst → ¬(run (n + 1) c).IsFaulty →
    (run (n + 1) c).control.Begins inst id func ((run n c).liveFrames id) ((run n c).liveHosts id)
  /-- An invocation that a host function asked for ends with the counters that it began with. -/
  nested : ∀ m n call program id holds results k outcome,
    (run m c).control = .host call program → (run n c).control = .done outcome →
    (run n c).pending = .invocation id holds :: .host call results k :: (run m c).pending →
    ¬(run n c).IsFaulty →
    (run n c).store.counters = (run m c).store.counters ∧
      (run (n + 1) c).store.counters = (run m c).store.counters
  /-- The outermost call ends with all counters zero. -/
  ends : ∀ n outcome, (run n c).control = .done outcome → ¬(run n c).IsFaulty →
    ((run n c).pending = [] ∨ ∃ id holds, (run n c).pending = [.invocation id holds]) →
    (run n c).store.AtRest ∧ (run (n + 1) c).store.AtRest

namespace Config

/-- A run does not get back into the data of the engine. -/
theorem not_isFaulty_of_le {m n : Nat} (hf : ¬(run n c).IsFaulty) (hmn : m ≤ n) :
    ¬(run m c).IsFaulty := by
  intro h
  obtain ⟨k, rfl⟩ := Nat.exists_eq_add_of_le hmn
  rw [run_add] at hf
  exact hf (run_induction (P := IsFaulty) (fun _ => IsFaulty.step) h k)

/-- An outcome that is no fault is none after the invocation that it ends. -/
theorem not_isFaulty_of_ends {outcome : Except Error (List Slot)} {holds : List Hold}
    (hcontrol : c.control = .done outcome) (hpending : c.pending = .invocation id holds :: ps)
    (hf : ¬c.IsFaulty) : ¬c.step.IsFaulty ∧ c.step.stack = ps := by
  obtain ⟨s, control, pending⟩ := c
  cases hcontrol
  cases hpending
  exact ⟨hf, rfl⟩

/-- **The laws of the depth budgets** hold in a run that starts balanced. -/
theorem IsBalanced.keepsBudgets (h : c.IsBalanced root)
    (hstart : ∀ id, 0 < c.liveHosts id → c.StartsHost id) : c.KeepsBudgets where
  bounds n id inst hf hinst := by
    have hcounts := (h.run hf).counts id inst hinst
    exact ⟨hcounts.frames, hcounts.hosts, hcounts.hostDepth⟩
  depth n call program caller hcontrol hcaller := by
    have hf : ¬(Config.run n c).IsFaulty := fun ⟨f, hfault⟩ => by cases hcontrol.symm.trans hfault
    have hcounted := (h.run hf).isCounted
    rw [liveFrames]
    rw [stack, hcontrol] at hcounted ⊢
    exact (hcounted.1 caller hcaller).1
  learns := by
    refine ⟨hstart, fun n id hf hmore => ?_⟩
    rw [run_succ] at hmore ⊢
    exact (h.run hf).startsHost hmore
  begins n id func inst hcall hinst hf := by
    have hf' := not_isFaulty_of_le hf (Nat.le_succ n)
    rw [run_succ] at hf ⊢
    exact (h.run hf').begins hcall hinst hf
  nested m n call program id holds results k outcome hcall hcontrol hpending hf := by
    have hm : ¬(Config.run m c).IsFaulty := fun ⟨f, hfault⟩ => by cases hcall.symm.trans hfault
    obtain ⟨hf', hstack'⟩ := not_isFaulty_of_ends hcontrol hpending hf
    rw [← run_succ] at hf' hstack'
    have hbegin : (Config.run m c).stack =
        .host call [] (fun _ => program) :: (Config.run m c).pending := by
      rw [stack, hcall, Control.on]
    have hend : (Config.run n c).stack =
        .invocation id holds :: .host call results k :: (Config.run m c).pending := by
      rw [stack, hcontrol, Control.on, hpending]
    have hsize (i j : Nat) : (Config.run i c).store.instances.size =
        (Config.run j c).store.instances.size := by rw [size_run, size_run]
    refine ⟨?_, ?_⟩
    · exact (h.run hm).counts.counters_eq (h.run hf).counts (hsize n m)
        (fun id => by rw [hbegin, hend]; rfl) fun id => by rw [hbegin, hend]; rfl
    · exact (h.run hm).counts.counters_eq (h.run hf').counts (hsize (n + 1) m)
        (fun id => by rw [hbegin, hstack']; rfl) fun id => by rw [hbegin, hstack']; rfl
  ends n outcome hcontrol hf hpending := by
    have hcounts := (h.run hf).counts
    rw [stack, hcontrol, Control.on] at hcounts
    obtain hpending | ⟨id, holds, hpending⟩ := hpending
    · rw [hpending] at hcounts
      refine ⟨hcounts.atRest, ?_⟩
      rw [run_succ, step_of_isSome]
      · exact hcounts.atRest
      · rw [outcome?, hcontrol, hpending]
        rfl
    · obtain ⟨hf', hstack'⟩ := not_isFaulty_of_ends hcontrol hpending hf
      rw [← run_succ] at hf' hstack'
      have hcounts' := (h.run hf').counts
      rw [hpending] at hcounts
      rw [hstack'] at hcounts'
      have hnone : (Config.run n c).store.Counts [] :=
        hcounts.of_cores rfl (fun _ => rfl) (fun _ => rfl) fun _ => Nat.le_refl _
      exact ⟨hnone.atRest, hcounts'.atRest⟩

end Config

namespace Store

/-- A call of a store at rest begins with the whole budget. -/
theorem AtRest.begins_of_call (hs : s.AtRest) {inst : Instance σ} {callee : Callee}
    {args : List Value} {holds : List Hold} {func : Nat} {results : List ValType}
    (hinst : s.instances[id]? = some inst)
    (hlookup : lookupCallee inst callee args = .ok (func, results))
    (hp : inst.isPoisoned = false) :
    (s.callConfig id callee args holds).control.Begins inst id func 0 0 := by
  have hcores : (s.acquireAll holds).2.cores = s.cores := cores_acquireAll holds
  simp only [callConfig]
  generalize (s.acquireAll holds).2 = s₁ at hcores
  obtain ⟨inst₁, hinst₁, hcore⟩ := exists_of_cores hcores.symm hinst
  have hlookup₁ : lookupCallee inst₁ callee args = .ok (func, results) :=
    (lookupCallee_of_core hcore callee args).trans hlookup
  have hp₁ : inst₁.isPoisoned = false := (congrArg Instance.isPoisoned hcore).trans hp
  obtain ⟨hhosts, hreentry⟩ := hs.of_cores hcores id inst₁ hinst₁
  have hbegins := callFunction_begins hinst₁ func (args.map Value.toSlot) 0
  rw [hhosts] at hbegins
  simp only [invocation, hinst₁, hlookup₁, hp₁, hreentry]
  exact hbegins.of_core hcore

/-- What loading and instantiating come to, and then a call that leaves the store as it was. -/
theorem session_asking : ({ host := () } : Store Unit).Session
    [(asking.callConfig 0 (.export "f") [.i32 7] [], 13)] asking := by
  have hload : ({ host := () } : Store Unit).Session [] { host := (), moduleCount := 1 } :=
    .step .nil (.load .asking)
  have hinstantiate : ({ host := (), moduleCount := 1 } : Store Unit).Operation [] asking := by
    let imports : Imports Unit := ⟨[({ module := "a", name := "b" }, .func .asking)]⟩
    let limits : Limits := { maxCallDepth := 2, maxHostDepth := 1 }
    have hrun : ({ host := (), moduleCount := 1 } : Store Unit).instantiate ⟨0, .asking⟩ imports
        limits 0 = some (.ok 0, asking) := by cbv
    have hruns : ({ host := (), moduleCount := 1 } : Store Unit).startRuns ⟨0, .asking⟩ imports
        limits 0 = [] := by cbv
    exact hruns ▸ .instantiate hrun
  have hcall : asking.call 0 (.export "f") [.i32 7] [] 13 = some (.ok [.i32 8], asking) := by cbv
  exact .step (.step hload hinstantiate) (.call hcall)

end Store

end WasmEngine
