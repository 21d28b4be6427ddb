import WasmEngine.Proofs.Nesting.Session

/-!
# Proofs/Nesting/Depth — depth budgets are exact and balanced

The counters of an instance are functions of the stack: `hostDepth` is the number of its host
functions there, `reentryDepth` the call depth of the innermost of them, and the depth of a frame the
number of its frames up to that one.  `Config.IsBalanced` says so, and a step keeps it unless it ends in
a fault of the engine.
-/

namespace WasmEngine

variable {σ : Type}

/-! ## Counting on the stack -/

/-- The number of frames of an instance on a stack. -/
def framesIn (id : InstanceId) : List (Pending σ) → Nat
  | [] => 0
  | .run r :: ps => (if r.inst = id then r.callers.length + 1 else 0) + framesIn id ps
  | .invocation _ _ :: ps => framesIn id ps
  | .host _ _ _ :: ps => framesIn id ps

/-- The number of host functions on a stack that an instance called. -/
def hostsIn (id : InstanceId) : List (Pending σ) → Nat
  | [] => 0
  | .run _ :: ps => hostsIn id ps
  | .invocation _ _ :: ps => hostsIn id ps
  | .host call _ _ :: ps => (if call.instance? = some id then 1 else 0) + hostsIn id ps

/-- The call depth of the innermost host function on a stack that an instance called. -/
def reentryIn (id : InstanceId) : List (Pending σ) → Nat
  | [] => 0
  | .run _ :: ps => reentryIn id ps
  | .invocation _ _ :: ps => reentryIn id ps
  | .host call _ _ :: ps => if call.instance? = some id then call.depth else reentryIn id ps

/-- Whether frames, innermost first, have the depths that they have above `n` frames. -/
def CountFrom (n : Nat) : List Frame → Prop
  | [] => True
  | f :: fs => f.depth = n + fs.length + 1 ∧ CountFrom n fs

/-- Whether the depths and counters that are recorded on a stack are what they count. -/
def IsCounted : List (Pending σ) → Prop
  | [] => True
  | .run r :: ps => CountFrom (framesIn r.inst ps) (r.frame :: r.callers) ∧ IsCounted ps
  | .invocation _ _ :: ps => IsCounted ps
  | .host call _ _ :: ps =>
    (∀ c, call.caller = some c → call.depth = framesIn c.inst ps ∧
      c.outerHostDepth = hostsIn c.inst ps ∧ c.outerReentryDepth = reentryIn c.inst ps) ∧
    IsCounted ps

/-- The frames of an instance in the dispatch loop on top of a stack. -/
def topFrames (id : InstanceId) : List (Pending σ) → Nat
  | [] => 0
  | .run r :: _ => if r.inst = id then r.callers.length + 1 else 0
  | .invocation _ _ :: _ => 0
  | .host _ _ _ :: _ => 0

theorem topFrames_of_entered {root : Option InstanceId} {ps : List (Pending σ)}
    {id other : InstanceId} (h : entered root ps = some other) : topFrames id ps = 0 := by
  cases ps with
  | nil => rfl
  | cons p ps =>
    cases p with
    | run r => cases h
    | _ => rfl

theorem topFrames_of_awaiting {root : Option InstanceId} {ps : List (Pending σ)} {id : InstanceId}
    (h : awaiting root ps ≠ some id) : topFrames id ps = 0 := by
  cases ps with
  | nil => rfl
  | cons p ps =>
    cases p with
    | run r => exact if_neg fun heq => h (congrArg some heq)
    | _ => rfl

/-- **Below the innermost host function of an instance are all its frames**, except those of a dispatch
loop on top. -/
theorem framesIn_eq {root : Option InstanceId} (id : InstanceId) {ps : List (Pending σ)}
    (hn : NestedPending root ps) (hc : IsCounted ps) :
    framesIn id ps = topFrames id ps + reentryIn id ps := by
  induction ps with
  | nil => rfl
  | cons p ps ih =>
    cases p with
    | run r =>
      have h := ih hn.2 hc.2
      rw [topFrames_of_entered hn.1, Nat.zero_add] at h
      exact congrArg (_ + ·) h
    | invocation other holds =>
      have h := ih hn.2 hc
      rw [topFrames_of_awaiting (by rw [hn.1]; exact (Option.some_ne_none id).symm)] at h
      exact h
    | host call results k =>
      by_cases hid : call.instance? = some id
      · obtain ⟨c, hcaller, rfl⟩ := Option.map_eq_some_iff.1 hid
        have hdepth := (hc.1 c hcaller).1
        rw [framesIn, reentryIn, if_pos hid, hdepth, topFrames, Nat.zero_add]
      · have h := ih hn.2 hc.2
        rw [topFrames_of_awaiting (hn.1 ▸ hid), Nat.zero_add] at h
        rw [framesIn, reentryIn, if_neg hid, topFrames, Nat.zero_add, h]

theorem CountFrom.of_depth {n : Nat} {f f' : Frame} {fs : List Frame} (h : CountFrom n (f :: fs))
    (hd : f'.depth = f.depth) : CountFrom n (f' :: fs) := ⟨hd.trans h.1, h.2⟩

/-- A stack with what is in control on top. -/
def Control.on (ps : List (Pending σ)) : Control σ → List (Pending σ)
  | .run r => .run r :: ps
  | .host call program => .host call [] (fun _ => program) :: ps
  | .done _ => ps

/-- The stack of a configuration. -/
def Config.stack (c : Config σ) : List (Pending σ) := c.control.on c.pending

/-- The number of frames of an instance that are live. -/
def Config.liveFrames (c : Config σ) (id : InstanceId) : Nat := framesIn id c.stack

/-- The number of host functions that an instance called and that have not ended. -/
def Config.liveHosts (c : Config σ) (id : InstanceId) : Nat := hostsIn id c.stack

/-! ## The counters of instances -/

/-- Whether the counters of an instance are what they count, and within its limits. -/
structure Instance.Counts (id : InstanceId) (ps : List (Pending σ)) (inst : Instance σ) : Prop where
  hostDepth : inst.hostDepth = hostsIn id ps
  reentryDepth : inst.reentryDepth = reentryIn id ps
  frames : framesIn id ps ≤ inst.limits.maxCallDepth
  hosts : hostsIn id ps ≤ inst.limits.maxHostDepth

/-- The counters of an instance belong to its core. -/
theorem Instance.Counts.of_core {inst inst' : Instance σ} {id : InstanceId}
    {ps : List (Pending σ)} (h : inst.Counts id ps) (hcore : inst.core = inst'.core) :
    inst'.Counts id ps where
  hostDepth := (congrArg Instance.hostDepth hcore).symm.trans h.hostDepth
  reentryDepth := (congrArg Instance.reentryDepth hcore).symm.trans h.reentryDepth
  frames := (congrArg (·.limits.maxCallDepth) hcore : inst.limits.maxCallDepth = _) ▸ h.frames
  hosts := (congrArg (·.limits.maxHostDepth) hcore : inst.limits.maxHostDepth = _) ▸ h.hosts

/-- Whether all instances of a store count what is on a stack. -/
def Store.Counts (s : Store σ) (ps : List (Pending σ)) : Prop :=
  ∀ (id : InstanceId) (inst : Instance σ), s.instances[id]? = some inst → inst.Counts id ps

namespace Store.Counts

variable {s s' : Store σ} {ps ps' : List (Pending σ)} {id : InstanceId}

/-- The same stack but for frames that have been left is counted by the same counters. -/
theorem of_cores (h : s.Counts ps) (hs : s'.cores = s.cores)
    (hhosts : ∀ id, hostsIn id ps' = hostsIn id ps)
    (hreentry : ∀ id, reentryIn id ps' = reentryIn id ps)
    (hframes : ∀ id, framesIn id ps' ≤ framesIn id ps) : s'.Counts ps' := by
  intro id inst' hinst'
  obtain ⟨inst, hinst, hcore⟩ := exists_of_cores hs hinst'
  have hc := (h id inst hinst).of_core hcore
  exact { hostDepth := hc.hostDepth.trans (hhosts id).symm
          reentryDepth := hc.reentryDepth.trans (hreentry id).symm
          frames := Nat.le_trans (hframes id) hc.frames
          hosts := hhosts id ▸ hc.hosts }

theorem of_same (h : s.Counts ps) (hs : s'.cores = s.cores) : s'.Counts ps :=
  h.of_cores hs (fun _ => rfl) (fun _ => rfl) fun _ => Nat.le_refl _

/-- A dispatch loop of one more frame is counted, if the limit leaves room for it. -/
theorem run {r : Run} {inst : Instance σ} (h : s.Counts ps)
    (hinst : s.instances[r.inst]? = some inst)
    (hroom : framesIn r.inst ps + r.callers.length < inst.limits.maxCallDepth) :
    s.Counts (.run r :: ps) := by
  intro id inst' hinst'
  have hc := h id inst' hinst'
  refine { hostDepth := hc.hostDepth, reentryDepth := hc.reentryDepth, hosts := hc.hosts,
           frames := ?_ }
  rw [framesIn]
  split
  · next heq =>
    subst heq
    obtain rfl := Option.some.inj (hinst.symm.trans hinst')
    omega
  · rw [Nat.zero_add]
    exact hc.frames

/-- A host function is counted when it starts. -/
theorem host {inst : Instance σ} {ref : ImportName} {depth : Nat} {results results' : List ValType}
    {k : Except Error (List Value) → HostProgram σ} (h : s.Counts ps)
    (hinst : s.instances[id]? = some inst) (hroom : inst.hostDepth < inst.limits.maxHostDepth) :
    (s.countHost id depth).Counts (.host (hostCall id inst ref depth results) results' k :: ps) := by
  intro other inst' hinst'
  rw [countHost, getElem?_modifyInstance] at hinst'
  by_cases ho : other = id
  · subst ho
    rw [if_pos rfl, hinst] at hinst'
    obtain rfl := Option.some.inj hinst'
    have hc := h other inst hinst
    have hcaller : (hostCall other inst ref depth results).instance? = some other := rfl
    refine ⟨?_, ?_, hc.frames, ?_⟩
    · rw [hostsIn, if_pos hcaller, Nat.add_comm]
      exact congrArg (· + 1) hc.hostDepth
    · rw [reentryIn, if_pos hcaller]
      rfl
    · rw [hostsIn, if_pos hcaller, ← hc.hostDepth, Nat.add_comm]
      exact hroom
  · rw [if_neg ho] at hinst'
    have hc := h other inst' hinst'
    have hcaller : (hostCall id inst ref depth results).instance? ≠ some other :=
      fun heq => ho (Option.some.inj heq).symm
    refine ⟨?_, ?_, hc.frames, ?_⟩
    · rw [hostsIn, if_neg hcaller, Nat.zero_add]
      exact hc.hostDepth
    · rw [reentryIn, if_neg hcaller]
      exact hc.reentryDepth
    · rw [hostsIn, if_neg hcaller, Nat.zero_add]
      exact hc.hosts

/-- **A host function that ends is taken off the counters.** -/
theorem unhost {call : HostCall} {results : List ValType}
    {k : Except Error (List Value) → HostProgram σ} (h : s.Counts (.host call results k :: ps))
    (hc : IsCounted (.host call results k :: ps)) : (s.uncountHost call).Counts ps := by
  intro other inst' hinst'
  have hsame {inst : Instance σ} (ho : call.instance? ≠ some other)
      (hinst : s.instances[other]? = some inst) : inst.Counts other ps := by
    have hold := h other inst hinst
    have hhosts : hostsIn other (.host call results k :: ps) = hostsIn other ps := by
      rw [hostsIn, if_neg ho, Nat.zero_add]
    have hreentry : reentryIn other (.host call results k :: ps) = reentryIn other ps := by
      rw [reentryIn, if_neg ho]
    exact ⟨hold.hostDepth.trans hhosts, hold.reentryDepth.trans hreentry, hold.frames,
      hhosts ▸ hold.hosts⟩
  cases hcaller : call.caller with
  | none =>
    rw [uncountHost, hcaller] at hinst'
    refine hsame ?_ hinst'
    rw [HostCall.instance?, hcaller]
    exact (Option.some_ne_none other).symm
  | some c =>
    have hinstance : call.instance? = some c.inst := by rw [HostCall.instance?, hcaller]; rfl
    simp only [uncountHost, hcaller, getElem?_modifyInstance] at hinst'
    by_cases ho : other = c.inst
    · subst ho
      rw [if_pos rfl] at hinst'
      obtain ⟨inst, hinst, rfl⟩ := Option.map_eq_some_iff.1 hinst'
      have hold := h c.inst inst hinst
      obtain ⟨-, hhosts, hreentry⟩ := hc.1 c hcaller
      refine ⟨hhosts, hreentry, hold.frames, Nat.le_trans ?_ hold.hosts⟩
      rw [hostsIn]
      exact Nat.le_add_left ..
    · rw [if_neg ho] at hinst'
      exact hsame (fun heq => ho (Option.some.inj (hinstance.symm.trans heq)).symm) hinst'

/-- Neither poisoning nor giving back changes a counter. -/
theorem deliverInvocation {holds : List Hold}
    (h : s.Counts (.invocation id holds :: ps)) (outcome : Except Error (List Slot)) :
    (s.deliver outcome (.invocation id holds)).store.Counts ps := by
  have hmark : (s.modifyInstance id ({ · with isPoisoned := true })).Counts ps := by
    intro other inst' hinst'
    rw [getElem?_modifyInstance] at hinst'
    split at hinst'
    · obtain ⟨inst, hinst, rfl⟩ := Option.map_eq_some_iff.1 hinst'
      have hc := h other inst hinst
      exact ⟨hc.hostDepth, hc.reentryDepth, hc.frames, hc.hosts⟩
    · have hc := h other inst' hinst'
      exact ⟨hc.hostDepth, hc.reentryDepth, hc.frames, hc.hosts⟩
  have hpop : s.Counts ps := h.of_cores rfl (fun _ => rfl) (fun _ => rfl) fun _ => Nat.le_refl _
  cases outcome with
  | ok slots => exact hpop.of_same (cores_releaseAll holds)
  | error e =>
    by_cases he : e.IsFatal
    · simp only [deliver, if_pos he]
      exact hmark.of_same (cores_releaseAll holds)
    · simp only [deliver, if_neg he]
      exact hpop.of_same (cores_releaseAll holds)

end Store.Counts

/-! ## One step -/

/-- Whether the engine has left its own data: a borrow that panics, or what compiled code does not do
(`Store.Reachable.invoke_sound`). -/
def Config.IsFaulty (c : Config σ) : Prop := ∃ f, c.control = .done (.error (.fault f))

/-- Whether all depths and counters of a configuration are what they count. -/
structure Config.IsBalanced (root : Option InstanceId) (c : Config σ) : Prop where
  isNested : c.IsNested root
  isCounted : IsCounted c.stack
  counts : c.store.Counts c.stack

variable {root : Option InstanceId} {s s' : Store σ} {ps : List (Pending σ)}

/-- **A call begins balanced** above the frames that it knows of. -/
theorem Store.Entry.isCounted {id : InstanceId} {depth : Nat} {control : Control σ}
    (h : s.Entry id depth (control, s')) (hdepth : depth = framesIn id ps) (hc : IsCounted ps)
    (hs : s.Counts ps) : IsCounted (control.on ps) ∧ s'.Counts (control.on ps) := by
  cases h with
  | failed hcores => exact ⟨hc, hs.of_same hcores⟩
  | answered hcores hp => exact ⟨hc, hs.of_same hcores⟩
  | code hinst hroom hframe =>
    refine ⟨⟨⟨?_, trivial⟩, hc⟩, hs.run hinst ?_⟩
    · rw [hframe, hdepth]
      rfl
    · exact hdepth ▸ hroom
  | host args hinst hbound hroom =>
    refine ⟨⟨?_, hc⟩, hs.host hinst hroom⟩
    intro c hcaller
    obtain rfl := Option.some.inj hcaller
    have hcounts := hs id _ hinst
    exact ⟨hdepth, hcounts.hostDepth, hcounts.reentryDepth⟩

namespace Config.IsBalanced

theorem turn {r : Run} {t : Transition σ} (h : IsBalanced root ⟨s, .run r, ps⟩)
    (ht : s.Turn r t) : IsBalanced root (ofTransition t ps) := by
  have hnested := h.isNested.turn ht
  obtain ⟨-, ⟨hframes, hc⟩, hs⟩ := h
  have hpop {s' : Store σ} (hcores : s'.cores = s.cores) : s'.Counts ps :=
    hs.of_cores hcores (fun _ => rfl) (fun _ => rfl) fun _ => Nat.le_add_left ..
  cases ht with
  | fail hcores => exact ⟨hnested, hc, hpop hcores⟩
  | finish hcores hr => exact ⟨hnested, hc, hpop hcores⟩
  | stay hcores hd =>
    exact ⟨hnested, ⟨hframes.of_depth hd, hc⟩, hs.of_cores hcores (fun _ => rfl) (fun _ => rfl)
      fun _ => Nat.le_refl _⟩
  | @enter inst callee frame s' hcores hinst hroom hd hcallee =>
    refine ⟨hnested, ⟨⟨?_, hframes.of_depth hd⟩, hc⟩, ?_⟩
    · rw [hcallee, hframes.1]
      rfl
    · have hsame := (hpop rfl).run (r := ⟨r.inst, callee, frame :: r.callers⟩) hinst
        (by rw [hframes.1] at hroom; exact hroom)
      exact hsame.of_same hcores
  | @leave frame caller callers s' hcores hr hd =>
    rw [hr] at hframes
    refine ⟨hnested, ⟨CountFrom.of_depth hframes.2 hd, hc⟩, hs.of_cores hcores (fun _ => rfl)
      (fun _ => rfl) fun id => ?_⟩
    change framesIn id (.run ⟨r.inst, frame, callers⟩ :: ps) ≤ framesIn id (.run r :: ps)
    simp only [framesIn, hr, List.length_cons]
    split <;> omega
  | @«import» inst func type ref binding frame s₁ s' control hcores hinst himport hd he hcontrol =>
    have hrun : IsCounted (.run { r with frame } :: ps) := ⟨hframes.of_depth hd, hc⟩
    have hcounts : s₁.Counts (.run { r with frame } :: ps) :=
      hs.of_cores hcores (fun _ => rfl) (fun _ => rfl) fun _ => Nat.le_refl _
    have hdepth : r.frame.depth = framesIn r.inst (.run { r with frame } :: ps) := by
      have htop : r.frame.depth = framesIn r.inst ps + r.callers.length + 1 := hframes.1
      simp only [htop, framesIn, if_true]
      omega
    obtain ⟨hcounted, hcounts⟩ := he.isCounted hdepth hrun hcounts
    exact ⟨hnested, hcounted, hcounts⟩

/-- **What a host function calls begins above all frames of the instance**, be it called through the
caller or directly. -/
theorem depth_of_target {call : HostCall} {program : HostProgram σ} {target : Target}
    {id : InstanceId} {depth : Nat} {s₁ : Store σ} {inst : Instance σ}
    (h : IsBalanced root ⟨s, .host call program, ps⟩)
    (htarget : Store.callTarget call target = .ok (id, depth)) (hcores : s₁.cores = s.cores)
    (hinst : s₁.instances[id]? = some inst) :
    max depth inst.reentryDepth = framesIn id ps := by
  obtain ⟨⟨howner, hpending⟩, hc, hs⟩ := h
  -- Below the innermost host function of the instance are all its frames.
  have hreentry : framesIn id ps = inst.reentryDepth := by
    have hn : NestedPending root (.host call [] (fun _ => program) :: ps) := ⟨howner, hpending⟩
    have hcount := framesIn_eq id hn hc
    rw [framesIn, topFrames, Nat.zero_add] at hcount
    exact hcount.trans (hs.of_same hcores id inst hinst).reentryDepth.symm
  rw [hreentry]
  refine Nat.max_eq_right ?_
  cases target with
  | «instance» other =>
    cases htarget
    exact Nat.zero_le _
  | caller =>
    cases hcaller : call.caller with
    | none =>
      simp only [Store.callTarget, hcaller] at htarget
      cases htarget
    | some c =>
      simp only [Store.callTarget, hcaller] at htarget
      cases htarget
      exact Nat.le_of_eq ((hc.1 c hcaller).1.trans hreentry)

theorem service {call : HostCall} {program : HostProgram σ} {t : Transition σ}
    (h : IsBalanced root ⟨s, .host call program, ps⟩) (ht : s.Service call t)
    (hf : ¬(ofTransition t ps).IsFaulty) : IsBalanced root (ofTransition t ps) := by
  have hnested := h.isNested.service ht
  have hc := h.isCounted
  have hs := h.counts
  have hcall {s' : Store σ} {results : List ValType}
      {k : Except Error (List Value) → HostProgram σ} (hcores : s'.cores = s.cores) :
      s'.Counts (.host call results k :: ps) :=
    hs.of_cores hcores (fun _ => rfl) (fun _ => rfl) fun _ => Nat.le_refl _
  have hinvoke {s' : Store σ} {id : InstanceId} {holds : List Hold} {results : List ValType}
      {k : Except Error (List Value) → HostProgram σ} (hcores : s'.cores = s.cores) :
      s'.Counts (.invocation id holds :: .host call results k :: ps) :=
    hs.of_cores hcores (fun _ => rfl) (fun _ => rfl) fun _ => Nat.le_refl _
  cases ht with
  | conflict hcores => exact absurd ⟨.conflictingLoan, rfl⟩ hf
  | finish hp => exact ⟨hnested, hc.2, hs.unhost hc⟩
  | proceed hcores => exact ⟨hnested, hc, hcall hcores⟩
  | refused hcores => exact ⟨hnested, hc, hinvoke hcores⟩
  | @invoke target id depth holds results k inst s₁ s' control hcores htarget hinst hp he =>
    have hdepth : max depth inst.reentryDepth =
        framesIn id (.invocation id holds :: .host call results k :: ps) :=
      h.depth_of_target htarget hcores hinst
    have hbelow : IsCounted (.invocation id holds :: .host call results k :: ps) := hc
    obtain ⟨hcounted, hcounts⟩ := he.isCounted hdepth hbelow (hinvoke hcores)
    exact ⟨hnested, hcounted, hcounts⟩

theorem deliver {p : Pending σ} {outcome : Except Error (List Slot)}
    (h : IsBalanced root ⟨s, .done outcome, p :: ps⟩) (hf : ¬Store.IsFault outcome) :
    IsBalanced root (ofTransition (s.deliver outcome p) ps) := by
  have hnested : IsNested root (ofTransition (s.deliver outcome p) ps) :=
    Config.IsNested.deliver outcome h.isNested.pending
  obtain ⟨-, hc, hs⟩ := h
  cases p with
  | run r =>
    cases outcome with
    | ok results =>
      exact ⟨hnested, ⟨CountFrom.of_depth hc.1 rfl, hc.2⟩,
        hs.of_cores rfl (fun _ => rfl) (fun _ => rfl) fun _ => Nat.le_refl _⟩
    | error e =>
      exact ⟨hnested, hc.2,
        hs.of_cores rfl (fun _ => rfl) (fun _ => rfl) fun _ => Nat.le_add_left ..⟩
  | invocation id holds => exact ⟨hnested, hc, hs.deliverInvocation outcome⟩
  | host call results k =>
    rw [Store.deliver_host hf] at hnested ⊢
    exact ⟨hnested, hc, hs.of_cores rfl (fun _ => rfl) (fun _ => rfl) fun _ => Nat.le_refl _⟩

end Config.IsBalanced

namespace Config

/-- **A fault ends everything**: what it is delivered to passes it on. -/
theorem IsFaulty.step {c : Config σ} (h : c.IsFaulty) : c.step.IsFaulty := by
  obtain ⟨s, control, pending⟩ := c
  obtain ⟨f, rfl⟩ := h
  cases pending with
  | nil => exact ⟨f, rfl⟩
  | cons p pending =>
    refine ⟨f, ?_⟩
    cases p with
    | run r => rfl
    | invocation id holds => rfl
    | host call results k => rfl

/-- **A step keeps counters balanced**, unless it leaves the data of the engine. -/
theorem IsBalanced.step {c : Config σ} (h : c.IsBalanced root) (hf : ¬c.step.IsFaulty) :
    c.step.IsBalanced root := by
  obtain ⟨s, control, pending⟩ := c
  cases control with
  | run r => exact h.turn (s.dispatch_turn r)
  | host call program => exact h.service (s.serve_service call program) hf
  | done outcome =>
    cases pending with
    | nil => exact h
    | cons p pending =>
      refine h.deliver fun hfault => hf (IsFaulty.step ?_)
      cases outcome with
      | ok slots => exact hfault.elim
      | error e =>
        cases e with
        | fault f => exact ⟨f, rfl⟩
        | _ => exact hfault.elim

/-- **Counters are balanced at every moment of a run**, unless it has left the data of the engine. -/
theorem IsBalanced.run {c : Config σ} (h : c.IsBalanced root) {n : Nat}
    (hf : ¬(Config.run n c).IsFaulty) : (Config.run n c).IsBalanced root := by
  have hstep (c : Config σ) (h : c.IsFaulty ∨ c.IsBalanced root) :
      c.step.IsFaulty ∨ c.step.IsBalanced root := by
    obtain h | h := h
    · exact .inl h.step
    · by_cases hf : c.step.IsFaulty
      · exact .inl hf
      · exact .inr (h.step hf)
  exact (run_induction (P := fun c => c.IsFaulty ∨ c.IsBalanced root) hstep (.inr h) n).resolve_left
    hf

end Config

end WasmEngine
