import WasmEngine.Proofs.Nesting.Session
import WasmEngine.Proofs.Safety.Soundness

/-!
# Proofs/Nesting/Poison — poisoning cannot be missed or swallowed

An instance is poisoned by an invocation of it that ends in a trap or an abort, and by nothing else:
`Config.isPoisoned_run_iff`.  It stays so and refuses to run: `Store.call_of_isPoisoned`.  What goes on
in an instance is never poisoned (`Config.IsClean`), so that an invocation around the one that trapped
does not return.  `Store.poisoning` puts the laws together.
-/

namespace WasmEngine

variable {σ : Type}

namespace Store

variable {s s' : Store σ} {id : InstanceId}

/-- Which instances are poisoned. -/
def marks (s : Store σ) : Array Bool := s.instances.map (·.isPoisoned)

theorem isPoisoned_iff_marks (s : Store σ) (id : InstanceId) :
    s.IsPoisoned id ↔ s.marks[id]? = some true := by
  rw [IsPoisoned, marks, Array.getElem?_map]
  cases s.instances[id]? <;> simp

theorem size_marks (s : Store σ) : s.marks.size = s.instances.size := Array.size_map

/-- The mark of an instance is fixed but for poisoning. -/
theorem isFixed_isPoisoned : Instance.IsFixed fun inst : Instance σ => inst.isPoisoned :=
  ⟨fun _ => rfl, fun _ _ _ => rfl⟩

theorem marks_eq_of_cores (h : s'.cores = s.cores) : s'.marks = s.marks :=
  map_eq_of_cores isFixed_isPoisoned h

theorem marks_poison (s : Store σ) (id : InstanceId) :
    (s.modifyInstance id ({ · with isPoisoned := true })).marks =
      s.marks.setIfInBounds id true := by
  refine Array.ext_getElem? fun i => ?_
  rw [marks, Array.getElem?_map, getElem?_modifyInstance, Array.getElem?_setIfInBounds, size_marks,
    marks, Array.getElem?_map]
  by_cases hi : i = id
  · subst hi
    by_cases hlt : i < s.instances.size <;> simp [hlt]
  · simp [hi, Ne.symm hi]

/-! ## One step -/

end Store

namespace Config

variable {c : Config σ} {id : InstanceId}

/-- Whether an invocation of an instance is about to end with an outcome. -/
def Ends (c : Config σ) (id : InstanceId) (outcome : Except Error (List Slot)) : Prop :=
  c.control = .done outcome ∧ ∃ holds pending, c.pending = .invocation id holds :: pending

/-- Whether an invocation of an instance is about to end in a trap or in an abort. -/
def EndsFatally (c : Config σ) (id : InstanceId) : Prop :=
  ∃ e : Error, e.IsFatal ∧ c.Ends id (.error e)

/-- **What a step does to the marks.** -/
theorem marks_step (c : Config σ) :
    (∃ id, c.EndsFatally id ∧ c.step.store.marks = c.store.marks.setIfInBounds id true) ∨
      (∀ id, ¬c.EndsFatally id) ∧ c.step.store.marks = c.store.marks := by
  obtain ⟨s, control, pending⟩ := c
  cases control with
  | run r =>
    refine .inr ⟨?_, (s.dispatch_turn r).map_eq Store.isFixed_isPoisoned⟩
    rintro id ⟨e, -, hcontrol, -⟩
    cases hcontrol
  | host call program =>
    refine .inr ⟨?_, (s.serve_service call program).map_eq Store.isFixed_isPoisoned⟩
    rintro id ⟨e, -, hcontrol, -⟩
    cases hcontrol
  | done outcome =>
    cases pending with
    | nil =>
      refine .inr ⟨?_, rfl⟩
      rintro id ⟨e, -, -, holds, pending, hpending⟩
      cases hpending
    | cons p pending =>
      cases p with
      | run r =>
        refine .inr ⟨?_, by cases outcome <;> rfl⟩
        rintro id ⟨e, -, -, holds, pending, hpending⟩
        cases hpending
      | host call results k =>
        refine .inr ⟨?_, ?_⟩
        · rintro id ⟨e, -, -, holds, pending, hpending⟩
          cases hpending
        · by_cases hf : Store.IsFault outcome
          · simp only [step, Store.deliver_host_of_fault hf]
            rfl
          · simp only [step, Store.deliver_host hf]
            rfl
      | invocation id holds =>
        by_cases hfatal : ∃ e : Error, e.IsFatal ∧ outcome = .error e
        · obtain ⟨e, he, rfl⟩ := hfatal
          refine .inl ⟨id, ⟨e, he, rfl, holds, pending, rfl⟩, ?_⟩
          simp only [step, Store.deliver, if_pos he]
          exact (Store.marks_eq_of_cores (Store.cores_releaseAll holds)).trans
            (Store.marks_poison s id)
        · refine .inr ⟨?_, ?_⟩
          · rintro id ⟨e, he, hcontrol, -⟩
            cases hcontrol
            exact hfatal ⟨e, he, rfl⟩
          · have hstore : (s.deliver outcome (.invocation id holds)).store =
                s.releaseAll holds := by
              cases outcome with
              | ok slots => rfl
              | error e =>
                simp only [Store.deliver]
                rw [if_neg fun he => hfatal ⟨e, he, rfl⟩]
                rfl
            exact Store.marks_eq_of_cores
              ((congrArg Store.cores hstore).trans (Store.cores_releaseAll holds))

theorem size_step (c : Config σ) :
    c.step.store.instances.size = c.store.instances.size := by
  rw [← Store.size_marks, ← Store.size_marks]
  obtain ⟨id, -, h⟩ | ⟨-, h⟩ := c.marks_step
  · rw [h, Array.size_setIfInBounds]
  · rw [h]

theorem isPoisoned_step_iff (c : Config σ) (hid : id < c.store.instances.size) :
    c.step.store.IsPoisoned id ↔ c.store.IsPoisoned id ∨ c.EndsFatally id := by
  rw [Store.isPoisoned_iff_marks, Store.isPoisoned_iff_marks]
  obtain ⟨other, hends, h⟩ | ⟨hno, h⟩ := c.marks_step
  · rw [h, Array.getElem?_setIfInBounds]
    by_cases ho : other = id
    · subst ho
      rw [if_pos rfl, Store.size_marks, if_pos hid]
      exact iff_of_true rfl (.inr hends)
    · rw [if_neg ho]
      refine (or_iff_left ?_).symm
      rintro ⟨-, -, -, _, _, hpending⟩
      obtain ⟨-, -, -, _, _, hpending'⟩ := hends
      rw [hpending'] at hpending
      cases hpending
      exact ho rfl
  · rw [h]
    exact (or_iff_left (hno id)).symm

theorem size_run (n : Nat) (c : Config σ) :
    (run n c).store.instances.size = c.store.instances.size := by
  induction n with
  | zero => rfl
  | succ n ih => rw [run_succ, size_step, ih]

/-- **A run poisons an instance exactly if an invocation of it ends in a trap or in an abort.** -/
theorem isPoisoned_run_iff (c : Config σ) (hid : id < c.store.instances.size) (n : Nat) :
    (run n c).store.IsPoisoned id ↔
      c.store.IsPoisoned id ∨ ∃ m < n, (run m c).EndsFatally id := by
  induction n with
  | zero => simp [run]
  | succ n ih =>
    rw [run_succ, isPoisoned_step_iff _ (size_run n c ▸ hid), ih, or_assoc, or_congr_right]
    constructor
    · rintro (⟨m, hm, h⟩ | h)
      · exact ⟨m, Nat.lt_succ_of_lt hm, h⟩
      · exact ⟨n, Nat.lt_succ_self n, h⟩
    · rintro ⟨m, hm, h⟩
      obtain hm | rfl := Nat.lt_succ_iff_lt_or_eq.1 hm
      · exact .inl ⟨m, hm, h⟩
      · exact .inr h

/-! ## The end of an invocation -/

/-- A step puts items on the stack or hands an outcome to the topmost. -/
theorem pending_step (c : Config σ) :
    (∃ new, c.step.pending = new ++ c.pending) ∨
      ∃ outcome p, c.control = .done outcome ∧ c.pending = p :: c.step.pending := by
  obtain ⟨s, control, pending⟩ := c
  cases control with
  | run r => exact .inl ⟨_, rfl⟩
  | host call program => exact .inl ⟨_, rfl⟩
  | done outcome =>
    cases pending with
    | nil => exact .inl ⟨[], rfl⟩
    | cons p pending =>
      refine .inr ⟨outcome, p, rfl, ?_⟩
      have hwaiting : (s.deliver outcome p).waiting = [] := by
        cases p with
        | run r => cases outcome <;> rfl
        | invocation id holds => rfl
        | host call results k =>
          by_cases hf : Store.IsFault outcome
          · rw [Store.deliver_host_of_fault hf]
            rfl
          · rw [Store.deliver_host hf]
            rfl
      simp only [step, ofTransition, hwaiting, List.nil_append]

/-- **A run that ends ends the invocation at the bottom of its stack**, in its last step. -/
theorem exists_ends_of_run {holds : List Hold} (hc : c.pending = [.invocation id holds]) {n : Nat}
    {outcome : Except Error (List Slot)} (h : (run n c).outcome? = some outcome) :
    ∃ m < n, (run m c).Ends id outcome ∧ run n c = run (m + 1) c := by
  -- Until then the invocation stays at the bottom.
  have key : (∃ new, (run n c).pending = new ++ [.invocation id holds]) ∨
      ∃ m < n, ∃ o, (run m c).Ends id o ∧ run n c = run (m + 1) c ∧
        (run n c).outcome? = some o := by
    clear h
    induction n with
    | zero => exact .inl ⟨[], hc⟩
    | succ n ih =>
      obtain ⟨new, hnew⟩ | ⟨m, hm, o, hends, heq, hout⟩ := ih
      · rw [run_succ]
        obtain ⟨new', hnew'⟩ | ⟨o, p, hcontrol, hp⟩ := pending_step (run n c)
        · exact .inl ⟨new' ++ new, by rw [hnew', hnew, List.append_assoc]⟩
        · cases new with
          | cons q new =>
            rw [hnew, List.cons_append] at hp
            exact .inl ⟨new, (List.cons.inj hp).2.symm⟩
          | nil =>
            refine .inr ⟨n, Nat.lt_succ_self n, o, ⟨hcontrol, holds, [], hnew⟩,
              (run_succ n c).symm, ?_⟩
            generalize run n c = c' at hnew hcontrol
            obtain ⟨s, control, pending⟩ := c'
            cases hnew
            cases hcontrol
            rfl
      · have hstay : run (n + 1) c = run n c := by
          rw [run_succ, step_of_isSome (by rw [hout]; rfl)]
        exact .inr ⟨m, Nat.lt_succ_of_lt hm, o, hends, hstay.trans heq, hstay ▸ hout⟩
  obtain ⟨new, hnew⟩ | ⟨m, hm, o, hends, heq, hout⟩ := key
  · exfalso
    unfold outcome? at h
    split at h
    · next hpending =>
      rw [hpending] at hnew
      cases new <;> cases hnew
    · cases h
  · obtain rfl := Option.some.inj (h.symm.trans hout)
    exact ⟨m, hm, hends, heq⟩

/-! ## What goes on is not poisoned -/

/-- Whether a dispatch loop and the instance that takes results are not poisoned. -/
def IsClean (root : Option InstanceId) (c : Config σ) : Prop :=
  match c.control with
  | .run r => ¬c.store.IsPoisoned r.inst
  | .done (.ok _) => ∀ id, awaiting root c.pending = some id → ¬c.store.IsPoisoned id
  | _ => True

end Config

variable {root : Option InstanceId} {s : Store σ} {pending : List (Pending σ)}

/-- What an instance that is not poisoned begins is clean. -/
theorem Store.Entry.isClean {id : InstanceId} {depth : Nat} {control : Control σ} {s' : Store σ}
    (h : s.Entry id depth (control, s')) (hp : ¬s.IsPoisoned id)
    (howner : awaiting root pending = some id) : Config.IsClean root ⟨s', control, pending⟩ := by
  cases h with
  | failed hs => trivial
  | answered hs hp' =>
    intro other hother
    obtain rfl := Option.some.inj (howner.symm.trans hother)
    exact hp'
  | code hinst hroom hd => exact hp
  | host args hinst hbound hroom => trivial

namespace Config.IsClean

theorem turn {r : Run} {t : Transition σ} (h : ¬s.IsPoisoned r.inst)
    (howner : awaiting root pending = some r.inst) (ht : s.Turn r t) :
    IsClean root (ofTransition t pending) := by
  have hp {s' : Store σ} (hs : s'.cores = s.cores) : ¬s'.IsPoisoned r.inst :=
    fun hp => h ((Store.isPoisoned_congr hs).1 hp)
  cases ht with
  | fail hs => trivial
  | finish hs hr =>
    intro id hid
    obtain rfl := Option.some.inj (howner.symm.trans hid)
    exact hp hs
  | stay hs hd => exact hp hs
  | enter hs hinst hroom hd hc => exact hp hs
  | leave hs hr hd => exact hp hs
  | «import» hs hinst himport hd he hc => exact he.isClean (hp hs) rfl

theorem service {call : HostCall} {t : Transition σ}
    (howner : awaiting root pending = call.instance?) (ht : s.Service call t) :
    IsClean root (ofTransition t pending) := by
  cases ht with
  | conflict hs => trivial
  | @finish outcome hp =>
    cases outcome with
    | error e => trivial
    | ok slots =>
      intro id hid
      obtain ⟨c, hc, rfl⟩ := Option.map_eq_some_iff.1 (howner.symm.trans hid)
      exact hp slots c rfl hc
  | proceed hs => trivial
  | refused hs => trivial
  | invoke hs htarget hinst hp he =>
    exact he.isClean (by rw [Store.isPoisoned_iff hinst, hp]; exact Bool.false_ne_true) rfl

/-- **A step keeps what goes on clean.** -/
theorem step {c : Config σ} (hn : c.IsNested root) (h : c.IsClean root) :
    c.step.IsClean root := by
  obtain ⟨s, control, pending⟩ := c
  cases control with
  | run r => exact turn h (awaiting_of_entered hn.control) (s.dispatch_turn r)
  | host call program => exact service hn.control (s.serve_service call program)
  | done outcome =>
    cases pending with
    | nil => exact h
    | cons p pending =>
      cases p with
      | run r =>
        cases outcome with
        | ok results => exact h r.inst rfl
        | error e => trivial
      | invocation id holds =>
        cases outcome with
        | ok results =>
          intro id hid
          cases hn.pending.1.symm.trans hid
        | error e => trivial
      | host call results k =>
        by_cases hf : Store.IsFault outcome
        · cases outcome with
          | ok results => exact hf.elim
          | error e =>
            simp only [Config.step, Store.deliver_host_of_fault hf]
            trivial
        · simp only [Config.step, Store.deliver_host hf]
          trivial

theorem run {c : Config σ} (hn : c.IsNested root) (h : c.IsClean root) (n : Nat) :
    (Config.run n c).IsClean root :=
  (run_induction (P := fun c => c.IsNested root ∧ c.IsClean root)
    (fun _ h => ⟨h.1.step, step h.1 h.2⟩) ⟨hn, h⟩ n).2

end Config.IsClean

namespace Store

theorem getElem?_push_self (s : Store σ) (inst : Instance σ) :
    ({ s with instances := s.instances.push inst } : Store σ).instances[s.instances.size]? =
      some inst := by
  rw [Array.getElem?_push, if_pos rfl]

/-- **Runs start clean.** -/
theorem Starts.isClean {c : Config σ} (h : s.Starts root c) : c.IsClean root := by
  cases h with
  | @call id callee args holds hholds =>
    obtain ⟨e, s', -, -, heq⟩ | ⟨s₁, inst, control, s', -, hinst, hp, he, heq⟩ :=
      callConfig_cases s id callee args holds
    · rw [heq]
      trivial
    · rw [heq]
      exact he.isClean (by rw [isPoisoned_iff hinst, hp]; exact Bool.false_ne_true) rfl
  | standalone f args => trivial
  | @start inst func hfresh =>
    have hp : ¬({ s with instances := s.instances.push inst } : Store σ).IsPoisoned
        s.instances.size := by
      rw [isPoisoned_iff (getElem?_push_self s inst), hfresh.isPoisoned]
      exact Bool.false_ne_true
    exact (callFunction_entry ..).isClean hp rfl

/-! ## Poisoned instances refuse -/

end Store

/-- An instance as if nothing were borrowed from it. -/
def Instance.unlent (inst : Instance σ) : Instance σ := { inst with loan := .shared 0 }

namespace Store

theorem lookupCallee_unlent (inst : Instance σ) (callee : Callee) (args : List Value) :
    lookupCallee inst.unlent callee args = lookupCallee inst callee args := by
  cases callee <;> rfl

/-- Whether a call of an instance names a function and gives it arguments of its types. -/
def Finds (s : Store σ) (id : InstanceId) (callee : Callee) (args : List Value) : Prop :=
  ∃ inst found, s.instances[id]? = some inst ∧ lookupCallee inst callee args = .ok found

/-- **A poisoned instance refuses**, whatever has been borrowed since. -/
theorem invocation_of_isPoisoned {s s₁ : Store σ} {id : InstanceId} {callee : Callee}
    {args : List Value} (hp : s.IsPoisoned id) (hfinds : s.Finds id callee args)
    (hs : s₁.view Instance.unlent = s.view Instance.unlent) (depth : Nat) :
    ∃ results, s₁.invocation id callee args depth = ((.done (.error .poisoned), results), s₁) := by
  obtain ⟨inst, ⟨func, results⟩, hinst, hlookup⟩ := hfinds
  have hid := congrArg (·[id]?) (congrArg Prod.fst hs)
  simp only [view, Array.getElem?_map, hinst, Option.map_some] at hid
  obtain ⟨inst₁, hinst₁, heq⟩ := Option.map_eq_some_iff.1 hid
  have hlookup₁ : lookupCallee inst₁ callee args = .ok (func, results) := by
    rw [← lookupCallee_unlent, heq, lookupCallee_unlent, hlookup]
  have hp₁ : inst₁.isPoisoned = true :=
    (congrArg Instance.isPoisoned heq).trans ((isPoisoned_iff hinst).1 hp)
  refine ⟨results, ?_⟩
  simp only [invocation, hinst₁, hlookup₁, if_pos hp₁]

/-- **A call of a poisoned instance is refused**: nothing runs, and nothing but loans is touched. -/
theorem call_of_isPoisoned {s : Store σ} {id : InstanceId} {callee : Callee} {args : List Value}
    {holds : List Hold} (hp : s.IsPoisoned id) (hfinds : s.Finds id callee args)
    (hholds : (s.acquireAll holds).1 = .ok ()) :
    (∀ n, (Config.run n (s.callConfig id callee args holds)).control = .done (.error .poisoned)) ∧
      ∀ budget, ∃ t, s.call id callee args holds (budget + 1) = some (.error .poisoned, t) ∧
        t.view Instance.unlent = s.view Instance.unlent ∧ (holds = [] → t = s) := by
  have hview : (s.acquireAll holds).2.view Instance.unlent = s.view Instance.unlent :=
    view_acquireAll (fun _ _ => rfl) holds
  obtain ⟨results, hinvocation⟩ := invocation_of_isPoisoned hp hfinds hview 0
  have hconfig : s.callConfig id callee args holds =
      ⟨(s.acquireAll holds).2, .done (.error .poisoned), [.invocation id holds]⟩ := by
    simp only [callConfig, hinvocation]
  have hend (n : Nat) : Config.run (n + 1) (s.callConfig id callee args holds) =
      ⟨(s.acquireAll holds).2.releaseAll holds, .done (.error .poisoned), []⟩ := by
    rw [hconfig, Config.run]
    exact Config.run_of_isSome rfl n
  refine ⟨fun n => ?_, fun budget => ?_⟩
  · cases n with
    | zero => rw [hconfig]; rfl
    | succ n => rw [hend]
  · refine ⟨(s.acquireAll holds).2.releaseAll holds, ?_, ?_, ?_⟩
    · have heq : s.acquireAll holds = (.ok (), (s.acquireAll holds).2) := Prod.ext hholds rfl
      rw [hconfig] at hend
      rw [call, heq]
      simp only [hinvocation, complete, hend]
      rfl
    · exact (view_releaseAll (fun _ _ => rfl) holds).trans hview
    · rintro rfl
      rfl

/-- **A nested call of a poisoned instance is refused**, too: three steps on, the host function that
made it has its answer. -/
theorem serve_of_isPoisoned {s : Store σ} {pending : List (Pending σ)} {call : HostCall}
    {target : Target} {callee : Callee} {args : List Value} {holds : List Hold}
    {k : Except Error (List Value) → HostProgram σ} {id : InstanceId} {depth : Nat}
    (htarget : callTarget call target = .ok (id, depth)) (hp : s.IsPoisoned id)
    (hfinds : s.Finds id callee args) (hholds : (s.acquireAll holds).1 = .ok ()) :
    ∃ c₁ c₂ t, Config.step ⟨s, .host call (.call target callee args holds k), pending⟩ = c₁ ∧
      c₁.control = .done (.error .poisoned) ∧ c₁.step = c₂ ∧
      c₂.control = .done (.error .poisoned) ∧
      c₂.step = ⟨t, .host call (k (.error .poisoned)), pending⟩ ∧
      t.view Instance.unlent = s.view Instance.unlent ∧ (holds = [] → t = s) := by
  have hview : (s.acquireAll holds).2.view Instance.unlent = s.view Instance.unlent :=
    view_acquireAll (fun _ _ => rfl) holds
  obtain ⟨results, hinvocation⟩ := invocation_of_isPoisoned hp hfinds hview depth
  have heq : s.acquireAll holds = (.ok (), (s.acquireAll holds).2) := Prod.ext hholds rfl
  refine ⟨⟨(s.acquireAll holds).2, .done (.error .poisoned),
    .invocation id holds :: .host call results k :: pending⟩,
    ⟨(s.acquireAll holds).2.releaseAll holds, .done (.error .poisoned),
      .host call results k :: pending⟩,
    (s.acquireAll holds).2.releaseAll holds, ?_, rfl, rfl, rfl, rfl, ?_, ?_⟩
  · simp only [Config.step, serve, htarget]
    rw [heq]
    simp only [hinvocation]
    rfl
  · exact (view_releaseAll (fun _ _ => rfl) holds).trans hview
  · rintro rfl
    rfl

/-! ## Operations -/

variable {s t : Store σ} {id : InstanceId}

theorem marks_callConfig (s : Store σ) (id : InstanceId) (callee : Callee) (args : List Value)
    (holds : List Hold) : (s.callConfig id callee args holds).store.marks = s.marks := by
  obtain ⟨e, s', -, hs, heq⟩ | ⟨s₁, inst, control, s', hs, -, -, he, heq⟩ :=
    callConfig_cases s id callee args holds
  · rw [heq]
    exact marks_eq_of_cores hs
  · rw [heq]
    exact (he.map_eq isFixed_isPoisoned).trans (marks_eq_of_cores hs)

theorem marks_startConfig (s : Store σ) {inst : Instance σ} (hfresh : inst.IsFresh) (func : Nat) :
    (s.startConfig inst func).store.marks = s.marks.push false :=
  ((callFunction_entry ..).map_eq isFixed_isPoisoned).trans (hfresh.isPoisoned ▸ Array.map_push)

theorem size_startConfig (s : Store σ) {inst : Instance σ} (hfresh : inst.IsFresh) (func : Nat) :
    (s.startConfig inst func).store.instances.size = s.instances.size + 1 := by
  rw [← size_marks, marks_startConfig s hfresh, Array.size_push, size_marks]

/-- **Runs start with the marks of the store.** -/
theorem Starts.isPoisoned_iff {root : Option InstanceId} {c : Config σ} (h : s.Starts root c)
    (hid : id < s.instances.size) :
    id < c.store.instances.size ∧ (c.store.IsPoisoned id ↔ s.IsPoisoned id) := by
  rw [← size_marks, isPoisoned_iff_marks, isPoisoned_iff_marks]
  rw [← size_marks] at hid
  cases h with
  | call hholds =>
    rw [marks_callConfig]
    exact ⟨hid, Iff.rfl⟩
  | standalone f args => exact ⟨hid, Iff.rfl⟩
  | start hfresh =>
    rw [marks_startConfig s hfresh, Array.size_push, Array.getElem?_push,
      if_neg (Nat.ne_of_lt hid)]
    exact ⟨Nat.lt_succ_of_lt hid, Iff.rfl⟩

/-- Whether one of some runs ends an invocation of an instance in a trap or in an abort. -/
def EndFatally (runs : List (Config σ × Nat)) (id : InstanceId) : Prop :=
  ∃ c n, (c, n) ∈ runs ∧ ∃ m < n, (Config.run m c).EndsFatally id

theorem endFatally_singleton {c : Config σ} {n : Nat} :
    EndFatally [(c, n)] id ↔ ∃ m < n, (Config.run m c).EndsFatally id := by
  simp [EndFatally]

theorem endFatally_append {runs new : List (Config σ × Nat)} :
    EndFatally (runs ++ new) id ↔ EndFatally runs id ∨ EndFatally new id := by
  simp only [EndFatally, List.mem_append]
  grind

theorem Effect.isPoisoned_iff {runs : List (Config σ × Nat)} (h : s.Effect runs t)
    (hid : id < s.instances.size) :
    id < t.instances.size ∧ (t.IsPoisoned id ↔ s.IsPoisoned id ∨ EndFatally runs id) := by
  have hnil : ¬EndFatally ([] : List (Config σ × Nat)) id := fun h => by
    obtain ⟨c, n, hmem, -⟩ := h
    cases hmem
  cases h with
  | quiet hs =>
    rw [isPoisoned_congr hs, or_iff_left hnil, ← size_cores, hs, size_cores]
    exact ⟨hid, Iff.rfl⟩
  | @create inst hfresh =>
    have hpush : ({ s with instances := s.instances.push inst } : Store σ).IsPoisoned id ↔
        s.IsPoisoned id := by
      rw [IsPoisoned, IsPoisoned, Array.getElem?_push, if_neg (Nat.ne_of_lt hid)]
    rw [hpush, or_iff_left hnil, Array.size_push]
    exact ⟨Nat.lt_succ_of_lt hid, Iff.rfl⟩
  | @run root c n hstart hend =>
    obtain ⟨hlt, hiff⟩ := hstart.isPoisoned_iff hid
    rw [Config.size_run, Config.isPoisoned_run_iff c hlt, hiff, endFatally_singleton]
    exact ⟨hlt, Iff.rfl⟩
  | @undo inst func n hfresh c hc hend =>
    subst hc
    have hstart : s.Starts (some s.instances.size) (s.startConfig inst func) := .start hfresh
    obtain ⟨hlt, hiff⟩ := hstart.isPoisoned_iff hid
    have hsize := size_startConfig s hfresh func
    have hpop (t : Store σ) (ht : t.instances.size = s.instances.size + 1) :
        ({ t with instances := t.instances.pop } : Store σ).IsPoisoned id ↔ t.IsPoisoned id := by
      have hlt : id < t.instances.size - 1 := by rwa [ht]
      rw [IsPoisoned, IsPoisoned, Array.getElem?_pop, if_pos hlt]
    rw [hpop _ ((Config.size_run ..).trans hsize), Array.size_pop, Config.size_run, hsize,
      Config.isPoisoned_run_iff _ hlt, hiff, endFatally_singleton]
    exact ⟨hid, Iff.rfl⟩

/-- **Over a session, an instance is poisoned exactly by the invocations of it that trapped or were
aborted.** -/
theorem Session.isPoisoned_iff {runs : List (Config σ × Nat)} (h : s.Session runs t)
    (hid : id < s.instances.size) :
    id < t.instances.size ∧ (t.IsPoisoned id ↔ s.IsPoisoned id ∨ EndFatally runs id) := by
  induction h with
  | nil =>
    refine ⟨hid, (or_iff_left ?_).symm⟩
    rintro ⟨c, n, hmem, -⟩
    cases hmem
  | step h hop ih =>
    obtain ⟨hlt, hiff⟩ := ih
    obtain ⟨hlt', hiff'⟩ := hop.effect.isPoisoned_iff hlt
    rw [hiff', hiff, endFatally_append, or_assoc]
    exact ⟨hlt', Iff.rfl⟩

/-! ## The laws of poisoning -/

/-- An invocation that is about to end in a run leaves its instance poisoned if it ends fatally, and
not poisoned if it returns. -/
theorem Starts.isPoisoned_of_ends {root : Option InstanceId} {c : Config σ} (h : s.Starts root c)
    (hid : id < c.store.instances.size) {n : Nat} {outcome : Except Error (List Slot)}
    (hends : (Config.run n c).Ends id outcome) :
    (∀ e, outcome = .error e → e.IsFatal → (Config.run (n + 1) c).store.IsPoisoned id) ∧
      ∀ slots, outcome = .ok slots →
        ¬(Config.run n c).store.IsPoisoned id ∧ ¬(Config.run (n + 1) c).store.IsPoisoned id := by
  rw [Config.run_succ, Config.isPoisoned_step_iff _ (by rwa [Config.size_run])]
  refine ⟨?_, ?_⟩
  · rintro e rfl he
    exact .inr ⟨e, he, hends⟩
  · rintro slots rfl
    have hclean := Config.IsClean.run h.isNested h.isClean n
    obtain ⟨hcontrol, holds, pending, hpending⟩ := hends
    have hp : ¬(Config.run n c).store.IsPoisoned id := by
      simp only [Config.IsClean, hcontrol, hpending] at hclean
      exact hclean id rfl
    refine ⟨hp, not_or.2 ⟨hp, ?_⟩⟩
    rintro ⟨e, -, hcontrol', -⟩
    cases hcontrol.symm.trans hcontrol'

theorem size_callConfig (s : Store σ) (id : InstanceId) (callee : Callee) (args : List Value)
    (holds : List Hold) : (s.callConfig id callee args holds).store.instances.size =
      s.instances.size := by
  rw [← size_marks, marks_callConfig, size_marks]

/-- **What a call leaves of its instance.** -/
theorem isPoisoned_of_call {callee : Callee} {args : List Value} {holds : List Hold}
    {budget : Nat} {result : Except Error (List Value)}
    (h : s.call id callee args holds budget = some (result, t)) :
    (∀ e, result = .error e → e.IsFatal → t.IsPoisoned id) ∧
      ∀ values, result = .ok values → ¬t.IsPoisoned id := by
  cases hholds : (s.acquireAll holds).1 with
  | error e =>
    obtain ⟨rfl, -⟩ := call_eq_of_conflict hholds h
    refine ⟨fun e' hr he => ?_, fun values hr => ?_⟩
    · cases hr
      exact he.elim
    · cases hr
  | ok u =>
    obtain ⟨outcome, hout, rfl, rfl⟩ := of_call hholds h
    obtain ⟨e, s', hfatal, -, heq⟩ | ⟨s₁, inst, control, s', hs, hinst, -, he, heq⟩ :=
      callConfig_cases s id callee args holds
    · -- The invocation was refused, and what refuses it poisons nothing.
      have hrun : Config.run (budget + 1) (s.callConfig id callee args holds) =
          ⟨s'.releaseAll holds, .done (.error e), []⟩ := by
        rw [heq, Config.run, Config.step]
        simp only [deliver, if_neg hfatal]
        exact Config.run_of_isSome rfl budget
      have hout' := congrArg Config.outcome? hrun
      rw [Config.run_succ, Config.step_of_isSome (by rw [hout]; rfl), hout] at hout'
      obtain rfl := Option.some.inj hout'
      refine ⟨fun e' hr he => ?_, fun values hr => ?_⟩
      · cases hr
        exact absurd he hfatal
      · cases hr
    · have hid : id < s.instances.size := by
        rw [← size_cores, ← hs, size_cores]
        exact (Array.getElem?_eq_some_iff.1 hinst).1
      have hid' : id < (s.callConfig id callee args holds).store.instances.size := by
        rwa [size_callConfig]
      obtain ⟨m, hm, hends, hrun⟩ := Config.exists_ends_of_run (by rw [heq]) hout
      obtain ⟨hfatal, hok⟩ := Starts.isPoisoned_of_ends (.call hholds) hid' hends
      rw [hrun]
      refine ⟨fun e' hr => ?_, fun values hr => ?_⟩
      · cases outcome with
        | ok slots => cases hr
        | error e => exact hfatal e' (by cases hr; rfl)
      · cases outcome with
        | ok slots => exact (hok slots rfl).2
        | error e => cases hr

/-- A trap or an abort is an outcome of `execute`, and a poisoned instance is what it leaves. -/
theorem isPoisoned_of_execute {name : String} {args : List Value} {budget : Nat}
    {outcome : Outcome} (h : s.execute id name args budget = some (.ok outcome, t)) :
    t.IsPoisoned id ↔ ∀ values, outcome ≠ .returned values := by
  obtain ⟨⟨result, t'⟩, hcall, hr⟩ := Option.map_eq_some_iff.1 h
  obtain ⟨hresult, rfl⟩ := Prod.mk.inj hr
  obtain ⟨hfatal, hok⟩ := isPoisoned_of_call hcall
  cases result with
  | ok values =>
    cases hresult
    exact iff_of_false (hok values rfl) fun h => h values rfl
  | error e =>
    cases e with
    | trap cause =>
      cases hresult
      exact iff_of_true (hfatal _ rfl trivial) fun values h => by cases h
    | hostAbort message =>
      cases hresult
      exact iff_of_true (hfatal _ rfl trivial) fun values h => by cases h
    | _ => cases hresult

theorem IsPoisoned.lt_size (h : s.IsPoisoned id) : id < s.instances.size := by
  by_contra hlt
  rw [IsPoisoned, Array.getElem?_eq_none (Nat.le_of_not_lt hlt)] at h
  cases h

/-- **An outer invocation does not return** once its instance has been poisoned, whatever the host
functions in between do about it. -/
theorem Starts.not_ends_of_isPoisoned {root : Option InstanceId} {c : Config σ}
    (h : s.Starts root c) {m n : Nat} (hmn : m ≤ n) (hp : (Config.run m c).store.IsPoisoned id)
    (slots : List Slot) : ¬(Config.run n c).Ends id (.ok slots) := by
  intro hends
  have hlt := hp.lt_size
  obtain ⟨k, rfl⟩ := Nat.exists_eq_add_of_le hmn
  have hlater : (Config.run (m + k) c).store.IsPoisoned id := by
    rw [Config.run_add]
    exact (Config.isPoisoned_run_iff _ hlt k).2 (.inl hp)
  rw [Config.size_run] at hlt
  exact ((h.isPoisoned_of_ends hlt hends).2 slots rfl).1 hlater

/-- **Instantiation never yields a poisoned instance.** -/
theorem not_isPoisoned_of_instantiate {m : LoadedModule} {imports : Imports σ} {limits : Limits}
    {budget : Nat} (h : s.instantiate m imports limits budget = some (.ok id, t)) :
    id < t.instances.size ∧ ¬t.IsPoisoned id := by
  cases halloc : Instance.allocate m imports limits with
  | error e =>
    simp only [instantiate, halloc] at h
    cases h
  | ok inst =>
    have hfresh := Instance.isFresh_of_allocate halloc
    cases hfunc : m.module.start with
    | none =>
      simp only [instantiate, halloc, hfunc] at h
      cases h
      rw [isPoisoned_iff (getElem?_push_self s inst), hfresh.isPoisoned, Array.size_push]
      exact ⟨Nat.lt_succ_self _, Bool.false_ne_true⟩
    | some func =>
      obtain ⟨outcome, hout, ⟨slots, rfl, hid, rfl⟩ | ⟨e, -, hid, -⟩⟩ :=
        of_instantiate halloc hfunc h
      · obtain rfl := Except.ok.inj hid
        have hstart : s.Starts (some s.instances.size) (s.startConfig inst func) := .start hfresh
        have hclean := Config.IsClean.run hstart.isNested hstart.isClean budget
        rw [Config.size_run, size_startConfig s hfresh]
        refine ⟨Nat.lt_succ_self _, ?_⟩
        generalize Config.run budget (s.startConfig inst func) = c at hout hclean
        obtain ⟨s', control, pending⟩ := c
        unfold Config.outcome? at hout
        split at hout
        · next hcontrol hpending =>
          cases hcontrol
          cases hpending
          obtain rfl := Option.some.inj hout
          exact hclean _ rfl
        · cases hout
      · cases hid

end Store

end WasmEngine
