import WasmEngine.Proofs.Fuel.Metered
import WasmEngine.Proofs.Nesting.Poison

/-!
# Proofs/Fuel/Budget — fuel is an exact budget of instructions

A call that comes to an end does so with any budget that pays for its dispatches, with the same result
and the same store, and what it has not spent is left: `Store.call_setFuel`.  A call in a module
without imports consists of dispatches alone (`Config.IsInside`), so that a budget that does not pay for
all of them ends it after as many as it pays for: `Store.call_outOfFuel`.
-/

namespace WasmEngine

variable {σ : Type}

namespace Store

variable {s t : Store σ} {id i : InstanceId} {callee : Callee} {args : List Value}
  {holds : List Hold}

/-! ## Calls with a budget -/

theorem callConfig_setFuel (a : Option Nat) :
    (s.setFuel id a).callConfig i callee args holds =
      (s.callConfig i callee args holds).setFuel id a := by
  simp only [callConfig, acquireAll_setFuel, refuel, invocation_setFuel]
  rfl

theorem Spares.callConfig (h : s.Spares id) : (s.callConfig i callee args holds).Spares id :=
  Config.spares_iff_runsOnly.2 (BindsOnly.callConfig (P := HostM.Spares id) h i callee args holds)

/-- A call that borrows what it holds is its run. -/
theorem call_eq_run (hholds : (s.acquireAll holds).1 = .ok ()) (budget : Nat) :
    s.call i callee args holds budget =
      (Config.run budget (s.callConfig i callee args holds)).outcome?.map fun outcome =>
        (outcome.map (Value.ofSlots · ((s.acquireAll holds).2.invocation i callee args 0).1.2),
          (Config.run budget (s.callConfig i callee args holds)).store) := by
  have heq : s.acquireAll holds = (.ok (), (s.acquireAll holds).2) := Prod.ext hholds rfl
  rw [call, callConfig]
  rw [heq]
  simp only [complete, Option.map_map]
  rfl

/-- The number of instructions of an instance that a call dispatches. -/
def callDispatches (s : Store σ) (i : InstanceId) (callee : Callee) (args : List Value)
    (holds : List Hold) (budget : Nat) (id : InstanceId) : Nat :=
  ((s.callRuns i callee args holds budget).map fun run => run.1.dispatches id run.2).sum

theorem callDispatches_eq (hholds : (s.acquireAll holds).1 = .ok ()) (budget : Nat) :
    s.callDispatches i callee args holds budget id =
      (s.callConfig i callee args holds).dispatches id budget := by
  simp [callDispatches, callRuns, hholds]

/-- **A budget that pays for all dispatches of a call changes nothing**, and keeps what is left. -/
theorem call_setFuel {budget n : Nat} {result : Except Error (List Value)} (h : s.Spares id)
    (hcall : (s.setFuel id none).call i callee args holds budget = some (result, t))
    (hn : (s.setFuel id none).callDispatches i callee args holds budget id ≤ n) :
    (s.setFuel id (some n)).call i callee args holds budget = some (result, t.setFuel id
      (some (n - (s.setFuel id none).callDispatches i callee args holds budget id))) := by
  have hholds (a : Option Nat) :
      ((s.setFuel id a).acquireAll holds).1 = (s.acquireAll holds).1 := by
    rw [acquireAll_setFuel]
    rfl
  cases hs : (s.acquireAll holds).1 with
  | error e =>
    have hcount : (s.setFuel id none).callDispatches i callee args holds budget id = 0 := by
      simp [callDispatches, callRuns, hholds, hs]
    have hconflict (a : Option Nat) : (s.setFuel id a).call i callee args holds budget =
        some (.error e, (s.acquireAll holds).2.setFuel id a) := by
      have heq : s.acquireAll holds = (.error e, (s.acquireAll holds).2) := Prod.ext hs rfl
      rw [call, acquireAll_setFuel, heq]
      rfl
    rw [hconflict] at hcall
    cases hcall
    rw [hconflict, hcount, setFuel_setFuel]
    rfl
  | ok u =>
    have hok (a : Option Nat) : ((s.setFuel id a).acquireAll holds).1 = .ok () :=
      (hholds a).trans hs
    rw [callDispatches_eq (hok none)] at hn ⊢
    have hresults (a : Option Nat) :
        (((s.setFuel id a).acquireAll holds).2.invocation i callee args 0).1.2 =
          ((s.acquireAll holds).2.invocation i callee args 0).1.2 := by
      rw [acquireAll_setFuel]
      simp only [refuel, invocation_setFuel]
    rw [call_eq_run (hok _), hresults] at hcall ⊢
    obtain ⟨outcome, hout, heq⟩ := Option.map_eq_some_iff.1 hcall
    obtain ⟨rfl, rfl⟩ := Prod.mk.inj heq
    -- The run with the budget is the run without, with what is left of the budget.
    have hnone : ((s.setFuel id none).callConfig i callee args holds).setFuel id none =
        (s.setFuel id none).callConfig i callee args holds := by
      rw [← callConfig_setFuel, setFuel_setFuel]
    have hspares : (s.setFuel id none).Spares id :=
      h.of_map (map_modifyInstance fun _ => rfl)
    obtain ⟨k, rfl⟩ := Nat.exists_eq_add_of_le hn
    have hrun := (Config.run_setFuel (n := budget)
      (fun m _ => .inr (hspares.callConfig.run m)) hnone).2 k
    rw [← callConfig_setFuel, setFuel_setFuel] at hrun
    rw [hrun, Nat.add_sub_cancel_left]
    exact Option.map_eq_some_iff.2 ⟨outcome, hout, rfl⟩

end Store

/-! ## Instances without imports -/

/-- Whether an instance imports nothing. -/
def Instance.IsClosed (inst : Instance σ) : Prop :=
  ∀ (func : Nat) (type : Signature) (ref : ImportName) (binding : ImportBinding σ),
    inst.functions[func]? ≠ some (.imported type ref binding)

/-- **Instances of modules without imports import nothing.** -/
theorem Instance.isClosed_of_allocate {m : LoadedModule} {imports : Imports σ} {limits : Limits}
    {inst : Instance σ} (hm : m.module.Sound) (himports : m.module.imports = [])
    (h : allocate m imports limits = .ok inst) : inst.IsClosed := by
  intro func type ref binding hfunc
  obtain ⟨id, module⟩ := m
  unfold allocate at h
  cases hst : module.sideTable with
  | none =>
    simp only [hst] at h
    cases h
  | some sideTable =>
    simp only [hst] at h
    obtain ⟨functions, hfunctions, h⟩ := Except.bind_eq_ok_iff.1 h
    obtain ⟨memory, -, h⟩ := Except.bind_eq_ok_iff.1 h
    obtain ⟨table, -, h⟩ := Except.bind_eq_ok_iff.1 h
    obtain ⟨globals, -, h⟩ := Except.bind_eq_ok_iff.1 h
    obtain ⟨elements, -, h⟩ := Except.bind_eq_ok_iff.1 h
    obtain ⟨data, -, h⟩ := Except.bind_eq_ok_iff.1 h
    obtain ⟨memory', -, h⟩ := Except.bind_eq_ok_iff.1 h
    cases h
    rw [Array.mapM_eq_mapM_toList] at hfunctions
    obtain ⟨callables, hcallables, rfl⟩ := Except.map_eq_ok_iff.1 hfunctions
    have hresolve := Except.forall₂_of_mapM hcallables
    replace hfunc : callables[func]? = some (.imported type ref binding) :=
      List.getElem?_toArray.symm.trans hfunc
    obtain ⟨hlt, hcallee⟩ := List.getElem?_eq_some_iff.1 hfunc
    have hlt' : func < module.functions.toList.length := hresolve.length_eq ▸ hlt
    have hf : module.functions[func]? = some module.functions.toList[func] := by
      rw [← Array.getElem?_toList]
      exact List.getElem?_eq_getElem hlt'
    have hnone := hm.imported_eq_none himports hf
    have hcode := hresolve.get hlt' hlt
    rw [List.get_eq_getElem, List.get_eq_getElem, hcallee, resolve, hnone] at hcode
    cases hcode

namespace Config

variable {c : Config σ} {id : InstanceId} {holds : List Hold}

/-- Whether an instance without imports is all that an invocation of it is running. -/
structure IsInside (id : InstanceId) (holds : List Hold) (c : Config σ) : Prop where
  run : ∃ r, c.control = .run r ∧ r.inst = id
  pending : c.pending = [.invocation id holds]
  isClosed : ∀ inst, c.store.instances[id]? = some inst → inst.IsClosed

theorem IsInside.dispatchesIn (h : c.IsInside id holds) : c.dispatchesIn id = true := by
  obtain ⟨r, hcontrol, hid⟩ := h.run
  rw [Config.dispatchesIn, hcontrol]
  exact beq_iff_eq.2 hid

/-- **Without imports an invocation dispatches until it ends.** -/
theorem IsInside.step (h : c.IsInside id holds) :
    c.step.IsInside id holds ∨
      ∃ outcome, c.step.control = .done outcome ∧ c.step.pending = [.invocation id holds] := by
  obtain ⟨s, control, ps⟩ := c
  obtain ⟨⟨r, rfl, hid⟩, rfl, hclosed⟩ := h
  have ht := s.dispatch_turn r
  have hclosed' : ∀ inst, (s.dispatch r).store.instances[id]? = some inst → inst.IsClosed := by
    intro inst' hinst' func type ref binding hf
    have hi := congrArg (·[id]?) (ht.map_eq Store.isFixed_functions)
    simp only [Array.getElem?_map, hinst', Option.map_some] at hi
    obtain ⟨inst, hinst, hfunctions⟩ := Option.map_eq_some_iff.1 hi.symm
    exact hclosed inst hinst func type ref binding (hfunctions ▸ hf)
  change (ofTransition (s.dispatch r) _).IsInside id holds ∨ ∃ outcome,
    (ofTransition (s.dispatch r) _).control = .done outcome ∧
      (ofTransition (s.dispatch r) _).pending = [.invocation id holds]
  generalize s.dispatch r = t at ht hclosed'
  cases ht with
  | fail hs => exact .inr ⟨_, rfl, rfl⟩
  | finish hs hr => exact .inr ⟨_, rfl, rfl⟩
  | stay hs hd => exact .inl ⟨⟨_, rfl, hid⟩, rfl, hclosed'⟩
  | enter hs hinst hroom hd hc => exact .inl ⟨⟨_, rfl, hid⟩, rfl, hclosed'⟩
  | leave hs hr hd => exact .inl ⟨⟨_, rfl, hid⟩, rfl, hclosed'⟩
  | «import» hs hinst himport hd he hc => exact absurd himport (hclosed _ (hid ▸ hinst) _ _ _ _)

/-- An invocation with an outcome ends in one step, which is no dispatch. -/
theorem ends_of_done {n : Nat} {outcome : Except Error (List Slot)}
    (hcontrol : (run n c).control = .done outcome)
    (hpending : (run n c).pending = [.invocation id holds]) :
    (run (n + 1) c).outcome?.isSome ∧ c.dispatches id (n + 1) = c.dispatches id n := by
  have hno : (run n c).dispatchesIn id = false := by rw [Config.dispatchesIn, hcontrol]
  refine ⟨?_, by simp [dispatches, hno]⟩
  rw [run_succ]
  generalize run n c = c' at hcontrol hpending
  obtain ⟨s, control, ps⟩ := c'
  cases hcontrol
  cases hpending
  rfl

/-- Without fuel an invocation is poisoned and ends. -/
theorem IsInside.run_outOfFuel (h : c.IsInside id holds) (hlt : id < c.store.instances.size) :
    Config.run 2 (c.setFuel id (some 0)) =
      ⟨((c.store.setFuel id (some 0)).modifyInstance id ({ · with isPoisoned := true })).releaseAll
        holds, .done (.error (.trap .outOfFuel)), []⟩ := by
  obtain ⟨s, control, ps⟩ := c
  obtain ⟨⟨r, rfl, rfl⟩, rfl, -⟩ := h
  have hdispatch : (s.setFuel r.inst (some 0)).dispatch r =
      (s.setFuel r.inst (some 0)).finish (.error (.trap .outOfFuel)) := by
    rw [Store.dispatch, Store.spendFuel_zero hlt]
  have hstep : Config.step ⟨s.setFuel r.inst (some 0), .run r, [.invocation r.inst holds]⟩ =
      ⟨s.setFuel r.inst (some 0), .done (.error (.trap .outOfFuel)),
        [.invocation r.inst holds]⟩ := congrArg (ofTransition · _) hdispatch
  rw [run_succ, run_succ, Config.run]
  exact congrArg Config.step hstep

/-- **Each step of an invocation without imports is a dispatch**, up to its end. -/
theorem isInside_run (h : c.IsInside id holds) (n : Nat) :
    (∀ m ≤ n, (run m c).IsInside id holds ∧ c.dispatches id m = m) ∨
      ∃ budget, (run budget c).outcome?.isSome ∧ c.dispatches id budget ≤ n := by
  induction n with
  | zero =>
    refine .inl fun m hm => ?_
    obtain rfl := Nat.le_zero.1 hm
    exact ⟨h, rfl⟩
  | succ n ih =>
    obtain hall | ⟨budget, hend, hle⟩ := ih
    · obtain ⟨hn, hcount⟩ := hall n (Nat.le_refl n)
      have hcount' : c.dispatches id (n + 1) = n + 1 := by
        simp [dispatches, hcount, hn.dispatchesIn]
      obtain hstep | ⟨outcome, hcontrol, hpending⟩ := hn.step
      · refine .inl fun m hm => ?_
        obtain hm | rfl := Nat.lt_or_eq_of_le hm
        · exact hall m (Nat.lt_succ_iff.1 hm)
        · exact ⟨run_succ n c ▸ hstep, hcount'⟩
      · rw [← run_succ] at hcontrol hpending
        obtain ⟨hend, heq⟩ := ends_of_done hcontrol hpending
        exact .inr ⟨n + 2, hend, by rw [heq, hcount']⟩
    · exact .inr ⟨budget, hend, Nat.le_succ_of_le hle⟩

end Config

namespace Store

variable {s t : Store σ} {id i : InstanceId} {callee : Callee} {args : List Value}
  {holds : List Hold} {inst : Instance σ}

/-- **A call without imports** fails at once, or begins to dispatch. -/
theorem callConfig_isInside (callee : Callee) (args : List Value) (holds : List Hold)
    (hinst : s.instances[id]? = some inst) (hclosed : inst.IsClosed) :
    (∃ outcome s', s.callConfig id callee args holds =
      ⟨s', .done outcome, [.invocation id holds]⟩) ∨
    (s.callConfig id callee args holds).IsInside id holds := by
  obtain ⟨e, s', -, -, heq⟩ | ⟨s₁, inst₁, control, s', hs, hinst₁, -, he, heq⟩ :=
    callConfig_cases s id callee args holds
  · exact .inl ⟨_, _, heq⟩
  · have hfunctions : inst₁.functions = inst.functions := by
      obtain ⟨inst', hinst', hcore⟩ := exists_of_cores hs hinst₁
      obtain rfl := Option.some.inj (hinst'.symm.trans hinst)
      exact (congrArg Instance.functions hcore).symm
    cases he with
    | failed hs => exact .inl ⟨_, _, heq⟩
    | answered hs hp => exact .inl ⟨_, _, heq⟩
    | host args hinst' hbound hroom =>
      obtain rfl := Option.some.inj (hinst₁.symm.trans hinst')
      exact absurd (hfunctions ▸ hbound) (hclosed _ _ _ _)
    | code hinst' hroom hd =>
      rw [heq]
      refine .inr ⟨⟨_, rfl, rfl⟩, rfl, fun inst' hinst' func type ref binding hf => ?_⟩
      obtain rfl := Option.some.inj (hinst₁.symm.trans hinst')
      exact hclosed func type ref binding (hfunctions ▸ hf)

/-- **A call without imports that does not end within a number of dispatches** has dispatched that
many and goes on. -/
theorem isInside_of_call (callee : Callee) (args : List Value) (holds : List Hold)
    (hinst : s.instances[id]? = some inst) (hclosed : inst.IsClosed) {n : Nat}
    (h : ∀ budget, (Config.run budget (s.callConfig id callee args holds)).outcome?.isSome →
      n < (s.callConfig id callee args holds).dispatches id budget) :
    ∀ m ≤ n, (Config.run m (s.callConfig id callee args holds)).IsInside id holds ∧
      (s.callConfig id callee args holds).dispatches id m = m := by
  obtain ⟨outcome, s', heq⟩ | hstart := callConfig_isInside callee args holds hinst hclosed
  · -- What does not begin to dispatch ends without a dispatch.
    have hcontrol : (Config.run 0 (s.callConfig id callee args holds)).control = .done outcome :=
      congrArg Config.control heq
    have hpending : (Config.run 0 (s.callConfig id callee args holds)).pending =
        [.invocation id holds] := congrArg Config.pending heq
    obtain ⟨hend, hcount⟩ := Config.ends_of_done hcontrol hpending
    exact absurd (Nat.lt_of_lt_of_eq (h 1 hend) hcount) (Nat.not_lt_zero n)
  · refine (Config.isInside_run hstart n).resolve_right ?_
    rintro ⟨budget, hend, hle⟩
    exact Nat.not_lt.2 hle (h budget hend)

/-- The budget, the mark, the memory and the globals of an instance. -/
def seen (inst : Instance σ) : Option Nat × Bool × Option Memory × Array Slot :=
  (inst.fuel, inst.isPoisoned, inst.memory, inst.globals)

/-- Giving back what was borrowed changes none of them. -/
theorem exists_of_releaseAll (h : s.instances[id]? = some inst) (holds : List Hold) :
    ∃ inst', (s.releaseAll holds).instances[id]? = some inst' ∧ seen inst' = seen inst := by
  have hview : (s.releaseAll holds).view seen = s.view seen :=
    view_releaseAll (fun _ _ => rfl) holds
  have hid := congrArg (fun v => v.1[id]?) hview
  simp only [view, Array.getElem?_map, h, Option.map_some] at hid
  exact Option.map_eq_some_iff.1 hid

/-- An instance that ran out of fuel is what it was, but poisoned. -/
theorem getElem?_outOfFuel (h : s.instances[id]? = some inst) :
    ((s.setFuel id (some 0)).modifyInstance id ({ · with isPoisoned := true })).instances[id]? =
      some { inst with fuel := some 0, isPoisoned := true } := by
  rw [getElem?_modifyInstance, if_pos rfl, getElem?_setFuel, if_pos rfl, h]
  rfl

/-- **A budget that does not pay for a call without imports** ends it after as many dispatches as it
pays for, with memory and globals as they are then, and poisons the instance. -/
theorem call_outOfFuel (hinst : s.instances[id]? = some inst) (hclosed : inst.IsClosed) {n : Nat}
    (h : ∀ budget,
      ((s.setFuel id none).call id callee args holds budget).isSome →
        n < (s.setFuel id none).callDispatches id callee args holds budget id) :
    ((s.setFuel id none).callConfig id callee args holds).dispatches id n = n ∧
    ∃ t ended stopped, (∀ budget, n + 2 ≤ budget →
      (s.setFuel id (some n)).call id callee args holds budget =
        some (.error (.trap .outOfFuel), t)) ∧
      t.instances[id]? = some ended ∧ ended.fuel = some 0 ∧ ended.isPoisoned = true ∧
      (Config.run n ((s.setFuel id none).callConfig id callee args holds)).store.instances[id]? =
        some stopped ∧ ended.memory = stopped.memory ∧ ended.globals = stopped.globals := by
  have hlt : id < s.instances.size := (Array.getElem?_eq_some_iff.1 hinst).1
  have hholds (a : Option Nat) :
      ((s.setFuel id a).acquireAll holds).1 = (s.acquireAll holds).1 := by
    rw [acquireAll_setFuel]
    rfl
  have hok : (s.acquireAll holds).1 = .ok () := by
    cases hs : (s.acquireAll holds).1 with
    | ok u => rfl
    | error e =>
      have heq : (s.setFuel id none).acquireAll holds =
          (.error e, ((s.setFuel id none).acquireAll holds).2) :=
        Prod.ext ((hholds none).trans hs) rfl
      have hcall := h 0 (by rw [call, heq]; rfl)
      simp [callDispatches, callRuns, hholds, hs] at hcall
  have hok' (a : Option Nat) : ((s.setFuel id a).acquireAll holds).1 = .ok () :=
    (hholds a).trans hok
  obtain ⟨fuel, hinst'⟩ := getElem?_setFuel_of_some hinst id none
  let c := (s.setFuel id none).callConfig id callee args holds
  have hnone : c.setFuel id none = c := by
    rw [← callConfig_setFuel, setFuel_setFuel]
  have hmetered : c.setFuel id (some n) = (s.setFuel id (some n)).callConfig id callee args holds :=
    by rw [← callConfig_setFuel, setFuel_setFuel]
  -- All of the first `n` steps are dispatches.
  have hinside := isInside_of_call callee args holds hinst'
    (fun func type ref binding hf => hclosed func type ref binding hf) (n := n) fun budget hend => by
      rw [← callDispatches_eq (hok' none)]
      refine h budget ?_
      rw [call_eq_run (hok' none), Option.isSome_map]
      exact hend
  obtain ⟨hn, hcount⟩ := hinside n (Nat.le_refl n)
  have hrun : Config.run n (c.setFuel id (some n)) = (Config.run n c).setFuel id (some 0) := by
    have hpaid := (Config.run_setFuel (n := n)
      (fun m hm => .inl (hinside m (Nat.le_of_lt hm)).1.dispatchesIn) hnone).2 0
    rwa [hcount, Nat.add_zero] at hpaid
  have hlt' : id < (Config.run n c).store.instances.size := by
    rw [Config.size_run, size_callConfig]
    exact (Array.getElem?_eq_some_iff.1 hinst').1
  have hend := hn.run_outOfFuel hlt'
  rw [← hrun, ← Config.run_add, hmetered] at hend
  obtain ⟨stopped, hstopped⟩ : ∃ stopped, (Config.run n c).store.instances[id]? = some stopped :=
    ⟨_, Array.getElem?_eq_getElem hlt'⟩
  obtain ⟨ended, hended, hseen⟩ := exists_of_releaseAll (getElem?_outOfFuel hstopped) holds
  obtain ⟨hfuel, hpoisoned, hmemory, hglobals⟩ : ended.fuel = some 0 ∧ ended.isPoisoned = true ∧
      ended.memory = stopped.memory ∧ ended.globals = stopped.globals := by
    simpa [seen] using hseen
  refine ⟨hcount, _, ended, stopped, fun budget hbudget => ?_, hended, hfuel, hpoisoned, hstopped,
    hmemory, hglobals⟩
  have hlast := Config.run_of_le (by rw [hend]; rfl) hbudget
  rw [call_eq_run (hok' _), hlast, hend]
  rfl

theorem spares_sample : sample.Spares 0 := by
  intro i inst func type ref f hinst hf
  have hcode : inst.functions = #[.code { params := [.i32], results := [.i32] } 32 0] := by
    obtain ⟨hi, rfl⟩ := Array.getElem?_eq_some_iff.1 hinst
    obtain rfl : i = 0 := Nat.lt_one_iff.1 hi
    rfl
  rw [hcode] at hf
  obtain ⟨hi, hf⟩ := Array.getElem?_eq_some_iff.1 hf
  obtain rfl : func = 0 := Nat.lt_one_iff.1 hi
  cases hf

/-- At one, the sample takes five dispatches. -/
theorem dispatches_sample :
    (sample.setFuel 0 none).callDispatches 0 (.export "f") [.i32 1] [] 6 0 = 5 := by
  have hdispatches (m : Nat) (hm : m < 6) : (Config.run m ((sample.setFuel 0 none).callConfig 0
      (.export "f") [.i32 1] [])).dispatchesIn 0 = decide (m < 5) := by
    interval_cases m <;> cbv
  rw [callDispatches_eq rfl]
  simp [Config.dispatches, hdispatches]

end Store

end WasmEngine
