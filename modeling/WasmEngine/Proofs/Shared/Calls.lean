import WasmEngine.Proofs.Imports.Results
import WasmEngine.Proofs.Shared.Simulation
import WasmEngine.Proofs.Structured.Refinement

/-!
# Proofs/Shared/Calls — a function cannot tell what lies below it, and leaves it alone

A function that a dispatch loop calls works on the stacks of its callers.  It comes to what a call on
a stack of its own comes to, and leaves the stacks with its results in the place of its arguments
(`Shared.call_agrees`): whatever `l` has on its stacks, in whatever order.  On stacks that hold nothing
else, the loop on shared stacks is the machine of `Config.run` (`Shared.run_agrees`).

All this holds up to a fault of the engine.  Where imports declare at most one result no function comes
to a missing operand; a hook that declares two and leaves one makes its caller take a slot from below
(`Shared.call_takes_below`).
-/

namespace WasmEngine

namespace Shared

open Store

variable {σ : Type} {s : Store σ} {inst : Instance σ} {func entry declared : Nat} {type : Signature}
  {args : List Slot}

/-! ## Calls on a stack of their own -/

/-- **Where imports declare at most one result, a function comes to no fault of its own**: what is
borrowed twice is borrowed by host functions. -/
theorem fault_of_calling {id : InstanceId} {depth n : Nat} {loaded : List LoadedModule}
    {fault : Fault} (hinst : s.instances[id]? = some inst)
    (hfunc : inst.functions[func]? = some (.code type entry declared))
    (hargs : args.length = type.params.length) (hsound : s.outline.IsSound loaded)
    (hhonest : (s.calling id func args depth).IsHonest)
    (h : (Config.run n (s.calling id func args depth)).outcome? = some (.error (.fault fault))) :
    fault = .conflictingLoan ∨
      ∃ m < n, (Config.run m (s.calling id func args depth)).HostAnswers (.fault fault) := by
  let E (e : Error) : Prop :=
    e.IsRuntime ∨ ∃ m < n, (Config.run m (s.calling id func args depth)).HostAnswers e
  have hs : s.outline.shapes[id]? = some inst.shape := by
    rw [outline, getElem?_shapes, hinst]
    rfl
  have hstart : (s.calling id func args depth).IsSound E s.outline type.results.length := by
    refine ⟨outline_callFunction .., _, ?_, .nil⟩
    refine callFunction_sound (fun _ he => .inl he) rfl hs (hsound.sound id _ hs) hfunc hargs ?_
    intro e _ he
    have hcontrol : (s.calling id func args depth).control = .done (.error e) := he
    rw [Structured.calling_eq_of_code hinst hfunc] at hcontrol
    cases hnew : Frame.new inst.limits type entry declared args 0 depth with
    | ok frame =>
      rw [hnew] at hcontrol
      cases hcontrol
    | error e' =>
      rw [hnew] at hcontrol
      cases hcontrol
      exact .inl (isRuntime_of_new hnew)
  exact (hstart.run (fun _ he => .inl he) hsound hhonest
    fun m hm e he => .inr ⟨m, hm, he⟩).of_outcome h

/-! ## Calls in a loop -/

/-- A call in a loop begins as on a stack of its own. -/
theorem Loop.mirrors_calling {l : Loop} (hinst : s.instances[l.inst]? = some inst)
    (hfunc : inst.functions[func]? = some (.code type entry declared))
    (hargs : args.length = type.params.length) :
    l.Mirrors (s.calling l.inst func args (l.depth + l.bases.length))
      ((l.push args).callFrom s func) := by
  rw [Structured.calling_eq_of_code hinst hfunc]
  obtain heq | ⟨hlt, heq⟩ := l.callFrom_code 0 hinst hfunc hargs (Nat.zero_le _)
  · rw [heq]
    cases hnew : Frame.new inst.limits type entry declared args 0 (l.depth + l.bases.length) with
    | error e => exact .failed
    | ok frame =>
      obtain ⟨-, hbelow, -, -⟩ := Frame.of_new hnew
      obtain ⟨-, hdepth⟩ := depth_of_new hnew
      exact .runs ⟨hdepth, by rw [hbelow]; exact Nat.zero_add _, trivial⟩
  · rw [heq]
    exact .overflowed (List.ne_nil_of_length_pos hlt)

/-- **A call in a loop ends as on a stack of its own**, and until then changes nothing below it. -/
theorem Loop.Mirrors.exists_ended {l : Loop} {c : Config σ} {x : State σ} {n : Nat}
    {outcome : Except Error (List Slot)} (h : l.Mirrors c x)
    (hlimits : ¬(l.stack ≠ [] ∧ (State.run n x).HasOverflowed))
    (hout : (Config.run n c).outcome? = some outcome) (hfault : ¬IsFault outcome) :
    ∃ m ≤ n, State.run m x = l.after (Config.run n c).store outcome ∧
      ∀ k < m, (State.run k x).LiesAbove l := by
  have hover {m : Nat} (hmn : m ≤ n) : ¬(l.stack ≠ [] ∧ (State.run m x).HasOverflowed) :=
    fun ⟨hne, t, ht⟩ => hlimits ⟨hne, t, State.run_of_done ht hmn⟩
  obtain ⟨m, hmn, heq, hfirst⟩ := Config.exists_first hout
  rw [← heq] at hout ⊢
  refine ⟨m, hmn, ((h.run hfirst).ended hout hfault).resolve_right (hover hmn), fun k hk => ?_⟩
  have hk' : l.Mirrors (Config.run k c) (State.run k x) :=
    h.run fun j hj => hfirst j (Nat.lt_trans hj hk)
  exact (hk'.liesAbove (hfirst k hk)).resolve_right (hover (Nat.le_trans (Nat.le_of_lt hk) hmn))

/-- **A call in a loop agrees with a call on a stack of its own, and changes nothing below it.**  The
loop has `l` on its stacks below the arguments, and goes on at `l.pc`.  Unless the stacks overflow, a
call that returns on a stack of its own puts its results on the stack of the loop, and leaves the same
store and all else of the loop as it was; a call that fails does so in the loop, with the same error and
the same store.  Until then, all of `l` is on the stacks.  Faults of the engine are no errors of a
call.  If the imports of all modules declare at most one result (`Outline.IsSound`), a function comes to
none of its own; otherwise it may miss an operand, and take one that the loop has below it
(`call_takes_below`). -/
theorem call_agrees {l : Loop} (hinst : s.instances[l.inst]? = some inst)
    (hfunc : inst.functions[func]? = some (.code type entry declared))
    (hargs : args.length = type.params.length) (hbases : l.bases ≠ []) (n : Nat)
    (hlimits : ¬(State.run n ((l.push args).callFrom s func)).HasOverflowed) :
    let fresh := s.calling l.inst func args (l.depth + l.bases.length)
    let inLoop := (l.push args).callFrom s func
    ((Config.run n fresh).outcome? = none → (State.run n inLoop).LiesAbove l) ∧
    (∀ results, (Config.run n fresh).outcome? = some (.ok results) →
      ∃ m ≤ n, State.run m inLoop = .loop (Config.run n fresh).store (l.push results) ∧
        ∀ k < m, (State.run k inLoop).LiesAbove l) ∧
    (∀ e, (Config.run n fresh).outcome? = some (.error e) → ¬IsFault (.error e) →
      ∃ m ≤ n, State.run m inLoop = .done (Config.run n fresh).store (.error e) ∧
        ∀ k < m, (State.run k inLoop).LiesAbove l) ∧
    ∀ loaded fault, s.outline.IsSound loaded → fresh.IsHonest →
      (Config.run n fresh).outcome? = some (.error (.fault fault)) →
        fault = .conflictingLoan ∨ ∃ m < n, (Config.run m fresh).HostAnswers (.fault fault) := by
  intro fresh inLoop
  have hstart : l.Mirrors fresh inLoop := Loop.mirrors_calling hinst hfunc hargs
  have hover : ¬(l.stack ≠ [] ∧ (State.run n inLoop).HasOverflowed) := fun h => hlimits h.2
  refine ⟨fun hnone => ?_, fun results hout => ?_, fun e hout hfault => ?_,
    fun loaded fault hsound hhonest => fault_of_calling hinst hfunc hargs hsound hhonest⟩
  · have hn : l.Mirrors (Config.run n fresh) (State.run n inLoop) :=
      hstart.run fun m hm => Config.outcome?_eq_none_of_le hnone (Nat.le_of_lt hm)
    exact (hn.liesAbove hnone).resolve_right hover
  · obtain ⟨m, hmn, hm, hbefore⟩ := hstart.exists_ended hover hout id
    refine ⟨m, hmn, hm.trans ?_, hbefore⟩
    obtain ⟨base, bases, hcons⟩ := List.exists_cons_of_ne_nil hbases
    simp only [Loop.after, Loop.back, Loop.push, Loop.withStack, hcons]
  · exact hstart.exists_ended hover hout hfault

/-- A loop with something on its stacks. -/
def busy : Loop where
  inst := 0
  depth := 0
  pc := 50
  stack := [2, 3]
  labels := [⟨1, 60, 1⟩]
  bases := [⟨0, 0, 0, 1⟩]

/-- The hypotheses are met by a call on top of two slots and a label, which returns on top of them. -/
theorem call_agrees_busy :
    (Config.run 5 (sample.calling 0 0 [1] 1)).outcome? = some (.ok [7]) ∧
    ∃ m ≤ 5, State.run m ((busy.push [1]).callFrom sample 0) =
      .loop (Config.run 5 (sample.calling 0 0 [1] 1)).store { busy with stack := [7, 2, 3] } ∧
        ∀ k < m, (State.run k ((busy.push [1]).callFrom sample 0)).LiesAbove busy := by
  have hout : (Config.run 5 (sample.calling 0 0 [1] 1)).outcome? = some (.ok [7]) := by cbv
  have hlimits : ¬(State.run 5 ((busy.push [1]).callFrom sample 0)).HasOverflowed := by
    have hrun : State.run 5 ((busy.push [1]).callFrom sample 0) =
        .loop sample { busy with stack := [7, 2, 3] } := by cbv
    rintro ⟨t, ht⟩
    rw [hrun] at ht
    cases ht
  have hbases : busy.bases ≠ [] := List.cons_ne_nil _ _
  exact ⟨hout, (call_agrees (l := busy) rfl rfl rfl hbases 5 hlimits).2.1 [7] hout⟩

/-! ## The machine on shared stacks -/

/-- Stacks that hold nothing. -/
def bare (id : InstanceId) (depth : Nat) : Loop where
  inst := id
  depth := depth
  pc := 0
  stack := []
  labels := []
  bases := []

/-- **On stacks of its own, the loop on shared stacks is the machine**: as long as a call lasts, the
stacks are the activations of the machine laid out, and it ends as there. -/
theorem run_agrees {id : InstanceId} {depth : Nat} (hinst : s.instances[id]? = some inst)
    (hfunc : inst.functions[func]? = some (.code type entry declared))
    (hargs : args.length = type.params.length) (n : Nat) :
    let fresh := s.calling id func args depth
    let shared := ((bare id depth).push args).callFrom s func
    ((Config.run n fresh).outcome? = none →
      (bare id depth).Mirrors (Config.run n fresh) (State.run n shared)) ∧
    ∀ outcome, (Config.run n fresh).outcome? = some outcome → ¬IsFault outcome →
      State.run n shared = .done (Config.run n fresh).store outcome := by
  intro fresh shared
  have hstart : (bare id depth).Mirrors fresh shared :=
    (bare id depth).mirrors_calling hinst hfunc hargs
  refine ⟨fun hnone => hstart.run fun m hm =>
    Config.outcome?_eq_none_of_le hnone (Nat.le_of_lt hm), fun outcome hout hfault => ?_⟩
  obtain ⟨m, hmn, hm, -⟩ := hstart.exists_ended (fun h => h.1 rfl) hout hfault
  refine State.run_of_done (hm.trans ?_) hmn
  cases outcome with
  | error e => rfl
  | ok results =>
    change State.done _ (.ok (results.reverse ++ []).reverse) = _
    rw [List.append_nil, List.reverse_reverse]

end Shared

/-! ## A hook that answers too little -/

namespace Module

/-- A module with a function that calls an import of two results and drops both, and a function `f` that
pushes a constant and calls the other one. -/
def droppingBytes : ByteArray :=
  ⟨#[0x00, 0x61, 0x73, 0x6d, 0x01, 0x00, 0x00, 0x00, 0x01, 0x0d, 0x03, 0x60, 0x00, 0x02, 0x7f, 0x7f,
    0x60, 0x00, 0x00, 0x60, 0x00, 0x01, 0x7f, 0x02, 0x07, 0x01, 0x01, 0x61, 0x01, 0x62, 0x00, 0x00,
    0x03, 0x03, 0x02, 0x01, 0x02, 0x05, 0x03, 0x01, 0x00, 0x00, 0x07, 0x05, 0x01, 0x01, 0x66, 0x00,
    0x02, 0x0a, 0x0f, 0x02, 0x06, 0x00, 0x10, 0x00, 0x1a, 0x1a, 0x0b, 0x06, 0x00, 0x41, 0x07, 0x10,
    0x01, 0x0b]⟩

/-- What `droppingBytes` compile to. -/
def dropping : Module :=
  let two : Signature := { params := [], results := [.i32, .i32] }
  let one : Signature := { params := [], results := [.i32] }
  { bytes := droppingBytes, types := #[two, {}, one]
    imports := [{ ref := { module := "a", name := "b" }, kind := .func }]
    functions := #[{ typeIndex := 0, type := two, imported := some { module := "a", name := "b" } },
      { typeIndex := 1, type := {}, locals := [], body := ⟨54, 59⟩ },
      { typeIndex := 2, type := one, locals := [], body := ⟨61, 66⟩ }]
    memory := some { min := 0, max := none }
    exports := [{ name := "f", kind := .func, index := 2 }], sideTable := some [] }

theorem compile_droppingBytes : compile droppingBytes = .ok dropping := by decide +kernel

end Module

namespace Shared

/-- A store with one instance of `Module.dropping`, whose import is bound to `MemoryHook.short`. -/
def dropping : Store Unit where
  instances :=
    #[{ moduleId := 0, module := .dropping, sideTable := []
        functions := #[.imported { params := [], results := [.i32, .i32] }
          { module := "a", name := "b" } (.hook .short), .code {} 54 0,
          .code { params := [], results := [.i32] } 61 0]
        limits := {}, memory := some (Memory.new 0 Memory.maxPages), fuel := none }]
  host := ()
  moduleCount := 1

/-- The loop that has begun with `f`, has pushed the constant and is about to call. -/
def aboutToCall : Loop where
  inst := 0
  depth := 0
  pc := 65
  stack := [7]
  labels := []
  bases := [⟨0, 0, 0, 1⟩]

/-- **A function may take a slot of its caller**: after a hook that declares two results and leaves one,
the second `drop` of the function takes the constant of `f`, and the function is still on the stacks. -/
theorem call_takes_below :
    (∃ imports : Imports Unit, imports.get? { module := "a", name := "b" } = some (.hook .short) ∧
      ({ host := (), moduleCount := 1 } : Store Unit).instantiate ⟨0, .dropping⟩ imports {} 0 =
        some (.ok 0, dropping)) ∧
    Module.compile Module.droppingBytes = .ok .dropping ∧
    State.run 2 ((bare 0 0).callFrom dropping 2) = aboutToCall.callFrom dropping 1 ∧
    ∃ l, State.run 4 (aboutToCall.callFrom dropping 1) = .loop dropping l ∧
      l.bases = ⟨1, 0, 65, 0⟩ :: aboutToCall.bases ∧ aboutToCall.stack = [7] ∧ l.stack = [] ∧
      ¬(State.run 4 (aboutToCall.callFrom dropping 1)).LiesAbove aboutToCall := by
  have hrun : State.run 4 (aboutToCall.callFrom dropping 1) = .loop dropping
      { aboutToCall with pc := 58, stack := [], bases := ⟨1, 0, 65, 0⟩ :: aboutToCall.bases } := by cbv
  refine ⟨⟨⟨[({ module := "a", name := "b" }, .hook .short)]⟩, rfl, by cbv⟩,
    Module.compile_droppingBytes, by cbv, _, hrun, rfl, rfl, rfl, fun habove => ?_⟩
  rw [hrun] at habove
  exact absurd (List.suffix_nil.1 habove.stack) (List.cons_ne_nil 7 [])

end Shared

end WasmEngine
