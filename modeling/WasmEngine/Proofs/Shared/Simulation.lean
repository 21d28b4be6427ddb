import WasmEngine.Proofs.Nesting.Local
import WasmEngine.Proofs.Shared.Layout

/-!
# Proofs/Shared/Simulation — a call on a stack of its own, and the same call on a shared stack

`Loop.Mirrors` relates a call that runs on a stack of its own to the same call on top of what a loop
has already.  Each step keeps it (`Loop.Mirrors.step`), so that a run keeps it up to the end of the
call (`Loop.Mirrors.run`).  As long as the call lasts, all that was on the stacks before is still there
(`State.LiesAbove`).
-/

namespace WasmEngine.Shared

variable {σ : Type}

namespace Loop

/-! ## Frames that know what lies below them -/

/-- Whether frames, innermost first, count the activations below them, and the slots but for those
that the loop has already. -/
def Carries (l : Loop) : List Frame → Prop
  | [] => True
  | f :: fs =>
    f.depth = l.depth + (l.above fs).bases.length + 1 ∧
      f.below + l.stack.length = (l.above fs).stack.length ∧ l.Carries fs

variable {l : Loop} {f : Frame} {fs : List Frame} {s : Store σ} {c : Config σ} {x : State σ}

theorem above_inst (l : Loop) (fs : List Frame) : (l.above fs).inst = l.inst := by
  induction fs with
  | nil => rfl
  | cons f fs ih => exact ih

theorem above_depth (l : Loop) (fs : List Frame) : (l.above fs).depth = l.depth := by
  induction fs with
  | nil => rfl
  | cons f fs ih => exact ih

theorem Carries.of_fixed {g : Frame} (h : l.Carries (f :: fs)) (hf : g.fixed = f.fixed) :
    l.Carries (g :: fs) := by
  obtain ⟨hdepth, hbelow, hrest⟩ := h
  obtain ⟨-, -, hbelow', hdepth'⟩ := Frame.eq_of_fixed hf
  exact ⟨hdepth'.trans hdepth, hbelow' ▸ hbelow, hrest⟩

/-- A frame that knows what lies below it knows what is on the stacks. -/
theorem Carries.slotCount_eq (h : l.Carries (f :: fs)) :
    f.slotCount + l.stack.length = (l.above (f :: fs)).stack.length := by
  obtain ⟨-, hbelow, -⟩ := h
  change _ = ((l.above fs).enter f).stack.length
  rw [length_stack_enter, Frame.slotCount]
  omega

/-- A frame that knows what lies below it knows how many activations there are. -/
theorem Carries.depth_eq (h : l.Carries (f :: fs)) :
    f.depth = (l.above (f :: fs)).depth + (l.above (f :: fs)).bases.length := by
  rw [above_depth]
  exact h.1.trans (Nat.add_assoc ..)

/-- What a loop comes to when a call on top of its stacks has ended. -/
def after (l : Loop) (s : Store σ) : Except Error (List Slot) → State σ
  | .ok results => (l.push results).back s
  | .error e => .done s (.error e)

/-! ## The simulation -/

/-- A call on a stack of its own, and the same call on top of what the loop `l` has. -/
inductive Mirrors (l : Loop) : Config σ → State σ → Prop where
  | runs {s : Store σ} {f : Frame} {fs : List Frame} (h : l.Carries (f :: fs)) :
      Mirrors l ⟨s, .run ⟨l.inst, f, fs⟩, []⟩ (.loop s (l.above (f :: fs)))
  | awaits {c : Config σ} {f : Frame} {fs : List Frame} (h : l.Carries (f :: fs)) :
      Mirrors l (c.onto [.run ⟨l.inst, f, fs⟩]) (.awaits c (l.above (f :: fs)))
  | returned {s : Store σ} {results : List Slot} :
      Mirrors l ⟨s, .done (.ok results), []⟩ ((l.push results).back s)
  | failed {s : Store σ} {e : Error} : Mirrors l ⟨s, .done (.error e), []⟩ (.done s (.error e))
  /-- Of faults of the engine nothing is said. -/
  | faulted {s : Store σ} {fault : Fault} {x : State σ} :
      Mirrors l ⟨s, .done (.error (.fault fault)), []⟩ x
  /-- There is no room for the call on top of what the loop has. -/
  | overflowed {c : Config σ} {s : Store σ} (h : l.stack ≠ []) : Mirrors l c (.done s stackOverflow)

/-- Leaving a function leaves it on both. -/
theorem mirrors_leave (h : l.Carries (f :: fs)) :
    l.Mirrors (.ofTransition (s.leave ⟨l.inst, f, fs⟩) []) ((l.above (f :: fs)).leave s) := by
  by_cases hn : f.operands.length < f.resultCount
  · simp only [Store.leave, if_pos hn]
    exact .faulted
  · change Mirrors l _ (((l.above fs).enter f).leave s)
    rw [leave_enter _ (Nat.not_lt.1 hn)]
    simp only [Store.leave, if_neg hn]
    cases fs with
    | nil => exact .returned
    | cons caller callers =>
      change Mirrors l _ ((((l.above callers).enter caller).push _).back s)
      rw [push_enter, List.reverse_reverse]
      obtain ⟨-, -, hrest⟩ := h
      exact .runs (hrest.of_fixed rfl)

/-- The arguments of a call, on top of what waits for it. -/
theorem above_eq_push (l : Loop) (f : Frame) (fs : List Frame) (count : Nat) :
    l.above (f :: fs) =
      (l.above (f.withOperands (f.operands.drop count) :: fs)).push
        (f.operands.take count).reverse := by
  change (l.above fs).enter f = ((l.above fs).enter _).push _
  rw [push_enter, List.reverse_reverse]
  simp only [Frame.withOperands, List.take_append_drop]

/-- What is called on top of a frame is called on top of it on both. -/
theorem mirrors_new {inst : Instance σ} {func entry declared : Nat} {type : Signature}
    {args : List Slot} (h : l.Carries (f :: fs)) (hinst : s.instances[l.inst]? = some inst)
    (hfunc : inst.functions[func]? = some (.code type entry declared))
    (hargs : args.length = type.params.length) :
    l.Mirrors (.ofTransition
        (match Frame.new inst.limits type entry declared args f.slotCount f.depth with
        | .ok callee => s.resume ⟨l.inst, callee, f :: fs⟩
        | .error e => s.finish (.error e)) [])
      (((l.above (f :: fs)).push args).callFrom s func) := by
  have hslots := h.slotCount_eq
  obtain heq | ⟨hlt, heq⟩ := callFrom_code (l := l.above (f :: fs)) f.slotCount
    (by rw [above_inst, hinst]) hfunc hargs (by omega)
  · rw [heq, ← h.depth_eq]
    cases hnew : Frame.new inst.limits type entry declared args f.slotCount f.depth with
    | error e => exact .failed
    | ok callee =>
      obtain ⟨-, hbelow, -, -⟩ := Frame.of_new hnew
      obtain ⟨-, hdepth⟩ := Store.depth_of_new hnew
      rw [h.depth_eq, above_depth] at hdepth
      exact .runs ⟨hdepth, hbelow ▸ hslots, h⟩
  · rw [heq]
    refine .overflowed fun hnil => ?_
    rw [hnil] at hslots
    exact absurd hslots (Nat.ne_of_lt hlt)

/-- Calling a function calls it on both. -/
theorem mirrors_callFrom (h : l.Carries (f :: fs)) (func : Nat) :
    l.Mirrors (.ofTransition (s.callFrom ⟨l.inst, f, fs⟩ func) [])
      ((l.above (f :: fs)).callFrom s func) := by
  cases hinst : s.instances[l.inst]? with
  | none =>
    simp only [Store.callFrom, hinst]
    exact .faulted
  | some inst =>
    cases hfunc : inst.functions[func]? with
    | none =>
      simp only [Store.callFrom, hinst, hfunc]
      exact .faulted
    | some callee =>
      by_cases hcount : f.operands.length < callee.type.params.length
      · simp only [Store.callFrom, hinst, hfunc, if_pos hcount]
        exact .faulted
      · have hcount' := Nat.not_lt.1 hcount
        have hargs : (f.operands.take callee.type.params.length).reverse.length =
            callee.type.params.length := by
          rw [List.length_reverse, List.length_take]
          exact Nat.min_eq_left hcount'
        have hcaller : l.Carries
            (f.withOperands (f.operands.drop callee.type.params.length) :: fs) := h.of_fixed rfl
        rw [above_eq_push l f fs callee.type.params.length]
        cases callee with
        | imported type ref binding =>
          rw [Store.callFrom_imported hinst hfunc hcount', callFrom_imported
            (by rw [above_inst, hinst]) hfunc hargs, above_inst, ← hcaller.depth_eq]
          exact .awaits (c := ⟨_, _, []⟩) hcaller
        | code type entry declared =>
          rw [Store.callFrom_code hinst hfunc hcount']
          exact mirrors_new hcaller hinst hfunc hargs

/-- An access is made on both. -/
theorem mirrors_access (h : l.Carries (f :: fs)) (i : Instr BlockJump) :
    l.Mirrors (.ofTransition
        (match s.access l.inst i f.operands with
        | (.ok operands, s) => s.resume ⟨l.inst, f.withOperands operands, fs⟩
        | (.error e, s) => s.finish (.error e)) [])
      (match s.access (l.above (f :: fs)).inst i (l.above (f :: fs)).stack with
      | (.ok stack, s) => .loop s ((l.above (f :: fs)).withStack stack)
      | (.error e, s) => .done s (.error e)) := by
  have haccess := s.access_append l.inst i f.operands
    (f.locals.toList.reverse ++ (l.above fs).stack)
  rw [above_inst, show (l.above (f :: fs)).stack =
    f.operands ++ (f.locals.toList.reverse ++ (l.above fs).stack) from rfl]
  generalize s.access l.inst i f.operands = start at haccess ⊢
  obtain ⟨outcome, t⟩ := start
  obtain ⟨fault, rfl⟩ | haccess := haccess
  · exact .faulted
  · rw [haccess]
    cases outcome with
    | error e => exact .failed
    | ok operands => exact .runs (h.of_fixed (g := f.withOperands operands) rfl)

/-- An instruction that needs more than the activation does the same on both. -/
theorem mirrors_execOutside (h : l.Carries (f :: fs)) (i : Instr BlockJump) :
    l.Mirrors (.ofTransition (s.execOutside ⟨l.inst, f, fs⟩ i) [])
      ((l.above (f :: fs)).execOutside s i) := by
  have haccess := mirrors_access (s := s) h i
  cases i with
  | call func => exact mirrors_callFrom h func
  | callIndirect type table =>
    cases hops : f.operands with
    | nil =>
      simp only [Store.execOutside, hops]
      exact .faulted
    | cons slot rest =>
      have hstack : (l.above (f :: fs)).stack =
          slot :: (rest ++ (f.locals.toList.reverse ++ (l.above fs).stack)) :=
        congrArg (· ++ _) hops
      simp only [Store.execOutside, execOutside, hops, hstack, above_inst]
      cases s.tableEntry l.inst type slot.toUInt32.toNat with
      | error e => exact .failed
      | ok func => exact mirrors_callFrom (h.of_fixed (g := f.withOperands rest) rfl) func
  | _ => exact haccess

/-- **The next instruction does the same on both.** -/
theorem mirrors_dispatch (h : l.Carries (f :: fs)) :
    l.Mirrors (.ofTransition (s.dispatch ⟨l.inst, f, fs⟩) []) ((l.above (f :: fs)).dispatch s) := by
  have hpc : (l.above (f :: fs)).pc = f.pc := rfl
  have hloop (pc : Nat) : ({ l.above (f :: fs) with inst := l.inst, pc } : Loop) =
      (l.above fs).enter { f with pc } := by
    rw [← above_inst l fs]
    rfl
  simp only [Store.dispatch, dispatch, above_inst, hpc]
  obtain ⟨_ | _, t⟩ := s.spendFuel l.inst
  · exact .failed
  · simp only
    cases t.fetch? l.inst f.pc with
    | none => exact .faulted
    | some next =>
      obtain ⟨i, pc⟩ := next
      simp only [hloop]
      obtain ⟨fault, hfault⟩ | hfollows := (l.above fs).follows_exec { f with pc } f.pc i
      · rw [hfault]
        exact .faulted
      · rw [hfollows]
        cases hexec : ({ f with pc } : Frame).exec f.pc i with
        | error e => exact .failed
        | ok flow =>
          have hfixed := Frame.fixed_of_exec hexec
          cases flow with
          | next f' => exact .runs (h.of_fixed hfixed)
          | leave f' => exact mirrors_leave (h.of_fixed hfixed)
          | outside f' => exact mirrors_execOutside (h.of_fixed hfixed) i

/-- **A step keeps a call mirrored**, as long as it lasts. -/
theorem Mirrors.step (h : l.Mirrors c x) (hc : c.outcome? = none) : l.Mirrors c.step x.step := by
  cases h with
  | runs h => exact mirrors_dispatch h
  | @awaits c f fs h =>
    cases hout : c.outcome? with
    | none =>
      rw [Config.step_onto hout, State.step, hout]
      exact .awaits h
    | some outcome =>
      -- The call of the import has ended: its outcome goes to the loop.
      rw [Config.eq_of_outcome? hout]
      cases outcome with
      | error e => exact .failed
      | ok results =>
        change Mirrors l _ (.loop c.store (((l.above fs).enter f).push results))
        rw [push_enter]
        exact .runs (h.of_fixed rfl)
  | returned => cases hc
  | failed => cases hc
  | faulted => cases hc
  | overflowed h => exact .overflowed h

/-- **A run keeps a call mirrored**, up to its end. -/
theorem Mirrors.run {n : Nat} (h : l.Mirrors c x) (hc : ∀ m < n, (Config.run m c).outcome? = none) :
    l.Mirrors (Config.run n c) (State.run n x) := by
  induction n with
  | zero => exact h
  | succ n ih =>
    rw [Config.run_succ, State.run_succ]
    exact (ih fun m hm => hc m (Nat.lt_succ_of_lt hm)).step (hc n (Nat.lt_succ_self n))

/-! ## What lies below -/

/-- Whether a loop has all that `l` has on its stacks, and an activation more. -/
structure LiesAbove (l l' : Loop) : Prop where
  stack : l.stack <:+ l'.stack
  labels : l.labels <:+ l'.labels
  bases : l.bases <:+ l'.bases
  length_lt : l.bases.length < l'.bases.length

theorem LiesAbove.trans {l' l'' : Loop} (h : l.LiesAbove l') (h' : l'.LiesAbove l'') :
    l.LiesAbove l'' where
  stack := h.stack.trans h'.stack
  labels := h.labels.trans h'.labels
  bases := h.bases.trans h'.bases
  length_lt := Nat.lt_trans h.length_lt h'.length_lt

theorem liesAbove_enter (l : Loop) (f : Frame) : l.LiesAbove (l.enter f) where
  stack := (List.suffix_append ..).trans (List.suffix_append ..)
  labels := List.suffix_append ..
  bases := List.suffix_cons ..
  length_lt := Nat.lt_succ_self _

theorem liesAbove_above (l : Loop) (f : Frame) (fs : List Frame) :
    l.LiesAbove (l.above (f :: fs)) := by
  induction fs generalizing f with
  | nil => exact l.liesAbove_enter f
  | cons g fs ih => exact (ih g).trans (liesAbove_enter _ f)

end Loop

namespace State

/-- Whether what a loop has come to has all that `l` has on its stacks, and an activation more. -/
def LiesAbove (l : Loop) : State σ → Prop
  | loop _ l' => l.LiesAbove l'
  | awaits _ l' => l.LiesAbove l'
  | done _ _ => False

/-- Whether a stack has overflowed. -/
def HasOverflowed (x : State σ) : Prop := ∃ s, x = done s stackOverflow

end State

namespace Loop.Mirrors

variable {l : Loop} {c : Config σ} {x : State σ}

/-- **As long as a call lasts, all that was on the stacks before is still there**, unless they
overflow. -/
theorem liesAbove (h : l.Mirrors c x) (hc : c.outcome? = none) :
    x.LiesAbove l ∨ l.stack ≠ [] ∧ x.HasOverflowed := by
  cases h with
  | runs h => exact .inl (l.liesAbove_above ..)
  | awaits h => exact .inl (l.liesAbove_above ..)
  | returned => cases hc
  | failed => cases hc
  | faulted => cases hc
  | overflowed h => exact .inr ⟨h, _, rfl⟩

/-- **When a call has ended, it has ended on both**, unless the stacks overflow. -/
theorem ended {outcome : Except Error (List Slot)} (h : l.Mirrors c x)
    (hc : c.outcome? = some outcome) (hfault : ¬Store.IsFault outcome) :
    x = l.after c.store outcome ∨ l.stack ≠ [] ∧ x.HasOverflowed := by
  cases h with
  | runs h => cases hc
  | @awaits c f fs h =>
    obtain ⟨s, control, pending⟩ := c
    have hp : pending ++ [.run ⟨l.inst, f, fs⟩] = [] :=
      congrArg Config.pending (Config.eq_of_outcome? hc)
    simp at hp
  | returned =>
    cases hc
    exact .inl rfl
  | failed =>
    cases hc
    exact .inl rfl
  | faulted =>
    cases hc
    exact absurd trivial hfault
  | overflowed h => exact .inr ⟨h, _, rfl⟩

end Loop.Mirrors

end WasmEngine.Shared
