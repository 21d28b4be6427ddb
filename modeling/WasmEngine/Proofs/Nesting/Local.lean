import WasmEngine.Proofs.Nesting.Stack

/-!
# Proofs/Nesting/Local — a call does not see what waits below it

A step looks at what is in control and at the innermost of what waits.  So a call runs alike with more
waiting below it, up to the step in which it ends (`Config.step_onto`, `Config.run_onto`), and then its
outcome goes to what waits (`Config.exists_delivered`).
-/

namespace WasmEngine

variable {σ : Type}

namespace Config

/-- The configuration with more waiting below. -/
def onto (c : Config σ) (ps : List (Pending σ)) : Config σ := { c with pending := c.pending ++ ps }

variable {c : Config σ} {n : Nat}

theorem ofTransition_onto (t : Transition σ) (qs ps : List (Pending σ)) :
    ofTransition t (qs ++ ps) = (ofTransition t qs).onto ps :=
  congrArg (Config.mk t.store t.control) (List.append_assoc ..).symm

/-- What has come to an outcome. -/
theorem eq_of_outcome? {outcome : Except Error (List Slot)} (h : c.outcome? = some outcome) :
    c = ⟨c.store, .done outcome, []⟩ := by
  obtain ⟨s, control, ps⟩ := c
  cases control with
  | run r => cases h
  | host call program => cases h
  | done outcome' =>
    cases ps with
    | nil =>
      cases h
      rfl
    | cons p ps => cases h

/-- **A step does not see what waits below**, as long as the call has not ended. -/
theorem step_onto (h : c.outcome? = none) (ps : List (Pending σ)) :
    (c.onto ps).step = c.step.onto ps := by
  obtain ⟨s, control, qs⟩ := c
  cases control with
  | run r => exact ofTransition_onto ..
  | host call program => exact ofTransition_onto ..
  | done outcome =>
    cases qs with
    | nil => cases h
    | cons q qs => exact ofTransition_onto ..

/-- **A run does not see what waits below**, up to the end of the call. -/
theorem run_onto (h : ∀ m < n, (run m c).outcome? = none) (ps : List (Pending σ)) :
    run n (c.onto ps) = (run n c).onto ps := by
  induction n with
  | zero => rfl
  | succ n ih =>
    rw [run_succ, run_succ, ih fun m hm => h m (Nat.lt_succ_of_lt hm)]
    exact step_onto (h n (Nat.lt_succ_self n)) ps

/-- A run that has not ended had not ended before. -/
theorem outcome?_eq_none_of_le {m : Nat} (h : (run n c).outcome? = none) (hmn : m ≤ n) :
    (run m c).outcome? = none := by
  cases hm : (run m c).outcome? with
  | none => rfl
  | some outcome => rw [run_of_le (by rw [hm]; rfl) hmn, hm] at h; cases h

/-- **A run that ends does so at some step**, and not before. -/
theorem exists_first {outcome : Except Error (List Slot)} (h : (run n c).outcome? = some outcome) :
    ∃ m ≤ n, run m c = run n c ∧ ∀ k < m, (run k c).outcome? = none := by
  induction n with
  | zero => exact ⟨0, Nat.le_refl 0, rfl, fun k hk => absurd hk (Nat.not_lt_zero k)⟩
  | succ n ih =>
    cases hn : (run n c).outcome? with
    | some outcome' =>
      have heq : run (n + 1) c = run n c := run_of_le (by rw [hn]; rfl) (Nat.le_succ n)
      obtain ⟨m, hm, hrun, hfirst⟩ := ih (heq ▸ h)
      exact ⟨m, Nat.le_succ_of_le hm, hrun.trans heq.symm, hfirst⟩
    | none =>
      exact ⟨n + 1, Nat.le_refl _, rfl, fun k hk =>
        outcome?_eq_none_of_le hn (Nat.lt_succ_iff.1 hk)⟩

/-- **What waits for a call gets its outcome**, from the store that the call leaves. -/
theorem exists_delivered {outcome : Except Error (List Slot)}
    (h : (run n c).outcome? = some outcome) : ∃ m ≤ n, ∀ (p : Pending σ) (ps : List (Pending σ)),
      run (m + 1) (c.onto (p :: ps)) = ofTransition ((run n c).store.deliver outcome p) ps := by
  obtain ⟨m, hmn, heq, hfirst⟩ := exists_first h
  refine ⟨m, hmn, fun p ps => ?_⟩
  rw [run_succ, run_onto hfirst, heq, eq_of_outcome? h]
  rfl

end Config

/-! ## Calls from a frame -/

/-- **A new frame** has no operands, and its locals fit on top of what is below. -/
theorem Frame.of_new {limits : Limits} {type : Signature} {entry declared below depth : Nat}
    {args : List Slot} {frame : Frame}
    (h : Frame.new limits type entry declared args below depth = .ok frame) :
    frame.operands = [] ∧ frame.below = below ∧ frame.locals.size = args.length + declared ∧
      below + frame.locals.size ≤ limits.maxValueStack := by
  unfold Frame.new at h
  split at h
  · cases h
  · split at h
    · cases h
    · next hfits =>
      cases h
      have hsize : (args.toArray ++ Array.replicate declared 0).size = args.length + declared := by
        simp
      refine ⟨rfl, rfl, hsize, ?_⟩
      rw [hsize]
      omega

namespace Store

variable {s : Store σ} {id : InstanceId} {inst : Instance σ} {frame : Frame} {callers : List Frame}
  {func : Nat} {type : Signature}

/-- What a function of the module begins with when it is called from a frame. -/
theorem callFrom_code {entry declared : Nat} (hinst : s.instances[id]? = some inst)
    (hfunc : inst.functions[func]? = some (.code type entry declared))
    (hcount : type.params.length ≤ frame.operands.length) :
    let caller := frame.withOperands (frame.operands.drop type.params.length)
    s.callFrom ⟨id, frame, callers⟩ func =
      match Frame.new inst.limits type entry declared
          (frame.operands.take type.params.length).reverse caller.slotCount frame.depth with
      | .ok callee => s.resume ⟨id, callee, caller :: callers⟩
      | .error e => s.finish (.error e) := by
  have hlt : ¬frame.operands.length <
      (Callable.code type entry declared : Callable σ).type.params.length := Nat.not_lt.2 hcount
  simp only [callFrom, hinst, hfunc, if_neg hlt]
  rfl

/-- What an import begins with when it is called from a frame, which waits for it. -/
theorem callFrom_imported {ref : ImportName} {binding : ImportBinding σ}
    (hinst : s.instances[id]? = some inst)
    (hfunc : inst.functions[func]? = some (.imported type ref binding))
    (hcount : type.params.length ≤ frame.operands.length) :
    let caller := frame.withOperands (frame.operands.drop type.params.length)
    let start := s.callImport id type ref binding
      (frame.operands.take type.params.length).reverse frame.depth
    s.callFrom ⟨id, frame, callers⟩ func = ⟨start.2, start.1, [.run ⟨id, caller, callers⟩]⟩ := by
  have hlt : ¬frame.operands.length <
      (Callable.imported type ref binding).type.params.length := Nat.not_lt.2 hcount
  simp only [callFrom, hinst, hfunc, if_neg hlt]
  rfl

end Store

end WasmEngine
