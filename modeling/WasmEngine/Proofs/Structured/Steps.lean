import WasmEngine.Proofs.Structured.Machine

/-!
# Proofs/Structured/Steps — the machine on blocks, branches and calls

One lemma for each thing that the machine does between the instructions of a block: it enters blocks
and loops (`Machine.Loads.step_opened`, `step_loop`), passes their ends (`reaches_closed`), calls
functions (`step_call`) and leaves them (`reaches_left`).  `Machine.Lands` says where an exit of code
leads to.
-/

namespace WasmEngine

namespace Config

variable {σ : Type} {c c' c'' : Config σ}

/-- Whether a configuration comes to another in some number of steps. -/
def Reaches (c c' : Config σ) : Prop := ∃ n, run n c = c'

theorem Reaches.refl (c : Config σ) : c.Reaches c := ⟨0, rfl⟩

theorem Reaches.trans (h : c.Reaches c') (h' : c'.Reaches c'') : c.Reaches c'' := by
  obtain ⟨m, rfl⟩ := h
  obtain ⟨n, rfl⟩ := h'
  exact ⟨m + n, run_add m n c⟩

theorem Reaches.step (hc : c.outcome? = none) (h : c.step = c') : c.Reaches c' :=
  ⟨1, by rw [run, hc, ← h]; rfl⟩

/-- **A run goes on from wherever it comes to**, within its budget. -/
theorem Reaches.run_eq (h : c.Reaches c') {n : Nat} (hn : (run n c).outcome?.isSome) :
    run n c' = run n c := by
  obtain ⟨m, rfl⟩ := h
  rw [← run_add, Nat.add_comm, run_of_le hn (Nat.le_add_right n m)]

end Config

namespace Structured

variable {σ : Type} {M : Machine σ} {p : Program} {f : Function} {a : Activation}
  {pc q q₁ q₂ n depth : Nat} {below under : List Slot} {x y z : Conf} {e e' : Exit} {c c' : Config σ}
  {i : Instr BlockJump}

/-- An activation inside of one more block. -/
def Activation.inside (a : Activation) (label : Label) : Activation :=
  { a with labels := label :: a.labels }

/-- The activation of a function that is called.  The caller waits for it without the arguments. -/
def Activation.calling (a : Activation) (pc : Nat) (below : List Slot) (x : Conf) (g : Func) :
    Activation where
  labels := []
  resultCount := g.type.results.length
  base := (a.frame pc below x).slotCount
  depth := a.depth + 1
  callers := a.frame pc below x :: a.callers

/-- `M.Lands a q below e c`: code that ends at `q` and is left by `e` makes the machine come to `c`.
-/
inductive Machine.Lands (M : Machine σ) (a : Activation) (q : Nat) (below : List Slot) :
    Exit → Config σ → Prop where
  | normal {w} : Lands M a q below (.normal w) (M.running a q below w)
  | branch {d w label labels} (h : a.labels.drop d = label :: labels)
      (harity : label.arity ≤ w.operands.length) (hheight : label.height ≤ below.length) :
      Lands M a q below (.branch d w) (M.running { a with labels } label.target
        (below.drop (below.length - label.height))
        (w.withOperands (w.operands.take label.arity)))
  /-- A branch past all blocks leaves the function. -/
  | leave {d w} (h : a.labels.drop d = []) (hn : a.resultCount ≤ w.operands.length) :
      Lands M a q below (.branch d w) (M.left a w)
  | ret {w} (hn : a.resultCount ≤ w.operands.length) : Lands M a q below (.ret w) (M.left a w)
  | trap {t w} : Lands M a q below (.trap t w) (M.finished w (.error (.trap t)))

namespace Machine

/-! ## Branches and returns -/

theorem onward_leave (hn : a.resultCount ≤ x.operands.length) :
    M.onward a.callers x i (.ok (.leave (a.frame pc below x))) = M.left a x := by
  have hlt : ¬(x.operands ++ below).length < a.resultCount := by
    rw [List.length_append]
    omega
  have htake : (x.operands ++ below).take a.resultCount = x.operands.take a.resultCount :=
    List.take_append_of_le_length hn
  simp only [onward, Store.leave, Activation.frame, if_neg hlt, htake, left]
  cases a.callers <;> rfl

/-- **A branch lands where its label says.** -/
theorem onward_branch {r : Nat} (h : M.Lands a q below (.branch depth x) c) :
    M.onward a.callers x i ((a.frame r below x).branch depth) = c := by
  cases h with
  | @branch _ _ label labels h harity hheight =>
    have hlt : ¬(x.operands ++ below).length < label.height + label.arity := by
      rw [List.length_append]
      omega
    have htake : (x.operands ++ below).take label.arity = x.operands.take label.arity :=
      List.take_append_of_le_length harity
    have hsize : (x.operands ++ below).length - label.height =
        x.operands.length + (below.length - label.height) := by
      rw [List.length_append]
      omega
    have hdrop : (x.operands ++ below).drop ((x.operands ++ below).length - label.height) =
        below.drop (below.length - label.height) := by
      rw [hsize, List.drop_length_add_append]
    simp only [Frame.branch, Activation.frame, h, if_neg hlt, htake, hdrop]
    rfl
  | leave h hn =>
    simp only [Frame.branch, Activation.frame, h]
    exact onward_leave hn

/-! ### Where instructions lead -/

variable {t : Trap}

theorem Goes.next_eq (h : M.Goes p a pc below x (.next y) c) : c = M.running a pc below y := by
  cases h
  rfl

theorem Goes.eq_of_lands_trap (h : M.Goes p a pc below x (.trap t) c)
    (hl : M.Lands a q below (.trap t x) c') : c = c' := by
  cases h
  cases hl
  rfl

theorem Goes.eq_of_lands_branch (h : M.Goes p a pc below x (.branch depth y) c)
    (hl : M.Lands a q below (.branch depth y) c') : c = c' := by
  cases h
  exact onward_branch hl

theorem Goes.eq_of_lands_ret (h : M.Goes p a pc below x (.ret y) c)
    (hl : M.Lands a q below (.ret y) c') : c = c' := by
  cases h
  cases hl with
  | ret hn => exact onward_leave hn

/-- What leaves the block that the code belongs to leaves the code around it. -/
theorem Lands.outer {label : Label} (he : e.outer? = some e') (h : M.Lands a q below e' c) :
    M.Lands (a.inside label) q₁ (under ++ below) e c := by
  cases e with
  | normal x => cases he
  | branch depth x =>
    cases depth with
    | zero => cases he
    | succ depth =>
      cases he
      cases h with
      | @branch _ _ target labels h harity hheight =>
        have hle : target.height ≤ (under ++ below).length := by
          rw [List.length_append]
          omega
        have hsize : (under ++ below).length - target.height =
            under.length + (below.length - target.height) := by
          rw [List.length_append]
          omega
        have hl := Lands.branch (M := M) (a := a.inside label) (q := q₁) (d := depth + 1) h harity
          hle
        rwa [hsize, List.drop_length_add_append] at hl
      | leave h hn => exact .leave h hn
  | ret x =>
    cases he
    cases h with
    | ret hn => exact .ret hn
  | trap t x =>
    cases he
    cases h with
    | trap => exact .trap

/-! ## The ends of blocks -/

theorem Loads.step_end (hM : M.Loads p) {label : Label}
    (hf : Instr.fetch M.inst.module.bytes M.inst.sideTable q₁ = some (.endMark, q₂)) :
    (M.running (a.inside label) q₁ below x).step = M.running a q₂ below x := by
  rw [hM.step_running hf]
  rfl

theorem lands_start {target : Nat} (hn : n ≤ x.operands.length) :
    M.Lands (a.inside ⟨below.length, target, n⟩) q below (.branch 0 x)
      (M.running a target below (x.withOperands (x.operands.take n))) := by
  have h := Lands.branch (M := M) (a := a.inside ⟨below.length, target, n⟩) (q := q) (d := 0) rfl hn
    (Nat.le_refl _)
  rwa [Nat.sub_self, List.drop_zero] at h

theorem running_append :
    M.running a pc (under ++ below) x = M.running a pc below (x.withOperands (x.operands ++ under)) := by
  simp only [running, Activation.frame, Conf.withOperands, List.append_assoc]

/-- The mark behind the code of a block: the end, or the `else` of the other half. -/
def IsMark (M : Machine σ) (q₁ q₂ : Nat) : Prop :=
  Instr.fetch M.inst.module.bytes M.inst.sideTable q₁ = some (.endMark, q₂) ∨
    ∃ q, Instr.fetch M.inst.module.bytes M.inst.sideTable q₁ = some (.elseMark, q)

/-- **Behind a block** the machine goes on as the block is closed. -/
theorem Loads.reaches_closed (hM : M.Loads p) (hmark : M.IsMark q₁ q₂)
    (hz : e.closed? n under = some z) :
    ∃ c, M.Lands (a.inside ⟨(under ++ below).length, q₂, n⟩) q₁ (under ++ below) e c ∧
      c.Reaches (M.running a q₂ below z) := by
  cases e with
  | normal x =>
    simp only [Exit.closed?] at hz
    split at hz
    · next hn =>
      cases hz
      subst hn
      refine ⟨_, .normal, .step rfl ?_⟩
      rw [← running_append]
      obtain hf | ⟨q, hf⟩ := hmark
      · exact hM.step_end hf
      · -- The `else` between the halves of an `if` is a branch to its end.
        rw [hM.step_running hf]
        have hlands : M.Lands (a.inside ⟨(under ++ below).length, q₂, x.operands.length⟩) q
            (under ++ below) (.branch 0 x) _ := lands_start (Nat.le_refl x.operands.length)
        have h := onward_branch (r := q) (i := .elseMark) hlands
        rw [List.take_length] at h
        exact h
    · cases hz
  | branch depth x =>
    cases depth with
    | zero =>
      simp only [Exit.closed?] at hz
      split at hz
      · next hn =>
        cases hz
        refine ⟨_, lands_start hn, ?_⟩
        rw [running_append]
        exact .refl _
      · cases hz
    | succ depth => cases hz
  | ret x | trap t x => cases hz

/-- Behind a loop the machine goes on as the loop is passed. -/
theorem Loads.reaches_passed (hM : M.Loads p) (label : Label)
    (hf : Instr.fetch M.inst.module.bytes M.inst.sideTable q₁ = some (.endMark, q₂))
    (hz : e.passed? n under = some z) :
    ∃ c, M.Lands (a.inside label) q₁ (under ++ below) e c ∧
      c.Reaches (M.running a q₂ below z) := by
  cases e with
  | normal x =>
    simp only [Exit.passed?] at hz
    split at hz
    · cases hz
      refine ⟨_, .normal, .step rfl ?_⟩
      rw [← running_append]
      exact hM.step_end hf
    · cases hz
  | branch depth x | ret x | trap t x => cases hz

/-- A branch to a loop leads to its start. -/
theorem lands_again (hz : e.again? n under = some z) :
    M.Lands (a.inside ⟨(under ++ below).length, pc, n⟩) q (under ++ below) e
      (M.running a pc below z) := by
  cases e with
  | branch depth x =>
    cases depth with
    | zero =>
      simp only [Exit.again?] at hz
      split at hz
      · next hn =>
        cases hz
        have h : M.Lands (a.inside ⟨(under ++ below).length, pc, n⟩) q (under ++ below)
            (.branch 0 _) _ := lands_start hn
        rwa [running_append] at h
      · cases hz
    | succ depth => cases hz
  | normal x | ret x | trap t x => cases hz

/-! ## The starts of blocks -/

variable {code body rest : Code} {type : BlockType} {sig : Signature} {args : List Slot}

theorem Loads.signature?_eq (hM : M.Loads p) (type : BlockType) :
    CodeContext.signature? ⟨M.inst.module, f⟩ type = p.signature? type := by
  cases type with
  | index n => exact congrArg (·[n]?) hM.types_eq
  | _ => rfl

/-- Entering a block puts a label above the operands that are not its parameters. -/
theorem enter_frame {target arity : Nat} (hops : x.operands = args ++ under) :
    (a.frame pc below x).enter args.length target arity =
      .ok (.next ((a.inside ⟨(under ++ below).length, target, arity⟩).frame pc (under ++ below)
        (x.withOperands args))) := by
  have happend : args ++ under ++ below = args ++ (under ++ below) := List.append_assoc ..
  have hlt : ¬(args ++ (under ++ below)).length < args.length := by
    rw [List.length_append]
    omega
  have hheight : (args ++ (under ++ below)).length - args.length = (under ++ below).length := by
    rw [List.length_append, Nat.add_sub_cancel_left]
  simp only [Frame.enter, Activation.frame, hops, happend, if_neg hlt, hheight]
  rfl

theorem exec_ifThen {opcode : Nat} {jump : BlockJump} {v : Slot} {vs : List Slot}
    (hops : x.operands = v :: vs) :
    (a.frame pc below x).exec opcode (.ifThen jump) =
      match v.toUInt32 != 0, jump.elseBody with
      | true, _ => (a.frame pc below (x.withOperands vs)).enter jump.paramCount jump.stop
          jump.resultCount
      | false, some pc => (a.frame pc below (x.withOperands vs)).enter jump.paramCount jump.stop
          jump.resultCount
      | false, none => .ok (.next (a.frame jump.stop below (x.withOperands vs))) := by
  simp only [Frame.exec, Activation.frame, hops, List.cons_append]
  rfl

/-- **A loop starts at its opcode**, where a branch to it leads again. -/
theorem Loads.step_loop (hM : M.Loads p) (hs : p.signature? type = some sig)
    (hops : x.operands = args ++ under) (hargs : args.length = sig.params.length)
    (hl : Code.Lies ⟨M.inst.module, f⟩ M.inst.sideTable (.loop type body rest) pc q) :
    ∃ p₁ q₁ q₂, body.Lies ⟨M.inst.module, f⟩ M.inst.sideTable p₁ q₁ ∧
      Instr.fetch M.inst.module.bytes M.inst.sideTable q₁ = some (.endMark, q₂) ∧
      rest.Lies ⟨M.inst.module, f⟩ M.inst.sideTable q₂ q ∧
      (M.running a pc below x).step =
        M.running (a.inside ⟨(under ++ below).length, pc, sig.params.length⟩) p₁ (under ++ below)
          (x.withOperands args) := by
  cases hl with
  | @loop _ p₁ q₁ q₂ _ _ sig' _ _ hs' h hbody hend hrest =>
    obtain rfl := Option.some.inj (hs.symm.trans ((hM.signature?_eq type).symm.trans hs'))
    refine ⟨p₁, q₁, q₂, hbody, hend, hrest, ?_⟩
    rw [hM.step_running h, Frame.exec, ← hargs, enter_frame hops]
    rfl

variable (below) in
/-- **A block is entered in one step.**  Only an `if` without an `else` whose condition fails is not
entered: the machine goes on behind it. -/
theorem Loads.step_opened (hM : M.Loads p) (ho : opened? code x = some (type, body, rest, y))
    (hs : p.signature? type = some sig) (hops : y.operands = args ++ under)
    (hargs : args.length = sig.params.length)
    (hl : code.Lies ⟨M.inst.module, f⟩ M.inst.sideTable pc q) :
    (∃ p₁ q₁ q₂, body.Lies ⟨M.inst.module, f⟩ M.inst.sideTable p₁ q₁ ∧ M.IsMark q₁ q₂ ∧
      rest.Lies ⟨M.inst.module, f⟩ M.inst.sideTable q₂ q ∧
      (M.running a pc below x).step =
        M.running (a.inside ⟨(under ++ below).length, q₂, sig.results.length⟩) p₁ (under ++ below)
          (y.withOperands args)) ∨
    (body = .nil ∧ ∃ q₂, rest.Lies ⟨M.inst.module, f⟩ M.inst.sideTable q₂ q ∧
      (M.running a pc below x).step = M.running a q₂ below y) := by
  cases hl with
  | nil | plain | loop => cases ho
  | @block _ p₁ q₁ q₂ _ _ sig' _ _ hs' h hbody hend hrest =>
    cases ho
    obtain rfl := Option.some.inj (hs.symm.trans ((hM.signature?_eq type).symm.trans hs'))
    refine .inl ⟨p₁, q₁, q₂, hbody, .inl hend, hrest, ?_⟩
    rw [hM.step_running h, Frame.exec, ← hargs, enter_frame hops]
    rfl
  | @ifThen _ p₁ q₁ q₂ _ _ sig' thenBody _ hs' h hbody hend hrest =>
    obtain ⟨locals, operands, globals, memory⟩ := x
    cases operands with
    | nil => cases ho
    | cons v vs =>
      cases ho
      obtain rfl := Option.some.inj (hs.symm.trans ((hM.signature?_eq type).symm.trans hs'))
      rw [hM.step_running h, exec_ifThen rfl]
      cases hv : v.toUInt32 != 0 with
      | true =>
        refine .inl ⟨p₁, q₁, q₂, hbody, .inl hend, hrest, ?_⟩
        simp only [← hargs, enter_frame hops]
        rfl
      | false => exact .inr ⟨rfl, q₂, hrest, rfl⟩
  | @ifElse _ p₁ q₁ q₂ q₃ q₄ _ _ sig' thenBody elseBody _ hs' h hthen hmark helse hend hrest =>
    obtain ⟨locals, operands, globals, memory⟩ := x
    cases operands with
    | nil => cases ho
    | cons v vs =>
      cases ho
      obtain rfl := Option.some.inj (hs.symm.trans ((hM.signature?_eq type).symm.trans hs'))
      rw [hM.step_running h, exec_ifThen rfl]
      cases hv : v.toUInt32 != 0 with
      | true =>
        refine .inl ⟨p₁, q₁, q₄, hthen, .inr ⟨q₂, hmark⟩, hrest, ?_⟩
        simp only [← hargs, enter_frame hops]
        rfl
      | false =>
        refine .inl ⟨q₂, q₃, q₄, helse, .inl hend, hrest, ?_⟩
        simp only [← hargs, enter_frame hops]
        rfl

/-! ## Calls -/

variable {g : Func} {func : Nat} {values : List Slot}

/-- Whether the limits let a function be called. -/
def Admits (M : Machine σ) (a : Activation) (args : List Slot) (g : Func) : Prop :=
  a.depth ≤ M.inst.limits.maxCallDepth ∧
    a.base + args.length + g.declared ≤ M.inst.limits.maxValueStack

theorem Loads.callFrom_eq (hM : M.Loads p) {entry : Nat}
    (hentry : M.inst.functions[func]? = some (.code g.type entry g.declared))
    (hops : y.operands = args ++ under) (hargs : args.length = g.type.params.length) :
    (M.holding y.globals y.memory).callFrom ⟨M.id, a.frame q below y, a.callers⟩ func =
      match Frame.new M.inst.limits g.type entry g.declared args.reverse
        (a.frame q below (y.withOperands under)).slotCount a.depth with
      | .ok callee => (M.holding y.globals y.memory).resume
          ⟨M.id, callee, a.frame q below (y.withOperands under) :: a.callers⟩
      | .error e => (M.holding y.globals y.memory).finish (.error e) := by
  have happend : y.operands ++ below = args ++ (under ++ below) := by
    rw [hops, List.append_assoc]
  have hlt : ¬(args ++ (under ++ below)).length < args.length := by
    rw [List.length_append]
    omega
  have htake : (args ++ (under ++ below)).take args.length = args := List.take_left
  have hdrop : (args ++ (under ++ below)).drop args.length = under ++ below := List.drop_left
  simp only [Store.callFrom, hM.getElem?_holding, hentry, Callable.type, Activation.frame,
    happend, ← hargs, if_neg hlt, htake, hdrop]
  rfl

/-- **A call enters the function**, or the stack overflows. -/
theorem Loads.step_call (hM : M.Loads p) {j : Instr Empty} (hact : p.act j x = some (.call g y))
    (hf : Instr.fetch M.inst.module.bytes M.inst.sideTable pc = some (j.embed, q))
    (hops : y.operands = args ++ under) (hargs : args.length = g.type.params.length) :
    ∃ f entry stop next, g.code.Lies ⟨M.inst.module, f⟩ M.inst.sideTable entry stop ∧
      Instr.fetch M.inst.module.bytes M.inst.sideTable stop = some (.endMark, next) ∧
      let a' := a.calling q below (y.withOperands under) g
      (M.Admits a' args g ∧
        (M.running a pc below x).step = M.running a' entry [] (y.enter g args) ∨
      ¬M.Admits a' args g ∧ (M.running a pc below x).step = M.finished y stackOverflow) := by
  have hgoes : M.Goes p a q below x _ (M.running a pc below x).step := hM.goes_of_act hact hf
  generalize (M.running a pc below x).step = c at hgoes
  cases hgoes with
  | @call _ _ func hg =>
    obtain ⟨f, entry, stop, next, hentry, hlies, hend⟩ := hM.entry func g hg
    refine ⟨f, entry, stop, next, hlies, hend, ?_⟩
    rw [hM.callFrom_eq hentry hops hargs]
    simp only [Frame.new, List.length_reverse]
    by_cases hdepth : M.inst.limits.maxCallDepth ≤ a.depth
    · rw [if_pos hdepth]
      exact .inr ⟨fun h => absurd h.1 (Nat.not_le.2 (Nat.lt_succ_of_le hdepth)), rfl⟩
    · rw [if_neg hdepth]
      by_cases hsize : M.inst.limits.maxValueStack <
          (a.frame q below (y.withOperands under)).slotCount + args.length + g.declared
      · rw [if_pos hsize]
        exact .inr ⟨fun h => absurd h.2 (Nat.not_le.2 hsize), rfl⟩
      · rw [if_neg hsize]
        exact .inl ⟨⟨Nat.not_le.1 hdepth, Nat.not_lt.1 hsize⟩, rfl⟩

/-- Leaving a function takes its results to the caller. -/
theorem left_calling :
    M.left (a.calling pc below (y.withOperands under) g) z =
      M.running a pc below (y.resume z (z.operands.take g.type.results.length) under) := by
  simp only [left, Activation.calling, running, Activation.frame, Frame.withOperands, Conf.resume,
    Conf.withOperands, List.append_assoc]

/-- **A function is left** at its end, by a branch to its end, or by a return. -/
theorem Loads.reaches_left (hM : M.Loads p) (hl : a.labels = []) {stop next : Nat}
    (hend : Instr.fetch M.inst.module.bytes M.inst.sideTable stop = some (.endMark, next))
    (hr : e.returned? a.resultCount = some (values, z)) :
    values = z.operands.take a.resultCount ∧
      ∃ c, M.Lands a stop below e c ∧ c.Reaches (M.left a z) := by
  cases e with
  | normal x =>
    simp only [Exit.returned?] at hr
    split at hr
    · next hn =>
      cases hr
      refine ⟨rfl, _, .normal, .step rfl ?_⟩
      rw [hM.step_running hend, Frame.exec]
      simp only [Activation.frame, hl]
      have h : M.onward a.callers z .endMark (.ok (.leave (a.frame next below z))) = M.left a z :=
        onward_leave hn
      rwa [Activation.frame, hl] at h
    · cases hr
  | branch depth x =>
    cases depth with
    | zero =>
      simp only [Exit.returned?] at hr
      split at hr
      · next hn =>
        cases hr
        exact ⟨rfl, _, .leave (by rw [hl]; rfl) hn, .refl _⟩
      · cases hr
    | succ depth => cases hr
  | ret x =>
    simp only [Exit.returned?] at hr
    split at hr
    · next hn =>
      cases hr
      exact ⟨rfl, _, .ret hn, .refl _⟩
    · cases hr
  | trap t x => cases hr

end Machine

end Structured

end WasmEngine
