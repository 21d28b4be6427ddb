import WasmEngine.Proofs.Limits.Raised
import WasmEngine.Proofs.Loans.Held
import WasmEngine.Proofs.Nesting.Budgets

/-!
# Proofs/Loans/Refused — instructions that a memory refuses while it is lent

The code of an instance without imports works on the globals and the budget of the instance and on its
memory, and on nothing else.  While the memory is lent, only globals and budget change, up to the first
instruction that the memory refuses.  That ends the call with an error that poisons nothing
(`Store.call_refused`): when all is given back, the memory is what it was.
-/

namespace WasmEngine

variable {σ α : Type}

/-! ## What memory refuses -/

/-- Whether an instruction changes memory. -/
def Instr.ChangesMemory : Instr α → Prop
  | .store _ _ | .memoryGrow | .memoryCopy | .memoryFill => True
  | _ => False

/-- Whether an instruction works on memory. -/
def Instr.UsesMemory : Instr α → Prop
  | .load _ _ | .memorySize => True
  | i => i.ChangesMemory

/-- Whether a memory that is lent refuses an instruction. -/
inductive Loan.Refuses (instr : Instr α) : Loan → Prop where
  | shared {views : Nat} (h : instr.ChangesMemory) : Refuses instr (.shared (views + 1))
  | exclusive (h : instr.UsesMemory) : Refuses instr .exclusive

theorem Instr.ChangesMemory.usesMemory {instr : Instr α} (h : instr.ChangesMemory) :
    instr.UsesMemory := by
  cases instr <;> first | exact h | exact h.elim

theorem Loan.Refuses.usesMemory {instr : Instr α} {loan : Loan} (h : loan.Refuses instr) :
    instr.UsesMemory := by
  cases h with
  | shared h => exact h.usesMemory
  | exclusive h => exact h

/-- What works on memory is no matter of the frame alone. -/
theorem Instr.UsesMemory.exec {instr : Instr BlockJump} (h : instr.UsesMemory) (f : Frame)
    (opcode : Nat) : f.exec opcode instr = .ok (.outside f) := by
  cases instr <;> first | rfl | exact h.elim

theorem Instr.UsesMemory.execOutside {instr : Instr BlockJump} (h : instr.UsesMemory)
    (s : Store σ) (r : Run) :
    s.execOutside r instr = match s.access r.inst instr r.frame.operands with
      | (.ok operands, s) => s.resume { r with frame := r.frame.withOperands operands }
      | (.error e, s) => s.finish (.error e) := by
  cases instr <;> first | rfl | exact h.elim

theorem Loan.Refuses.ne {instr : Instr α} {loan : Loan} (h : loan.Refuses instr) :
    loan ≠ .shared 0 := by
  cases h <;> nofun

namespace Store

variable {s s' s'' : Store σ} {id : InstanceId} {inst : Instance σ} {m : Memory} {loan : Loan}

/-- **A memory that is lent is not changed.** -/
theorem IsLent.updateMemory? (h : s.IsLent id m loan) (hloan : loan ≠ .shared 0)
    (op : Memory.Update α) : s.updateMemory? id op = (some (.error .memoryBorrowed), s) := by
  obtain ⟨inst, hinst, hm, rfl⟩ := h
  refine Prod.ext ?_ (withInstance_eq_self fun inst' hinst' => ?_)
  · rw [Store.updateMemory?, withInstance_eq, hinst]
    simp only [hm, if_neg hloan]
  · obtain rfl := Option.some.inj (hinst.symm.trans hinst')
    simp only [hm, if_neg hloan]

/-- Updates work on the memory of an instance. -/
def Serves (s : Store σ) (id : InstanceId) (m : Memory) : Prop :=
  ∀ {β : Type} (op : Memory.Update β), (s.updateMemory? id op).1 =
    some (match op m with
      | .ok a _ => .ok a
      | .error e _ => .error e)

theorem IsLent.serves (h : s.IsLent id m (.shared 0)) : s.Serves id m := by
  intro β op
  obtain ⟨inst, hinst, hm, hloan⟩ := h
  rw [Store.updateMemory?, withInstance_eq, hinst]
  simp only [hm, hloan, if_true]
  cases op m <;> rfl

/-- **What a memory refuses does nothing.** -/
theorem IsLent.access_of_refuses {instr : Instr BlockJump} (h : s.IsLent id m loan)
    (hrefuses : loan.Refuses instr) (operands : List Slot) :
    s.access id instr operands = (.error .memoryBorrowed, s) ∨
      (s.access id instr operands).1 = .error (.fault .missingOperand) := by
  have hchange {β : Type} (op : Memory.Update β) :
      s.changeMemory id op = (.error .memoryBorrowed, s) := by
    rw [changeMemory, h.updateMemory? hrefuses.ne]
  have hread {β : Type} (f : Memory → Except Error β) (hno : ¬instr.ChangesMemory) :
      s.readMemory id f = .error .memoryBorrowed := by
    cases hrefuses with
    | shared hchanges => exact absurd hchanges hno
    | exclusive =>
      obtain ⟨inst, hinst, hm, hloan⟩ := h
      simp [readMemory, viewMemory?, hinst, hm, hloan]
  unfold access
  split
  · cases hrefuses <;> contradiction
  · cases hrefuses <;> contradiction
  · rw [hread _ fun h => h]
    exact .inl rfl
  · rw [hchange]
    exact .inl rfl
  · rw [hread _ fun h => h]
    exact .inl rfl
  · rw [hchange]
    exact .inl rfl
  · rw [hchange]
    exact .inl rfl
  · rw [hchange]
    exact .inl rfl
  · exact .inr rfl

/-! ## What else changes -/

/-- The store with other globals and another budget for an instance. -/
def withState (s : Store σ) (id : InstanceId) (globals : Array Slot) (fuel : Option Nat) : Store σ :=
  s.modifyInstance id ({ · with globals, fuel })

theorem releaseAll_withState (globals : Array Slot) (fuel : Option Nat) (holds : List Hold) :
    (s.withState id globals fuel).releaseAll holds =
      (s.releaseAll holds).withState id globals fuel := by
  refine releaseAll_modifyInstance (fun inst exclusive => ?_) holds
  obtain ⟨_, _, _, _, _, _, memory, loan, _⟩ := inst
  cases memory with
  | none => rfl
  | some memory => obtain (_ | _) | _ := loan <;> cases exclusive <;> rfl

/-- Nothing but globals and budget of an instance have changed. -/
def SameButState (s : Store σ) (id : InstanceId) (s' : Store σ) : Prop :=
  ∃ globals fuel, s' = s.withState id globals fuel

theorem sameButState_withInstance {missing : α} {f : Instance σ → α × Instance σ}
    (hinst : s.instances[id]? = some inst)
    (hf : ∃ globals fuel, (f inst).2 = { inst with globals, fuel }) :
    s.SameButState id (s.withInstance id missing f).2 := by
  obtain ⟨globals, fuel, hf⟩ := hf
  refine ⟨globals, fuel, ext_of_instances (fun i => ?_) rfl rfl rfl⟩
  rw [getElem?_withInstance, withState, getElem?_modifyInstance]
  split
  · next hi => rw [hi, hinst, Option.map_some, Option.map_some, hf]
  · rfl

theorem SameButState.refl (hinst : s.instances[id]? = some inst) : s.SameButState id s := by
  refine ⟨inst.globals, inst.fuel, (withInstance_eq_self fun inst' hinst' => ?_).symm⟩
  obtain rfl := Option.some.inj (hinst.symm.trans hinst')
  rfl

theorem SameButState.trans (h : s.SameButState id s') (h' : s'.SameButState id s'') :
    s.SameButState id s'' := by
  obtain ⟨globals, fuel, rfl⟩ := h
  obtain ⟨globals', fuel', rfl⟩ := h'
  exact ⟨globals', fuel', modifyInstance_withInstance ..⟩

theorem SameButState.exists_of_some (h : s.SameButState id s') (hinst : s.instances[id]? = some inst) :
    ∃ globals fuel, s'.instances[id]? = some { inst with globals, fuel } := by
  obtain ⟨globals, fuel, rfl⟩ := h
  refine ⟨globals, fuel, ?_⟩
  rw [withState, getElem?_modifyInstance, if_pos rfl, hinst, Option.map_some]

/-- An instance without imports, whose memory is lent. -/
structure Withholds (s : Store σ) (id : InstanceId) (m : Memory) (loan : Loan) : Prop where
  isLent : s.IsLent id m loan
  ne : loan ≠ .shared 0
  isClosed : ∀ inst, s.instances[id]? = some inst → inst.IsClosed

theorem Withholds.of_same (h : s.Withholds id m loan) (hs : s.SameButState id s') :
    s'.Withholds id m loan := by
  obtain ⟨⟨inst, hinst, hm, hloan⟩, hne, hclosed⟩ := h
  obtain ⟨globals, fuel, hinst'⟩ := hs.exists_of_some hinst
  refine ⟨⟨_, hinst', hm, hloan⟩, hne, fun inst' h => ?_⟩
  obtain rfl := Option.some.inj (hinst'.symm.trans h)
  exact hclosed inst hinst

theorem Withholds.same_self (h : s.Withholds id m loan) : s.SameButState id s := by
  obtain ⟨⟨inst, hinst, -⟩, -⟩ := h
  exact .refl hinst

/-! ## Dispatch loops -/

theorem sameButState_spendFuel (hinst : s.instances[id]? = some inst) :
    s.SameButState id (s.spendFuel id).2 := by
  unfold spendFuel
  split
  · exact .refl hinst
  · exact .refl hinst
  · next n _ =>
    exact sameButState_withInstance (f := fun inst => ((), { inst with fuel := some n })) hinst
      ⟨_, _, rfl⟩

theorem sameButState_setGlobal (hinst : s.instances[id]? = some inst) (index : Nat) (v : Slot) :
    s.SameButState id (s.setGlobal id index v).2 := by
  refine sameButState_withInstance hinst ?_
  split
  · exact ⟨_, _, rfl⟩
  · exact ⟨_, _, rfl⟩

theorem Withholds.access (h : s.Withholds id m loan) (instr : Instr BlockJump)
    (operands : List Slot) : s.SameButState id (s.access id instr operands).2 := by
  have hsame := h.same_self
  have hchange {β : Type} (op : Memory.Update β) : (s.changeMemory id op).2 = s := by
    rw [changeMemory, h.isLent.updateMemory? h.ne]
  unfold Store.access
  split
  · exact hsame
  · obtain ⟨inst, hinst, -⟩ := h.isLent
    exact sameButState_setGlobal hinst ..
  · exact hsame
  · rwa [hchange]
  · exact hsame
  · rwa [hchange]
  · rwa [hchange]
  · rwa [hchange]
  · exact hsame

/-- **A call inside an instance without imports** leaves the store as it is. -/
theorem Withholds.callFrom (h : s.Withholds id m loan) (frame : Frame) (callers : List Frame)
    (func : Nat) : (s.callFrom ⟨id, frame, callers⟩ func).store = s := by
  obtain ⟨inst, hinst, -⟩ := h.isLent
  have hclosed := h.isClosed inst hinst
  simp only [Store.callFrom, hinst]
  cases hf : inst.functions[func]? with
  | none => rfl
  | some callee =>
    cases callee with
    | imported type ref binding => exact absurd hf (hclosed func type ref binding)
    | code type entry declared =>
      simp only
      split
      · rfl
      · split <;> rfl

theorem Withholds.execOutside (h : s.Withholds id m loan) (frame : Frame) (callers : List Frame)
    (instr : Instr BlockJump) :
    s.SameButState id (s.execOutside ⟨id, frame, callers⟩ instr).store := by
  unfold Store.execOutside
  split
  · rw [h.callFrom]
    exact h.same_self
  · split
    · exact h.same_self
    · split
      · rw [h.callFrom]
        exact h.same_self
      · exact h.same_self
  · have haccess := h.access instr frame.operands
    split
    all_goals
      next heq =>
      rw [heq] at haccess
      exact haccess

theorem Withholds.spendFuel (h : s.Withholds id m loan) :
    s.SameButState id (s.spendFuel id).2 := by
  obtain ⟨inst, hinst, -⟩ := h.isLent
  exact sameButState_spendFuel hinst

/-- **While its memory is lent, the code of an instance changes globals and budget only.** -/
theorem Withholds.dispatch (h : s.Withholds id m loan) (frame : Frame) (callers : List Frame) :
    s.SameButState id (s.dispatch ⟨id, frame, callers⟩).store := by
  have hspend := h.spendFuel
  unfold Store.dispatch
  split
  · next heq =>
    rw [heq] at hspend
    exact hspend
  · next s₁ heq =>
    rw [heq] at hspend
    have h₁ : s₁.Withholds id m loan := h.of_same hspend
    refine hspend.trans ?_
    simp only
    split
    · exact h₁.same_self
    · split
      · exact h₁.same_self
      · simp only [leave]
        split
        · exact h₁.same_self
        · cases callers <;> exact h₁.same_self
      · exact h₁.execOutside ..
      · exact h₁.same_self

/-- **What memory refuses ends the call of sound code** with an error that says so. -/
theorem Withholds.dispatch_of_refuses {loaded : List LoadedModule} {instr : Instr BlockJump}
    {frame : Frame} {callers : List Frame} {pc n : Nat} (h : s.Withholds id m loan)
    (hrefuses : loan.Refuses instr) (hfuel : (s.spendFuel id).1 = true)
    (hfetch : s.fetch? id frame.pc = some (instr, pc)) (hsound : s.outline.IsSound loaded)
    (hawaits : Run.Awaits s.outline ⟨id, frame, callers⟩ 0 n) :
    s.dispatch ⟨id, frame, callers⟩ = (s.spendFuel id).2.finish (.error .memoryBorrowed) := by
  have hlent := (h.of_same h.spendFuel).isLent
  have hspend : s.spendFuel id = (true, (s.spendFuel id).2) := Prod.ext hfuel rfl
  have houtline : (s.spendFuel id).2.outline = s.outline :=
    outline_eq_of_view (view_spendFuel fun _ _ => rfl)
  have hfetch' : (s.spendFuel id).2.fetch? id frame.pc = some (instr, pc) :=
    (fetch?_of_cores cores_spendFuel id frame.pc).trans hfetch
  generalize (s.spendFuel id).2 = s₁ at hlent hspend houtline hfetch' ⊢
  obtain ⟨sh, hs, ⟨g, hrun⟩, -⟩ := hawaits
  obtain ⟨i, next, hfetch₂, hpermits⟩ := Frame.exec_sound hrun
  obtain ⟨inst, hinst, rfl⟩ := exists_of_shapes (s := s) hs
  -- Soundness finds the instruction that was fetched, so that its operands are there.
  obtain ⟨rfl, rfl⟩ : i = instr ∧ next = pc := by
    rw [fetch?, hinst] at hfetch
    exact Prod.mk.inj (Option.some.inj (hfetch₂.symm.trans hfetch))
  have hexec := hrefuses.usesMemory.exec { frame with pc := next } frame.pc
  rw [hexec] at hpermits
  cases hpermits with
  | @outside f j types ps qs hi hj ha hn h =>
  subst hi
  have hsound' := access_sound (s := s₁) (houtline ▸ hs) (hsound.sound id _ hs) hj
    (fun func h => by subst h; exact hrefuses.usesMemory)
    (fun type table h => by subst h; exact hrefuses.usesMemory) ha hn
  have haccess : s₁.access id j.embed frame.operands = (.error .memoryBorrowed, s₁) := by
    refine (hlent.access_of_refuses hrefuses frame.operands).resolve_right fun hmissing => ?_
    rw [hmissing] at hsound'
    cases hsound'
  simp only [Store.dispatch, hspend, hfetch', hexec]
  rw [hrefuses.usesMemory.execOutside]
  simp only [haccess]

end Store

/-! ## Runs -/

/-- The code of an instance has come to an instruction and pays for it. -/
def Config.ComesTo (c : Config σ) (id : InstanceId) (instr : Instr BlockJump) : Prop :=
  ∃ frame callers pc, c.control = .run ⟨id, frame, callers⟩ ∧ (c.store.spendFuel id).1 = true ∧
    c.store.fetch? id frame.pc = some (instr, pc)

namespace Config

variable {c : Config σ} {id : InstanceId} {m : Memory} {loan : Loan} {holds : List Hold} {n : Nat}

theorem Invokes.isInside {r : Run} (h : c.Invokes id holds) (hr : c.control = .run r) :
    c.IsInside id holds := by
  obtain h | ⟨outcome, hdone, -⟩ := h
  · exact h
  · cases hr.symm.trans hdone

theorem Invokes.run (h : c.Invokes id holds) (n : Nat) : (Config.run n c).Invokes id holds :=
  run_induction (P := fun c => c.Invokes id holds) (fun _ => Invokes.step) h n

/-- What has ended stays at its outcome. -/
theorem Invokes.run_done (h : c.Invokes id holds) {outcome : Except Error (List Slot)}
    (hdone : c.control = .done outcome) (n : Nat) : (Config.run n c).control = .done outcome :=
  (run_induction (P := fun c => c.control = .done outcome ∧ c.Invokes id holds)
    (fun _ hc => ⟨hc.2.control_step hc.1, hc.2.step⟩) ⟨hdone, h⟩ n).1

/-- An invocation of an instance without imports asks for nothing. -/
theorem Invokes.isHonest (h : c.Invokes id holds) : c.IsHonest := by
  intro n call program hcontrol
  obtain hinside | ⟨outcome, hdone, -⟩ := h.run n
  · obtain ⟨r, hr, -⟩ := hinside.run
    cases hr.symm.trans hcontrol
  · cases hdone.symm.trans hcontrol

/-- **While its memory is lent, an invocation of an instance without imports changes globals and budget
only**, as long as it runs. -/
theorem Invokes.sameButState (h : c.Invokes id holds) (hstore : c.store.Withholds id m loan) (n : Nat) :
    (Config.run n c).IsInside id holds → c.store.SameButState id (Config.run n c).store := by
  induction n with
  | zero => exact fun _ => hstore.same_self
  | succ n ih =>
    have hn := h.run n
    rw [run_succ]
    generalize Config.run n c = c' at ih hn
    intro hinside
    obtain ⟨s, control, ps⟩ := c'
    obtain hbefore | ⟨outcome, hdone, hpending⟩ := hn
    · have hsame := ih hbefore
      obtain ⟨⟨r, rfl, rfl⟩, rfl, -⟩ := hbefore
      exact hsame.trans ((hstore.of_same hsame).dispatch r.frame r.callers)
    · obtain ⟨r, hrun, -⟩ := hinside.run
      cases hrun.symm.trans (Invokes.control_step (.inr ⟨outcome, hdone, hpending⟩) hdone)

/-- What memory refuses ends an invocation. -/
theorem ComesTo.run_two {loaded : List LoadedModule} {instr : Instr BlockJump}
    (h : c.ComesTo id instr) (hinside : c.IsInside id holds) (hstore : c.store.Withholds id m loan)
    (hrefuses : loan.Refuses instr) (hloaded : c.store.outline.IsSound loaded)
    (hsound : c.IsSound (fun _ => True) c.store.outline n) :
    Config.run 2 c =
      ⟨(c.store.spendFuel id).2.releaseAll holds, .done (.error .memoryBorrowed), []⟩ := by
  obtain ⟨s, control, ps⟩ := c
  obtain ⟨frame, callers, pc, rfl, hfuel, hfetch⟩ := h
  obtain ⟨-, rfl, -⟩ := hinside
  obtain ⟨-, k, hawaits, -⟩ := hsound
  have hdispatch := hstore.dispatch_of_refuses hrefuses hfuel hfetch hloaded hawaits
  have hstep : Config.step ⟨s, .run ⟨id, frame, callers⟩, [.invocation id holds]⟩ =
      ⟨(s.spendFuel id).2, .done (.error .memoryBorrowed), [.invocation id holds]⟩ :=
    congrArg (ofTransition · _) hdispatch
  rw [run_succ, run_succ, Config.run, hstep]
  rfl

end Config

namespace Store

variable {s : Store σ} {id : InstanceId} {inst : Instance σ} {m : Memory} {loan : Loan}
  {callee : Callee} {args : List Value} {holds : List Hold}

theorem Withholds.invocation (h : s.Withholds id m loan) (callee : Callee) (args : List Value)
    (depth : Nat) : (s.invocation id callee args depth).2 = s := by
  obtain ⟨inst, hinst, -⟩ := h.isLent
  simp only [Store.invocation, hinst]
  split
  · rfl
  · next func results _ =>
    split
    · rfl
    · simp only [callFunction, hinst]
      cases hf : inst.functions[func]? with
      | none => rfl
      | some callee =>
        cases callee with
        | imported type ref binding =>
          exact absurd hf (h.isClosed inst hinst func type ref binding)
        | code type entry declared =>
          simp only
          split <;> rfl

/-- **A call that comes to an instruction which the memory refuses** ends with an error, and the
instance can go on.  When what it borrowed is given back, only globals and budget of the instance may
have changed. -/
theorem call_refused {loaded : List LoadedModule} {instr : Instr BlockJump} {n : Nat}
    (hsound : s.outline.IsSound loaded) (hinst : s.instances[id]? = some inst)
    (hclosed : inst.IsClosed) (hgenuine : callee.IsGenuine s)
    (hholds : (s.acquireAll holds).1 = .ok ()) (hlent : (s.acquireAll holds).2.IsLent id m loan)
    (hrefuses : loan.Refuses instr)
    (hcomes : (Config.run n (s.callConfig id callee args holds)).ComesTo id instr) :
    inst.isPoisoned = false ∧
      ∃ globals fuel, ∀ budget, n + 2 ≤ budget → s.call id callee args holds budget =
        some (.error .memoryBorrowed, s.withState id globals fuel) := by
  have hwithholds : (s.acquireAll holds).2.Withholds id m loan := by
    refine ⟨hlent, hrefuses.ne, fun inst' hinst' => ?_⟩
    obtain ⟨inst₁, hinst₁, hcore⟩ := exists_of_cores (cores_acquireAll holds) hinst'
    obtain rfl := Option.some.inj (hinst.symm.trans hinst₁)
    have hfunctions : inst.functions = inst'.functions := (congrArg Instance.functions hcore :)
    exact fun func type ref binding hf => hclosed func type ref binding (hfunctions ▸ hf)
  have hstore : (s.callConfig id callee args holds).store = (s.acquireAll holds).2 :=
    hwithholds.invocation callee args 0
  have hinvokes : (s.callConfig id callee args holds).Invokes id holds := by
    obtain ⟨outcome, s', heq⟩ | hinside := callConfig_isInside callee args holds hinst hclosed
    · rw [heq]
      exact .inr ⟨outcome, rfl, .inl rfl⟩
    · exact .inl hinside
  obtain ⟨frame, callers, pc, hrun, hfuel, hfetch⟩ := hcomes
  have hpoisoned : inst.isPoisoned = false := by
    obtain ⟨e, s', -, -, heq⟩ | ⟨s₁, inst₁, -, -, hs, hinst₁, hp, -⟩ :=
      callConfig_cases s id callee args holds
    · cases hrun.symm.trans (hinvokes.run_done (congrArg Config.control heq) n)
    · rw [← Bool.not_eq_true, ← isPoisoned_iff hinst, ← isPoisoned_congr hs, isPoisoned_iff hinst₁,
        hp]
      nofun
  have hinside := (hinvokes.run n).isInside hrun
  have hsame := hinvokes.sameButState (hstore ▸ hwithholds) n hinside
  rw [hstore] at hsame
  -- The instruction finds its operands, since compiled code is sound.
  have hn : (Config.run n (s.callConfig id callee args holds)).IsSound (fun _ => True) s.outline _ :=
    (callConfig_sound (fun _ _ => trivial) hsound (Array.getElem?_eq_some_iff.1 hinst).1 hgenuine
      hholds fun _ _ _ => trivial).run (fun _ _ => trivial) hsound hinvokes.isHonest
        fun _ _ _ _ => trivial
  have hend := Config.ComesTo.run_two ⟨frame, callers, pc, hrun, hfuel, hfetch⟩ hinside
    (hwithholds.of_same hsame) hrefuses (hn.outline_eq ▸ hsound) (hn.outline_eq ▸ hn)
  obtain ⟨globals, fuel, hspent⟩ := hsame.trans (hwithholds.of_same hsame).spendFuel
  rw [hspent, releaseAll_withState, releaseAll_acquireAll hholds, ← Config.run_add] at hend
  refine ⟨hpoisoned, globals, fuel, fun budget hbudget => ?_⟩
  rw [call_eq_run hholds, Config.run_of_le (by rw [hend]; rfl) hbudget, hend]
  rfl

/-! ## Views that are held -/

theorem IsHeld.exists_refuses {instr : Instr α} {exclusive : Bool} (h : s.IsHeld id m exclusive)
    (hinstr : instr.ChangesMemory ∨ exclusive = true ∧ instr.UsesMemory) :
    ∃ loan, s.IsLent id m loan ∧ loan.Refuses instr := by
  cases h with
  | shared h =>
    obtain hchanges | ⟨hno, -⟩ := hinstr
    · exact ⟨_, h, .shared hchanges⟩
    · cases hno
  | exclusive h =>
    obtain hchanges | ⟨-, huses⟩ := hinstr
    · exact ⟨_, h, .exclusive hchanges.usesMemory⟩
    · exact ⟨_, h, .exclusive huses⟩

/-- **Instances of modules without imports import nothing.** -/
theorem isClosed_of_sound {loaded : List LoadedModule} (hsound : s.outline.IsSound loaded)
    (hinst : s.instances[id]? = some inst) (himports : inst.module.imports = []) : inst.IsClosed := by
  have hs : s.outline.shapes[id]? = some inst.shape := (getElem?_shapes s id).trans (hinst ▸ rfl)
  have hshape := hsound.sound id inst.shape hs
  intro func type ref binding hf
  obtain ⟨f, hf', himplements⟩ := hshape.exists_function hf
  have hnone := hshape.compiled.sound.imported_eq_none himports hf'
  cases himplements with
  | imported himported => cases himported.symm.trans hnone

/-- **A view that is held is stable.**  While the embedder holds a shared view of a memory, calls of any
functions of any instances leave the memory as it is, between them and in the middle of each, and it can
be read.  A call in an instance of a module without imports that comes to a store, to `memory.grow`,
`memory.copy` or `memory.fill` while any view is held, or to any instruction on memory while an exclusive
one is, ends with an error that says that memory is borrowed.  The instance is not poisoned, and when the
views are given back, the store is what it was before, but for globals and budget of the instance: later
calls work on the same memory. -/
theorem held_view_is_stable {s₀ : Store σ} {views : List Hold}
    (hinst : s₀.instances[id]? = some inst) (hm : inst.memory = some m)
    (hviews : s₀.acquireAll views = (.ok (), s)) :
    (.memory id false ∈ views → ∀ t, s.CallsPass t → t.Shows id m) ∧
    ∀ loaded callee args holds n instr exclusive, Reachable loaded s₀ →
      inst.module.imports = [] → callee.IsGenuine s → (s.acquireAll holds).1 = .ok () →
      .memory id exclusive ∈ views ++ holds →
      instr.ChangesMemory ∨ exclusive = true ∧ instr.UsesMemory →
      (Config.run n (s.callConfig id callee args holds)).ComesTo id instr →
      ∃ globals fuel,
        (∀ budget, n + 2 ≤ budget →
          s.call id callee args holds budget =
              some (.error .memoryBorrowed, s.withState id globals fuel) ∧
            ∀ name, callee = .export name → holds = [] → s.execute id name args budget =
              some (.error .memoryBorrowed, s.withState id globals fuel)) ∧
        (s.withState id globals fuel).releaseAll views = s₀.withState id globals fuel ∧
        (s₀.withState id globals fuel).instances[id]? = some { inst with globals, fuel } ∧
        inst.isPoisoned = false ∧
        (inst.loan = .shared 0 → (s₀.withState id globals fuel).Serves id m) := by
  obtain rfl : (s₀.acquireAll views).2 = s := congrArg Prod.snd hviews
  have hok : (s₀.acquireAll views).1 = .ok () := congrArg Prod.fst hviews
  have hmemory : s₀.instances[id]?.bind (·.memory) = some m := by
    rw [hinst]
    exact hm
  obtain ⟨loan₁, hinst₁⟩ := exists_of_acquireAll hinst views
  refine ⟨fun hmem t ht => ?_, ?_⟩
  · obtain ⟨hlent⟩ := isHeld_acquireAll hmemory hok hmem
    obtain ⟨n, hlent'⟩ := hlent.callsPass ht
    exact hlent'.shows
  · intro loaded callee args holds n instr exclusive hreachable himports hgenuine hholds hmem hinstr
      hcomes
    have hsound : (s₀.acquireAll views).2.outline.IsSound loaded := by
      rw [outline_acquireAll]
      exact hreachable.outline_sound
    have hheld : ((s₀.acquireAll views).2.acquireAll holds).2.IsHeld id m exclusive := by
      obtain hmem | hmem := List.mem_append.1 hmem
      · exact (isHeld_acquireAll hmemory hok hmem).acquireAll hholds
      · refine isHeld_acquireAll ?_ hholds hmem
        rw [hinst₁]
        exact hm
    obtain ⟨loan, hlent, hrefuses⟩ := hheld.exists_refuses hinstr
    obtain ⟨hpoisoned, globals, fuel, hcall⟩ := call_refused hsound hinst₁
      (isClosed_of_sound hsound hinst₁ himports) hgenuine hholds hlent hrefuses hcomes
    have hafter : (s₀.withState id globals fuel).instances[id]? = some { inst with globals, fuel } := by
      rw [withState, getElem?_modifyInstance, if_pos rfl, hinst, Option.map_some]
    refine ⟨globals, fuel, fun budget hbudget => ⟨hcall budget hbudget, ?_⟩, ?_, hafter, hpoisoned,
      fun hloan => IsLent.serves ⟨_, hafter, hm, hloan⟩⟩
    · rintro name rfl rfl
      rw [execute, invoke, hcall budget hbudget]
      rfl
    · rw [releaseAll_withState, releaseAll_acquireAll hok]

end Store

/-! ## A sample -/

namespace Module

/-- A module with a memory, a function `f` that fills its first byte, and a function `g` that tells its
size. -/
def fillingBytes : ByteArray :=
  ⟨#[0x00, 0x61, 0x73, 0x6d, 0x01, 0x00, 0x00, 0x00, 0x01, 0x08, 0x02, 0x60, 0x00, 0x00, 0x60, 0x00,
    0x01, 0x7f, 0x03, 0x03, 0x02, 0x00, 0x01, 0x05, 0x03, 0x01, 0x00, 0x00, 0x07, 0x09, 0x02, 0x01,
    0x66, 0x00, 0x00, 0x01, 0x67, 0x00, 0x01, 0x0a, 0x12, 0x02, 0x0b, 0x00, 0x41, 0x00, 0x41, 0x09,
    0x41, 0x01, 0xfc, 0x0b, 0x00, 0x0b, 0x04, 0x00, 0x3f, 0x00, 0x0b]⟩

/-- What `fillingBytes` compile to. -/
def filling : Module :=
  let one : Signature := { params := [], results := [.i32] }
  { bytes := fillingBytes, types := #[{}, one]
    functions := #[{ typeIndex := 0, type := {}, locals := [], body := ⟨44, 54⟩ },
      { typeIndex := 1, type := one, locals := [], body := ⟨56, 59⟩ }]
    memory := some { min := 0, max := none }
    exports := [{ name := "f", kind := .func, index := 0 }, { name := "g", kind := .func, index := 1 }]
    sideTable := some [] }

theorem compile_fillingBytes : compile fillingBytes = .ok filling := by decide +kernel

end Module

namespace Store

/-- A store with one instance of `Module.filling`, whose memory may be lent. -/
def filling (m : Memory) (loan : Loan := .shared 0) : Store Unit where
  instances :=
    #[{ moduleId := 0, module := .filling, sideTable := []
        functions := #[.code {} 44 0, .code { params := [], results := [.i32] } 56 0]
        limits := {}, memory := some m, loan, fuel := none }]
  host := ()
  moduleCount := 1

/-- What changes memory changes nothing else of the store. -/
theorem updateMemory?_filling {β : Type} {m m' : Memory} {op : Memory.Update β} {b : β}
    (h : op m = .ok b m') : (filling m).updateMemory? 0 op = (some (.ok b), filling m') := by
  simp [updateMemory?, withInstance_eq, filling, h]

/-- A page whose first byte is 7. -/
theorem exists_reachable_filling : ∃ data : ByteArray,
    let m : Memory := ⟨data, 1, 65536⟩
    m.size = 65536 ∧ m.load 1 0 0 = .ok 7 ∧ Reachable [⟨0, .filling⟩] (filling m) := by
  have hrun : { host := (), moduleCount := 1 : Store Unit }.instantiate ⟨0, .filling⟩ {} {} 0 =
      some (.ok 0, filling (.new 0 65536)) := by cbv
  have hempty : Reachable [⟨0, .filling⟩] (filling (.new 0 65536)) := by
    refine .instantiate (.load (.empty ()) Module.compile_fillingBytes) List.mem_cons_self ?_ ?_ hrun
    · intro name item h
      cases h
    · intro name f h hf
      cases hf
  -- The embedder grows the memory by a page and sets the byte.
  let grown := ((Memory.new 0 65536).grow 1).2
  have hgrow : ((Memory.new 0 65536).grow 1).1 = some 0 := rfl
  have hsize : grown.size = 65536 := Memory.size_grow_of_some hgrow
  obtain ⟨⟨data, pages, maximum⟩, hstore, hchanges, hload⟩ :=
    Memory.exists_store (m := grown) 0 0 7 (by decide : 1 < 2 ^ 63) (by rw [hsize]; decide)
  obtain rfl : pages = 1 := hchanges.pages
  obtain rfl : maximum = 65536 := hchanges.maximum
  have hupdate : (filling (.new 0 65536)).updateMemory? 0
      (fun m => Memory.store 1 0 0 7 (m.grow 1).2) = (some (.ok ()), filling ⟨data, 1, 65536⟩) :=
    updateMemory?_filling hstore
  have hset := hempty.updateMemory 0 (fun m => Memory.store 1 0 0 7 (m.grow 1).2)
  rw [hupdate] at hset
  exact ⟨data, hchanges.size.trans hsize, hload, hset⟩

/-- Filling one byte of such a page sets it. -/
theorem exists_fill {m : Memory} (hsize : m.size = 65536) :
    ∃ m', Memory.fill 0 9 1 m = .ok () m' ∧ m'.load 1 0 0 = .ok 9 := by
  have hfits : (0 : UInt32).toNat + (1 : UInt32).toNat ≤ m.size := by
    rw [hsize]
    decide
  obtain ⟨m', hfill, hsize', -, -, hbytes⟩ := (Memory.fill_sets m 0 9 1).done hfits
  have hbyte : m'.data[0]? = some 9 := hbytes 0
  refine ⟨m', hfill, (Memory.load_eq_ok_iff (by decide)).2 ⟨hsize' ▸ hfits, ?_⟩⟩
  change 9 = (m'.data[0]?.getD 0).toNat + 256 * 0
  rw [hbyte]
  rfl

/-- A frame of `f` that is about to fill. -/
def fillingFrame : Frame where
  pc := 50
  locals := #[]
  operands := [1, 9, 0]
  resultCount := 0
  below := 0
  depth := 1

/-- A call of `f` that fills the byte while nobody holds the memory. -/
theorem invoke_filling {data : ByteArray} {m' : Memory}
    (h : Memory.fill 0 9 1 ⟨data, 1, 65536⟩ = .ok () m') :
    (filling ⟨data, 1, 65536⟩).invoke 0 "f" [] 6 = some (.ok [], filling m') := by
  let s := filling ⟨data, 1, 65536⟩
  let after : Config Unit := ⟨filling m', .run ⟨0, { fillingFrame with pc := 53, operands := [] }, []⟩,
    [.invocation 0 []]⟩
  have hthree : Config.run 3 (s.callConfig 0 (.export "f") [] []) =
      ⟨s, .run ⟨0, fillingFrame, []⟩, [.invocation 0 []]⟩ := by cbv
  have hfill : Config.step ⟨s, .run ⟨0, fillingFrame, []⟩, [.invocation 0 []]⟩ = after := by
    have hfuel : s.spendFuel 0 = (true, s) := by cbv
    have hfetch : s.fetch? 0 50 = some (.memoryFill, 53) := by cbv
    have hupdate : s.updateMemory? 0 (Memory.fill 0 9 1) = _ := updateMemory?_filling h
    have haccess : s.access 0 .memoryFill [1, 9, 0] = (.ok [], filling m') := by
      simp only [access, changeMemory]
      exact hupdate ▸ rfl
    simp only [Config.step, dispatch, hfuel, fillingFrame, hfetch, Frame.exec, execOutside, haccess]
    rfl
  have hfour : Config.run 4 (s.callConfig 0 (.export "f") [] []) = after := by
    rw [Config.run_succ, hthree, hfill]
  have hsix : Config.run 6 (s.callConfig 0 (.export "f") [] []) = Config.run 2 after :=
    (Config.run_add 4 2 _).trans (congrArg (Config.run 2) hfour)
  have hend : (Config.run 2 after).outcome? = some (.ok []) := by cbv
  have hstore : (Config.run 2 after).store = filling m' := by cbv
  rw [invoke, call_eq_run rfl, hsix, hend, hstore]
  rfl

/-- A memory of one page with a byte that is set is held.  A call that asks for its size returns and
leaves it as it was, and so does one that is still running; a call that fills the byte is refused.  Given
back, the memory serves again; if it is not held, the call fills the byte. -/
theorem held_view_is_stable_filling : ∃ (m m' : Memory) (t : Store Unit),
    m.size = 65536 ∧ m.load 1 0 0 = .ok 7 ∧
    (filling m).acquireAll [.memory 0 false] = (.ok (), filling m (.shared 1)) ∧
    (filling m (.shared 1)).invoke 0 "g" [] 4 = some (.ok [.i32 1], filling m (.shared 1)) ∧
    (filling m (.shared 1)).Shows 0 m ∧
    (Config.run 2 ((filling m (.shared 1)).callConfig 0 (.export "f") [] [])).store.Shows 0 m ∧
    (filling m (.shared 1)).invoke 0 "f" [] 5 = some (.error .memoryBorrowed, t) ∧
    (filling m (.shared 1)).execute 0 "f" [] 5 = some (.error .memoryBorrowed, t) ∧
    (t.releaseAll [.memory 0 false]).Serves 0 m ∧
    (filling m).invoke 0 "f" [] 6 = some (.ok [], filling m') ∧ m'.load 1 0 0 = .ok 9 := by
  obtain ⟨data, hsize, hload, hreachable⟩ := exists_reachable_filling
  let m : Memory := ⟨data, 1, 65536⟩
  have hinst : (filling m).instances[0]? = some _ := rfl
  have hviews : (filling m).acquireAll [.memory 0 false] = (.ok (), filling m (.shared 1)) := rfl
  obtain ⟨hshows, hrefused⟩ := held_view_is_stable (m := m) hinst rfl hviews
  -- A call in between, and one that is still running.
  have hasked : (filling m (.shared 1)).invoke 0 "g" [] 4 =
      some (.ok [.i32 1], filling m (.shared 1)) := by cbv
  have hbetween := hshows List.mem_cons_self _ (.between (.step .refl (.invoke hasked)))
  have hidle : ((filling m (.shared 1)).acquireAll []).1 = .ok () := rfl
  have hduring := hshows List.mem_cons_self _ (.during .refl 0 (.export "f") [] hidle 2)
  -- The call that fills is refused.
  have hcomes : (Config.run 3 ((filling m (.shared 1)).callConfig 0 (.export "f") [] [])).ComesTo 0
      .memoryFill := ⟨fillingFrame, [], 53, by cbv, by cbv, by cbv⟩
  obtain ⟨globals, fuel, hcall, hback, -, -, hserves⟩ := hrefused _ (.export "f") [] [] 3 .memoryFill
    false hreachable rfl trivial rfl List.mem_cons_self (.inl trivial) hcomes
  obtain ⟨hinvoke, hexecute⟩ := hcall 5 (Nat.le_refl 5)
  -- Without the view, it fills the byte.
  obtain ⟨m', hfill, hwritten⟩ := exists_fill (m := m) hsize
  refine ⟨m, m', _, hsize, hload, hviews, hasked, hbetween, hduring, hinvoke, hexecute "f" rfl rfl, ?_,
    invoke_filling hfill, hwritten⟩
  rw [hback]
  exact hserves rfl

end Store

end WasmEngine
