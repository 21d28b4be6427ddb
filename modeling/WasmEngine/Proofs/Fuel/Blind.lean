import WasmEngine.Proofs.Limits.Rebound

/-!
# Proofs/Fuel/Blind — nothing but dispatch looks at fuel

An operation is blind to a budget if it does the same, and leaves the same, whatever the budget of an
instance is: it commutes with `Store.setFuel`.  All operations of the machine are, except that a
dispatch loop spends fuel and that a host function may ask for another budget (`HostM.Spares` says
that it does not).
-/

namespace WasmEngine

variable {σ α : Type}

/-- The result of an operation, with another budget for an instance. -/
def Store.refuel (id : InstanceId) (a : Option Nat) (x : α × Store σ) : α × Store σ :=
  (x.1, x.2.setFuel id a)

/-- A transition with another budget for an instance. -/
def Transition.setFuel (t : Transition σ) (id : InstanceId) (a : Option Nat) : Transition σ :=
  { t with store := t.store.setFuel id a }

/-- A configuration with another budget for an instance. -/
def Config.setFuel (c : Config σ) (id : InstanceId) (a : Option Nat) : Config σ :=
  { c with store := c.store.setFuel id a }

namespace Store

variable {s s' : Store σ} {id i : InstanceId} {a b : Option Nat} {inst : Instance σ}

/-- Other instances keep their fuel, and all else is kept by each. -/
theorem getElem?_setFuel (s : Store σ) (id i : InstanceId) (a : Option Nat) :
    (s.setFuel id a).instances[i]? =
      if i = id then s.instances[i]?.map ({ · with fuel := a }) else s.instances[i]? :=
  getElem?_modifyInstance ..

theorem getElem?_setFuel_of_none (h : s.instances[i]? = none) :
    (s.setFuel id a).instances[i]? = none :=
  getElem?_rebound_of_none (l := fun limits => limits) (a := fun _ => a) h

/-- Another budget leaves the rest of every instance. -/
theorem getElem?_setFuel_of_some (h : s.instances[i]? = some inst) (id : InstanceId)
    (a : Option Nat) : ∃ fuel, (s.setFuel id a).instances[i]? = some { inst with fuel } := by
  rw [getElem?_setFuel, h]
  split
  · exact ⟨a, rfl⟩
  · exact ⟨inst.fuel, rfl⟩

/-- The budget that is set last counts. -/
theorem setFuel_setFuel (s : Store σ) (id : InstanceId) (a b : Option Nat) :
    (s.setFuel id a).setFuel id b = s.setFuel id b := by
  refine ext_of_instances (fun i => ?_) rfl rfl rfl
  rw [getElem?_setFuel, getElem?_setFuel, getElem?_setFuel]
  split
  · cases s.instances[i]? <;> rfl
  · rfl

/-- **A change that is blind for one instance is blind.** -/
theorem withInstance_setFuel {missing : α} {f : Instance σ → α × Instance σ}
    (hf : ∀ (inst : Instance σ) (a : Option Nat),
      f { inst with fuel := a } = ((f inst).1, { (f inst).2 with fuel := a })) :
    (s.setFuel id a).withInstance i missing f = refuel id a (s.withInstance i missing f) := by
  refine Prod.ext ?_ (ext_of_instances (fun j => ?_) rfl rfl rfl)
  · rw [refuel, withInstance_eq, withInstance_eq]
    cases hinst : s.instances[i]? with
    | none => rw [getElem?_setFuel_of_none hinst]
    | some inst =>
      obtain ⟨fuel, hinst'⟩ := getElem?_setFuel_of_some hinst id a
      rw [hinst']
      exact (congrArg Prod.fst (hf inst fuel) :)
  · rw [refuel, getElem?_withInstance, getElem?_setFuel, getElem?_setFuel, getElem?_withInstance]
    by_cases hi : j = i
    · by_cases hid : j = id
      · rw [if_pos hi, if_pos hid, if_pos hid, if_pos hi, Option.map_map, Option.map_map]
        exact congrArg (Option.map · _) (funext fun inst => congrArg Prod.snd (hf inst a))
      · rw [if_pos hi, if_neg hid, if_neg hid, if_pos hi]
    · rw [if_neg hi, if_neg hi]

/-- A change that is blind for fuel commutes with setting it. -/
theorem modifyInstance_setFuel {f : Instance σ → Instance σ}
    (hf : ∀ (inst : Instance σ) (a : Option Nat),
      f { inst with fuel := a } = { f inst with fuel := a }) :
    (s.setFuel id a).modifyInstance i f = (s.modifyInstance i f).setFuel id a :=
  congrArg Prod.snd (withInstance_setFuel fun inst a => congrArg (Prod.mk ()) (hf inst a))

/-! ## What looks at no bound -/

/-- Another budget is one way to change the bounds of an instance. -/
theorem setFuel_eq_rebound (s : Store σ) (id : InstanceId) (a : Option Nat) :
    s.setFuel id a = s.rebound id (fun limits => limits) fun _ => a := rfl

/-- The bytes of a memory have nothing to do with fuel. -/
theorem viewMemory?_setFuel : (s.setFuel id a).viewMemory? i = s.viewMemory? i := by
  rw [setFuel_eq_rebound, viewMemory?_rebound]

theorem updateMemory?_setFuel (op : Memory.Update α) :
    (s.setFuel id a).updateMemory? i op = refuel id a (s.updateMemory? i op) := by
  rw [setFuel_eq_rebound, updateMemory?_rebound]
  rfl

/-- Nor has what instructions do to memory, tables and globals. -/
theorem access_setFuel (instr : Instr BlockJump) (operands : List Slot) :
    (s.setFuel id a).access i instr operands = refuel id a (s.access i instr operands) := by
  rw [setFuel_eq_rebound, access_rebound]
  rfl

/-- Nor has the code. -/
theorem fetch?_setFuel (pc : Nat) : (s.setFuel id a).fetch? i pc = s.fetch? i pc := by
  rw [setFuel_eq_rebound, fetch?_rebound]

theorem tableEntry_setFuel (type slot : Nat) :
    (s.setFuel id a).tableEntry i type slot = s.tableEntry i type slot := by
  rw [setFuel_eq_rebound, tableEntry_rebound]

/-- Nor has who has borrowed what. -/
theorem acquireAll_setFuel (holds : List Hold) :
    (s.setFuel id a).acquireAll holds = refuel id a (s.acquireAll holds) := by
  rw [setFuel_eq_rebound, acquireAll_rebound]
  rfl

theorem releaseAll_setFuel (holds : List Hold) :
    (s.setFuel id a).releaseAll holds = (s.releaseAll holds).setFuel id a := by
  rw [setFuel_eq_rebound, releaseAll_rebound]
  rfl

/-! ## Calls -/

/-- What an import has answered is checked alike. -/
theorem importOutcome_setFuel (ref : ImportName) (results : List ValType)
    (outcome : Except Error (Option Value)) :
    (s.setFuel id a).importOutcome i ref results outcome =
      s.importOutcome i ref results outcome := by
  have hpoisoned : (s.setFuel id a).instances[i]?.any (·.isPoisoned) =
      s.instances[i]?.any (·.isPoisoned) := by
    rw [getElem?_setFuel]
    split
    · cases s.instances[i]? <;> rfl
    · rfl
  unfold importOutcome
  rw [hpoisoned]

/-- What a memory hook answers, by what became of the memory. -/
def hookAnswer : Option (Except Error (Except Error (Option Value) × σ)) × Store σ →
    Except Error (Option Value) × Store σ
  | (none, s) => (.error (.link .unknownMemory), s)
  | (some (.error e), s) => (.error e, s)
  | (some (.ok (outcome, host)), s) => (outcome, { s with host })

/-- A hook is given the memory and its arguments, and no fuel. -/
theorem runHook_setFuel (h : MemoryHook σ) (args : List Value) :
    (s.setFuel id a).runHook i h args = refuel id a (s.runHook i h args) := by
  have hanswer (x : Option (Except Error (Except Error (Option Value) × σ)) × Store σ) :
      hookAnswer (refuel id a x) = refuel id a (hookAnswer x) := by
    obtain ⟨outcome, s⟩ := x
    cases outcome with
    | none => rfl
    | some outcome => cases outcome <;> rfl
  exact (congrArg hookAnswer (updateMemory?_setFuel _)).trans (hanswer _)

/-- Calls of imports are counted, not paid. -/
theorem callImport_setFuel (type : Signature) (ref : ImportName) (binding : ImportBinding σ)
    (args : List Slot) (depth : Nat) :
    (s.setFuel id a).callImport i type ref binding args depth =
      refuel id a (s.callImport i type ref binding args depth) := by
  cases binding with
  | hook h =>
    simp only [callImport, runHook_setFuel]
    exact congrArg (fun outcome => (Control.done outcome, _)) (importOutcome_setFuel ..)
  | func f =>
    simp only [callImport]
    rw [withInstance_setFuel fun inst a => by simp only; split <;> rfl]
    generalize s.withInstance i _ _ = x
    obtain ⟨caller, s⟩ := x
    cases caller <;> rfl

/-- A function starts without fuel; it needs some for its first instruction. -/
theorem callFunction_setFuel (func : Nat) (args : List Slot) (depth : Nat) :
    (s.setFuel id a).callFunction i func args depth =
      refuel id a (s.callFunction i func args depth) := by
  unfold callFunction
  cases hinst : s.instances[i]? with
  | none =>
    rw [getElem?_setFuel_of_none hinst]
    rfl
  | some inst =>
    obtain ⟨fuel, hinst'⟩ := getElem?_setFuel_of_some hinst id a
    simp only [hinst']
    cases inst.functions[func]? with
    | none => rfl
    | some callee =>
      cases callee with
      | imported type ref binding => exact callImport_setFuel ..
      | code type entry declared =>
        simp only
        cases Frame.new inst.limits type entry declared args 0 depth <;> rfl

/-- So does an invocation, which may fail before any instruction. -/
theorem invocation_setFuel (callee : Callee) (args : List Value) (depth : Nat) :
    (s.setFuel id a).invocation i callee args depth =
      refuel id a (s.invocation i callee args depth) := by
  unfold invocation
  cases hinst : s.instances[i]? with
  | none =>
    rw [getElem?_setFuel_of_none hinst]
    rfl
  | some inst =>
    obtain ⟨fuel, hinst'⟩ := getElem?_setFuel_of_some hinst id a
    have hlookup : lookupCallee { inst with fuel } callee args = lookupCallee inst callee args := by
      cases callee <;> rfl
    simp only [hinst', hlookup, callFunction_setFuel]
    cases lookupCallee inst callee args with
    | error e => rfl
    | ok found =>
      simp only
      split <;> rfl

/-! ## Host functions -/

/-- The end of a host call checks its answer and gives back its frame. -/
theorem endHostCall_setFuel (call : HostCall) (outcome : Except Error (Option Value)) :
    (s.setFuel id a).endHostCall call outcome = refuel id a (s.endHostCall call outcome) := by
  obtain ⟨caller, depth, results⟩ := call
  cases caller with
  | none => rfl
  | some c =>
    simp only [endHostCall]
    rw [modifyInstance_setFuel fun _ _ => rfl, importOutcome_setFuel]
    rfl

theorem callerMemory_setFuel (call : HostCall) :
    (s.setFuel id a).callerMemory call = s.callerMemory call := by
  unfold callerMemory
  split
  · rfl
  · rw [viewMemory?_setFuel]

theorem updateCallerMemory_setFuel (call : HostCall) (op : Memory.Update α) :
    (s.setFuel id a).updateCallerMemory call op = refuel id a (s.updateCallerMemory call op) := by
  unfold updateCallerMemory
  split
  · rfl
  · simp only [updateMemory?_setFuel]
    rfl

end Store

/-! ## Dispatch -/

namespace Store

variable {s s₁ s' : Store σ} {id i : InstanceId} {a b : Option Nat} {r : Run}

/-- A call from a dispatch loop is blind as well: it is the dispatch that pays. -/
theorem callFrom_setFuel (func : Nat) :
    (s.setFuel id a).callFrom r func = (s.callFrom r func).setFuel id a := by
  unfold callFrom
  cases hinst : s.instances[r.inst]? with
  | none =>
    simp only [getElem?_setFuel_of_none hinst, hinst]
    rfl
  | some inst =>
    obtain ⟨fuel, hinst'⟩ := getElem?_setFuel_of_some hinst id a
    simp only [hinst', hinst, callImport_setFuel]
    cases inst.functions[func]? with
    | none => rfl
    | some callee =>
      simp only
      split
      · rfl
      · cases callee with
        | imported type ref binding => rfl
        | code type entry declared =>
          simp only
          split <;> rfl

/-- So is an instruction that needs more than its frame. -/
theorem execOutside_setFuel (instr : Instr BlockJump) :
    (s.setFuel id a).execOutside r instr = (s.execOutside r instr).setFuel id a := by
  unfold execOutside
  split
  · exact callFrom_setFuel _
  · split
    · rfl
    · rw [tableEntry_setFuel]
      split
      · exact callFrom_setFuel _
      · rfl
  · rw [access_setFuel]
    generalize s.access r.inst _ _ = x
    obtain ⟨outcome, s⟩ := x
    cases outcome <;> rfl

/-- So is the end of a function. -/
theorem leave_setFuel : (s.setFuel id a).leave r = (s.leave r).setFuel id a := by
  obtain ⟨i, frame, callers⟩ := r
  simp only [leave]
  split
  · rfl
  · cases callers <;> rfl

/-- **Once fuel has been spent, dispatch is blind.** -/
theorem dispatch_setFuel (h : s.spendFuel r.inst = (true, s₁))
    (h' : s'.spendFuel r.inst = (true, s₁.setFuel id a)) :
    s'.dispatch r = (s.dispatch r).setFuel id a := by
  obtain ⟨i, frame, callers⟩ := r
  simp only [dispatch, h, h', fetch?_setFuel]
  cases s₁.fetch? i frame.pc with
  | none => rfl
  | some found =>
    obtain ⟨instr, pc⟩ := found
    simp only
    cases { frame with pc }.exec frame.pc instr with
    | error e => rfl
    | ok flow =>
      cases flow with
      | next frame => rfl
      | leave frame => exact leave_setFuel
      | outside frame => exact execOutside_setFuel instr

end Store

end WasmEngine
