import WasmEngine.Proofs.Safety.Shape

/-!
# Proofs/Nesting/Core — what an instance keeps about its calls

Instructions change memory, globals, budgets and loans.  The `core` of an instance is all the rest,
with the counters of its calls and the mark of being poisoned.  `Store.cores` changes in three places
only: where a host function starts, where it ends, and where an invocation ends fatally.
-/

namespace WasmEngine

variable {σ α β : Type}

/-- An instance without its memory, globals, budget and loans. -/
def Instance.core (inst : Instance σ) : Instance σ :=
  { inst with memory := none, loan := .shared 0, globals := #[], fuel := none }

namespace Store

variable {s s' : Store σ} {id : InstanceId}

/-- The cores of all instances. -/
def cores (s : Store σ) : Array (Instance σ) := s.instances.map Instance.core

/-- A view that shows the cores compares them. -/
theorem cores_eq_of_view (h : s'.view Instance.core = s.view Instance.core) :
    s'.cores = s.cores := congrArg Prod.fst h

theorem getElem?_cores (s : Store σ) (id : InstanceId) :
    s.cores[id]? = s.instances[id]?.map Instance.core := Array.getElem?_map

/-- Stores of the same cores have the same instances, up to what instructions change. -/
theorem exists_of_cores {inst' : Instance σ} (h : s'.cores = s.cores)
    (hinst : s'.instances[id]? = some inst') :
    ∃ inst, s.instances[id]? = some inst ∧ inst.core = inst'.core := by
  have hid := congrArg (·[id]?) h
  simp only [getElem?_cores, hinst, Option.map_some] at hid
  exact Option.map_eq_some_iff.1 hid.symm

theorem size_cores (s : Store σ) : s.cores.size = s.instances.size := Array.size_map

/-- An update of an instance that keeps its core keeps all cores. -/
theorem cores_withInstance {missing : α} {f : Instance σ → α × Instance σ}
    (hf : ∀ inst, (f inst).2.core = inst.core) :
    (s.withInstance id missing f).2.cores = s.cores :=
  cores_eq_of_view (view_withInstance hf)

theorem cores_modifyInstance {f : Instance σ → Instance σ}
    (hf : ∀ inst, (f inst).core = inst.core) : (s.modifyInstance id f).cores = s.cores :=
  cores_withInstance hf

/-- The core has no bytes of memory: whoever changes some leaves it alone. -/
@[simp] theorem cores_updateMemory? (op : Memory.Update α) :
    (s.updateMemory? id op).2.cores = s.cores := by
  refine cores_withInstance fun inst => ?_
  cases inst.memory with
  | none => rfl
  | some memory =>
    simp only
    split
    · cases op memory <;> rfl
    · rfl

@[simp] theorem cores_changeMemory (op : Memory.Update α) :
    (s.changeMemory id op).2.cores = s.cores := by
  have h : (s.updateMemory? id op).2.cores = s.cores := cores_updateMemory? op
  unfold changeMemory
  split <;> simp_all

/-- Nor has it values of globals. -/
@[simp] theorem cores_setGlobal (index : Nat) (v : Slot) :
    (s.setGlobal id index v).2.cores = s.cores := by
  refine cores_withInstance fun inst => ?_
  split <;> rfl

/-- An instruction that works on an instance does so outside of the core. -/
@[simp] theorem cores_access (instr : Instr BlockJump) (operands : List Slot) :
    (s.access id instr operands).2.cores = s.cores := by
  unfold access
  split <;> simp

/-- Nor has it fuel. -/
@[simp] theorem cores_spendFuel : (s.spendFuel id).2.cores = s.cores :=
  cores_eq_of_view (view_spendFuel fun _ _ => rfl)

/-- A hook sees the memory and the state of the host. -/
@[simp] theorem cores_runHook (h : MemoryHook σ) (args : List Value) :
    (s.runHook id h args).2.cores = s.cores := by
  unfold runHook
  simp only
  split
  all_goals
    next heq =>
    have hcores := congrArg (fun x => x.2.cores) heq
    exact hcores.symm.trans (cores_updateMemory? _)

@[simp] theorem cores_acquireAll (holds : List Hold) : (s.acquireAll holds).2.cores = s.cores :=
  cores_eq_of_view (view_acquireAll (fun _ _ => rfl) holds)

/-- Whoever gives back what it has borrowed changes loans alone. -/
theorem view_releaseAll {g : Instance σ → β} (hg : ∀ inst loan, g { inst with loan } = g inst)
    (holds : List Hold) : (s.releaseAll holds).view g = s.view g := by
  induction holds generalizing s with
  | nil => rfl
  | cons hold holds ih => exact (ih (s := s.release hold)).trans (view_release hg hold)

@[simp] theorem cores_releaseAll (holds : List Hold) : (s.releaseAll holds).cores = s.cores :=
  cores_eq_of_view (view_releaseAll (fun _ _ => rfl) holds)

@[simp] theorem cores_updateCallerMemory (call : HostCall) (op : Memory.Update α) :
    (s.updateCallerMemory call op).2.cores = s.cores := by
  unfold updateCallerMemory
  split
  · rfl
  · exact cores_updateMemory? op

@[simp] theorem cores_setFuel (fuel : Option Nat) :
    (s.modifyInstance id fun inst => { inst with fuel }).cores = s.cores :=
  cores_modifyInstance fun _ => rfl

/-! ## Poisoned instances -/

/-- Whether an instance is poisoned. -/
def IsPoisoned (s : Store σ) (id : InstanceId) : Prop :=
  s.instances[id]?.any (·.isPoisoned)

/-- The core knows whether its instance is poisoned. -/
theorem isPoisoned_eq_cores (s : Store σ) (id : InstanceId) :
    s.IsPoisoned id = (s.cores[id]?.any (·.isPoisoned) = true) := by
  rw [IsPoisoned, getElem?_cores]
  cases s.instances[id]? <;> rfl

/-- As long as the cores stay, no instance is poisoned. -/
theorem isPoisoned_congr (h : s'.cores = s.cores) : s'.IsPoisoned id ↔ s.IsPoisoned id := by
  rw [isPoisoned_eq_cores, isPoisoned_eq_cores, h]

theorem isPoisoned_iff {inst : Instance σ} (h : s.instances[id]? = some inst) :
    s.IsPoisoned id ↔ inst.isPoisoned := by
  rw [IsPoisoned, h, Option.any_some]

end Store

end WasmEngine
