import WasmEngine.Instance.Basic
import WasmEngine.Machine.Step

/-!
# Proofs/Safety/Shape — what no step changes about the instances of a store

Running code changes memory, globals, budgets, loans and counters.  The `Shape` of an instance is
what it leaves alone: the module, the resolved functions, the table, the limits, and how many globals
and whether a memory there is.  Every operation of the machine keeps `Store.outline`.
-/

namespace WasmEngine

variable {σ α β : Type}

/-- What running code does not change about an instance. -/
structure Shape (σ : Type) where
  moduleId : Nat
  module : Module
  sideTable : SideTable
  functions : Array (Callable σ)
  table : Array (Option Nat)
  limits : Limits
  globalCount : Nat
  hasMemory : Bool

/-- The shape of an instance. -/
def Instance.shape (inst : Instance σ) : Shape σ where
  moduleId := inst.moduleId
  module := inst.module
  sideTable := inst.sideTable
  functions := inst.functions
  table := inst.table
  limits := inst.limits
  globalCount := inst.globals.size
  hasMemory := inst.memory.isSome

/-- What running code does not change about a store. -/
structure Outline (σ : Type) where
  shapes : Array (Shape σ)
  /-- The number of modules loaded so far. -/
  moduleCount : Nat

namespace Store

variable {s s' : Store σ} {id : InstanceId} {sh : Shape σ}

/-- The shapes of all instances. -/
def shapes (s : Store σ) : Array (Shape σ) := s.instances.map Instance.shape

/-- The outline of a store. -/
def outline (s : Store σ) : Outline σ := ⟨s.shapes, s.moduleCount⟩

theorem getElem?_shapes (s : Store σ) (id : InstanceId) :
    s.shapes[id]? = s.instances[id]?.map Instance.shape := Array.getElem?_map

/-- A shape is that of an instance. -/
theorem exists_of_shapes (h : s.shapes[id]? = some sh) :
    ∃ inst, s.instances[id]? = some inst ∧ inst.shape = sh := by
  rwa [getElem?_shapes, Option.map_eq_some_iff] at h

theorem exists_shape (hid : id < s.instances.size) : ∃ sh, s.shapes[id]? = some sh :=
  ⟨_, by rw [getElem?_shapes, Array.getElem?_eq_getElem hid]; rfl⟩

/-- What there is to see of a store when `g` is what there is to see of an instance. -/
def view (g : Instance σ → β) (s : Store σ) : Array β × σ × Nat :=
  (s.instances.map g, s.host, s.moduleCount)

/-- A view that shows the shapes compares outlines. -/
theorem outline_eq_of_view (h : s'.view Instance.shape = s.view Instance.shape) :
    s'.outline = s.outline := congrArg (fun v => Outline.mk v.1 v.2.2) h

/-- **What a change keeps of the one instance, it keeps of all.** -/
theorem view_withInstance {g : Instance σ → β} {missing : α} {f : Instance σ → α × Instance σ}
    (hf : ∀ inst, g (f inst).2 = g inst) : (s.withInstance id missing f).2.view g = s.view g := by
  rw [withInstance_eq]
  cases h : s.instances[id]? with
  | none => rfl
  | some inst =>
    refine congrArg (·, s.host, s.moduleCount) (Array.ext_getElem? fun i => ?_)
    simp only [Array.getElem?_map, Array.getElem?_setIfInBounds]
    split
    · next hi =>
      subst hi
      rw [h, Option.map_some, ← hf inst]
      split <;> simp_all
    · rfl

/-- An update of an instance that keeps its shape keeps the outline. -/
theorem outline_withInstance {missing : α} {f : Instance σ → α × Instance σ}
    (hf : ∀ inst, (f inst).2.shape = inst.shape) :
    (s.withInstance id missing f).2.outline = s.outline :=
  outline_eq_of_view (view_withInstance hf)

theorem view_modifyInstance {g : Instance σ → β} {f : Instance σ → Instance σ}
    (hf : ∀ inst, g (f inst) = g inst) : (s.modifyInstance id f).view g = s.view g :=
  view_withInstance hf

theorem outline_modifyInstance {f : Instance σ → Instance σ}
    (hf : ∀ inst, (f inst).shape = inst.shape) : (s.modifyInstance id f).outline = s.outline :=
  outline_withInstance hf

/-- A memory may change, but whether there is one does not. -/
@[simp] theorem outline_updateMemory? (op : Memory.Update α) :
    (s.updateMemory? id op).2.outline = s.outline := by
  refine outline_withInstance fun inst => ?_
  cases h : inst.memory with
  | none => rfl
  | some memory =>
    simp only
    split
    · split <;> simp [Instance.shape, h]
    · rfl

@[simp] theorem outline_changeMemory (op : Memory.Update α) :
    (s.changeMemory id op).2.outline = s.outline := by
  have h : (s.updateMemory? id op).2.outline = s.outline := outline_updateMemory? op
  unfold changeMemory
  split <;> simp_all

/-- A global may change, but not how many there are. -/
@[simp] theorem outline_setGlobal (index : Nat) (v : Slot) :
    (s.setGlobal id index v).2.outline = s.outline := by
  refine outline_withInstance fun inst => ?_
  split
  · simp [Instance.shape]
  · rfl

/-- Tables keep their references, and the rest of an access is about memory and globals. -/
@[simp] theorem outline_access (instr : Instr BlockJump) (operands : List Slot) :
    (s.access id instr operands).2.outline = s.outline := by
  unfold access
  split <;> simp

/-- Spending fuel changes a budget and nothing else. -/
theorem view_spendFuel {g : Instance σ → β} (hg : ∀ inst fuel, g { inst with fuel } = g inst) :
    (s.spendFuel id).2.view g = s.view g := by
  unfold spendFuel
  split
  · rfl
  · rfl
  · exact view_modifyInstance fun inst => hg inst _

/-- A hook sees the memory and the state of the host. -/
@[simp] theorem outline_runHook (h : MemoryHook σ) (args : List Value) :
    (s.runHook id h args).2.outline = s.outline := by
  unfold runHook
  simp only
  split
  all_goals
    next heq =>
    have houtline := congrArg (fun x => x.2.outline) heq
    exact houtline.symm.trans (outline_updateMemory? _)

/-- A host function that starts changes the counters of the calling instance and nothing else. -/
theorem view_callImport {g : Instance σ → β}
    (hg : ∀ inst hostDepth reentryDepth, g { inst with hostDepth, reentryDepth } = g inst)
    (type : Signature) (ref : ImportName) (f : HostFunc σ) (args : List Slot) (depth : Nat) :
    (s.callImport id type ref (.func f) args depth).2.view g = s.view g := by
  let enter (inst : Instance σ) : Option HostCaller × Instance σ :=
    if inst.limits.maxHostDepth ≤ inst.hostDepth then (none, inst)
    else
      (some { inst := id, ref, outerHostDepth := inst.hostDepth
              outerReentryDepth := inst.reentryDepth },
        { inst with hostDepth := inst.hostDepth + 1, reentryDepth := depth })
  have h : (s.withInstance id none enter).2.view g = s.view g := by
    refine view_withInstance fun inst => ?_
    unfold enter
    split
    · rfl
    · exact hg ..
  simp only [callImport]
  split <;> exact h

/-- A call of an import counts the host functions that run. -/
@[simp] theorem outline_callImport (type : Signature) (ref : ImportName)
    (binding : ImportBinding σ) (args : List Slot) (depth : Nat) :
    (s.callImport id type ref binding args depth).2.outline = s.outline := by
  cases binding with
  | hook h => exact outline_runHook ..
  | func f => exact outline_eq_of_view (view_callImport (fun _ _ _ => rfl) type ref f args depth)

@[simp] theorem outline_callFunction (func : Nat) (args : List Slot) (depth : Nat) :
    (s.callFunction id func args depth).2.outline = s.outline := by
  unfold callFunction
  split
  · rfl
  · split
    · rfl
    · exact outline_callImport ..
    · split <;> rfl

/-- Borrowing changes loans and nothing else. -/
theorem view_acquire {g : Instance σ → β} (hg : ∀ inst loan, g { inst with loan } = g inst)
    (hold : Hold) : (s.acquire hold).2.view g = s.view g := by
  cases hold with
  | hook h =>
    simp only [acquire]
    split <;> rfl
  | memory id exclusive =>
    refine view_withInstance fun inst => ?_
    split
    · rfl
    · split
      · exact hg ..
      · exact hg ..
      · rfl

/-- A loan that is given back is all that changes. -/
theorem view_release {g : Instance σ → β} (hg : ∀ inst loan, g { inst with loan } = g inst)
    (hold : Hold) : (s.release hold).view g = s.view g := by
  cases hold with
  | hook h => rfl
  | memory id exclusive =>
    refine view_withInstance fun inst => ?_
    simp only
    split
    · rfl
    · split
      · exact hg ..
      · exact hg ..
      · rfl

/-- So are all that are taken one after the other, also when one is refused and those before it go
back. -/
theorem view_acquireAll {g : Instance σ → β} (hg : ∀ inst loan, g { inst with loan } = g inst)
    (holds : List Hold) : (s.acquireAll holds).2.view g = s.view g := by
  induction holds generalizing s with
  | nil => rfl
  | cons hold holds ih =>
    have hone := view_acquire (s := s) hg hold
    rw [acquireAll]
    split
    · next heq => rwa [heq] at hone
    · next s₁ heq =>
      rw [heq] at hone
      have hrest := (ih (s := s₁)).trans hone
      split
      · next heq' => rwa [heq'] at hrest
      · next s₂ heq' =>
        rw [heq'] at hrest
        exact (view_release hg hold).trans hrest

@[simp] theorem outline_acquireAll (holds : List Hold) :
    (s.acquireAll holds).2.outline = s.outline :=
  outline_eq_of_view (view_acquireAll (fun _ _ => rfl) holds)

@[simp] theorem outline_releaseAll (holds : List Hold) :
    (s.releaseAll holds).outline = s.outline := by
  induction holds generalizing s with
  | nil => rfl
  | cons hold holds ih =>
    exact (ih (s := s.release hold)).trans
      (outline_eq_of_view (view_release (fun _ _ => rfl) hold))

/-- An invocation checks its arguments and starts a call. -/
@[simp] theorem outline_invocation (callee : Callee) (args : List Value) (depth : Nat) :
    (s.invocation id callee args depth).2.outline = s.outline := by
  unfold invocation
  split
  · rfl
  · split
    · rfl
    · split
      · rfl
      · exact outline_callFunction ..

@[simp] theorem outline_endHostCall (call : HostCall) (outcome : Except Error (Option Value)) :
    (s.endHostCall call outcome).2.outline = s.outline := by
  unfold endHostCall
  split
  · rfl
  · exact outline_modifyInstance fun _ => rfl

@[simp] theorem outline_updateCallerMemory (call : HostCall) (op : Memory.Update α) :
    (s.updateCallerMemory call op).2.outline = s.outline := by
  unfold updateCallerMemory
  split
  · rfl
  · exact outline_updateMemory? op

end Store

end WasmEngine
