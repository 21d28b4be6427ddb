import WasmEngine.Host.Basic
import WasmEngine.Limits
import WasmEngine.Module.Basic

/-!
# Instance/Basic — instances and the store

A `Store` holds all instances, the embedder's state, and what is borrowed at the moment.  An instance
holds its resolved functions and everything that its code can change.  `Store.withInstance` is the
one way to change an instance: `withInstance_eq` says what it does to the store.
-/

namespace WasmEngine

/-- A module with its identity in a store. -/
structure LoadedModule where
  id : Nat
  module : Module

/-- A function that an instance can call. -/
inductive Callable (σ : Type) where
  /-- A function of the module: its type, where its code starts, and how many locals it declares
  besides its parameters. -/
  | code (type : Signature) (entry declared : Nat)
  /-- An import and its binding. -/
  | imported (type : Signature) (ref : ImportName) (binding : ImportBinding σ)

/-- The type of a function. -/
def Callable.type {σ : Type} : Callable σ → Signature
  | code type _ _ => type
  | imported type _ _ => type

/-- How the memory of an instance is borrowed. -/
inductive Loan where
  /-- To a number of views that may read. -/
  | shared (views : Nat)
  /-- To one view that may write. -/
  | exclusive
deriving DecidableEq, Repr

/-- An instance of a module. -/
structure Instance (σ : Type) where
  moduleId : Nat
  module : Module
  sideTable : SideTable
  functions : Array (Callable σ)
  /-- The function in each slot of the table, if there is one. -/
  table : Array (Option Nat) := #[]
  limits : Limits
  memory : Option Memory := none
  loan : Loan := .shared 0
  globals : Array Slot := #[]
  /-- The instructions that may still run; `none` for no bound. -/
  fuel : Option Nat
  /-- Whether the instance trapped or was aborted, and may not run again. -/
  isPoisoned : Bool := false
  /-- The number of host functions that the instance has called and that have not returned. -/
  hostDepth : Nat := 0
  /-- The call depth of the innermost of them, below which no invocation starts. -/
  reentryDepth : Nat := 0

/-- All instances, with the state of the embedder. -/
structure Store (σ : Type) where
  instances : Array (Instance σ) := #[]
  host : σ
  /-- The hooks that are borrowed. -/
  heldHooks : List Nat := []
  /-- The number of modules loaded so far. -/
  moduleCount : Nat := 0

namespace Instance

variable {σ : Type}

/-- The index of the exported function of a name. -/
def exportedFunc (inst : Instance σ) (name : String) : Except Error Nat :=
  match inst.module.export? name with
  | some e => if e.kind = .func then .ok e.index else .error (.unknownExport name)
  | none => .error (.unknownExport name)

/-- The type of the function at an index. -/
def funcType (inst : Instance σ) (func : Nat) : Except Error Signature :=
  match inst.functions[func]? with
  | some f => .ok f.type
  | none => .error (.fault .missingFunction)

/-- The signature of the exported function of a name. -/
def signature (inst : Instance σ) (name : String) : Except Error Signature := do
  inst.funcType (← inst.exportedFunc name)

/-- The exported functions and their signatures, in order. -/
def exportedFunctions (inst : Instance σ) : List (String × Signature) :=
  inst.module.exports.filterMap fun e =>
    if e.kind = .func then inst.functions[e.index]?.map fun f => (e.name, f.type) else none

/-- The value of an exported global. -/
def global? (inst : Instance σ) (name : String) : Option Value := do
  let e ← inst.module.export? name
  guard (e.kind = .global)
  let g ← inst.module.globals[e.index]?
  let v ← inst.globals[e.index]?
  pure (Value.ofSlot v g.type)

/-- A handle to an exported function of the given parameters and results. -/
def typedFunc (inst : Instance σ) (name : String) (params results : List ValType) :
    Except Error TypedFunc := do
  let index ← inst.exportedFunc name
  let type ← inst.funcType index
  if type = { params, results } then pure { index, moduleId := inst.moduleId, params, results }
  else throw .argumentMismatch

end Instance

namespace Store

variable {σ α : Type}

/-- Gives a module an identity of its own. -/
def load (s : Store σ) (module : Module) : LoadedModule × Store σ :=
  ({ id := s.moduleCount, module }, { s with moduleCount := s.moduleCount + 1 })

/-- Changes the instance `id` and yields a result; `missing` if there is no such instance. -/
def withInstance (s : Store σ) (id : InstanceId) (missing : α)
    (f : Instance σ → α × Instance σ) : α × Store σ :=
  let ⟨instances, host, heldHooks, moduleCount⟩ := s
  let change (inst : Instance σ) : StateM α (Instance σ) := fun _ => (f inst).swap
  let (instances, a) := (instances.modifyM id change).run missing
  (a, ⟨instances, host, heldHooks, moduleCount⟩)

/-- Changes the instance `id`, if there is one. -/
def modifyInstance (s : Store σ) (id : InstanceId) (f : Instance σ → Instance σ) : Store σ :=
  (s.withInstance id () fun inst => ((), f inst)).2

theorem withInstance_eq (s : Store σ) (id : InstanceId) (missing : α)
    (f : Instance σ → α × Instance σ) :
    s.withInstance id missing f =
      match s.instances[id]? with
      | none => (missing, s)
      | some inst =>
        ((f inst).1, { s with instances := s.instances.setIfInBounds id (f inst).2 }) := by
  by_cases h : id < s.instances.size
  · simp only [withInstance, Array.modifyM, StateT.run, Array.setIfInBounds, h, dite_true,
      Array.getElem?_eq_getElem]
    rfl
  · simp only [withInstance, Array.modifyM, StateT.run, h, dite_false,
      Array.getElem?_eq_none (Nat.le_of_not_lt h)]
    rfl

/-- **A change of one instance leaves the others alone.** -/
theorem getElem?_modifyInstance (s : Store σ) (id other : InstanceId)
    (f : Instance σ → Instance σ) :
    (s.modifyInstance id f).instances[other]? =
      if other = id then s.instances[other]?.map f else s.instances[other]? := by
  rw [modifyInstance, withInstance_eq]
  cases h : s.instances[id]? with
  | none => split <;> simp_all
  | some inst =>
    rw [Array.getElem?_setIfInBounds]
    by_cases ho : other = id
    · subst ho
      obtain ⟨hi, rfl⟩ := Array.getElem?_eq_some_iff.1 h
      simp [hi]
    · simp [ho, Ne.symm ho]

/-- The memory of an instance for reading; `none` if it has no memory. -/
def viewMemory? (s : Store σ) (id : InstanceId) : Option (Except Error Memory) := do
  let inst ← s.instances[id]?
  let memory ← inst.memory
  match inst.loan with
  | .shared _ => pure (.ok memory)
  | .exclusive => pure (.error .memoryBorrowed)

/-- Changes the memory of an instance; `none` if it has no memory.  A memory that is lent is not
touched. -/
def updateMemory? (s : Store σ) (id : InstanceId) (op : Memory.Update α) :
    Option (Except Error α) × Store σ :=
  s.withInstance id none fun inst =>
    match inst.memory with
    | none => (none, inst)
    | some memory =>
      if inst.loan = .shared 0 then
        -- The instance lets go of the memory, so that it is changed in place.
        let inst := { inst with memory := none }
        match op memory with
        | .ok a memory => (some (.ok a), { inst with memory := some memory })
        | .error e memory => (some (.error e), { inst with memory := some memory })
      else (some (.error .memoryBorrowed), inst)

end Store

end WasmEngine
