import WasmEngine.Instance.Allocate
import WasmEngine.Machine.Step

/-!
# Embedding — what an embedder does with a store

An embedder instantiates modules, invokes exports by name or through typed handles, and may keep
memory or a hook borrowed meanwhile.  Whatever runs code takes a budget of machine steps and yields
`none` if that is not enough; budgets are cut off nowhere else, so an answer does not depend on the
budget that gave it (`Store.complete_of_le`).
-/

namespace WasmEngine

/-- How an invocation ends, where traps and aborts count as results. -/
inductive Outcome where
  | returned (values : List Value)
  | trapped (cause : Trap)
  | hostAborted (message : String)
deriving DecidableEq, Repr

/-- The outcome that a result of an invocation is; other failures stay failures. -/
def Outcome.ofResult : Except Error (List Value) → Except Error Outcome
  | .ok values => .ok (.returned values)
  | .error (.trap cause) => .ok (.trapped cause)
  | .error (.hostAbort message) => .ok (.hostAborted message)
  | .error e => .error e

namespace Store

variable {σ : Type}

/-- Runs what is in control to its end, on behalf of what waits for it. -/
def complete (store : Store σ) (control : Control σ) (pending : List (Pending σ))
    (budget : Nat) : Option (Except Error (List Slot) × Store σ) :=
  let c := Config.run budget { store, control, pending }
  c.outcome?.map (·, c.store)

theorem complete_of_le {s : Store σ} {control : Control σ} {pending : List (Pending σ)}
    {m n : Nat} {r : Except Error (List Slot) × Store σ}
    (h : s.complete control pending m = some r) (hmn : m ≤ n) :
    s.complete control pending n = some r := by
  unfold complete at h ⊢
  rw [Config.run_of_le _ hmn]
  · exact h
  · exact Option.isSome_iff_exists.2 (Option.map_eq_some_iff.1 h |>.imp fun _ h => h.1)

/-- Calls a function of an instance, with some things borrowed during the call. -/
def call (s : Store σ) (id : InstanceId) (callee : Callee) (args : List Value)
    (holds : List Hold) (budget : Nat) : Option (Except Error (List Value) × Store σ) :=
  match s.acquireAll holds with
  | (.error e, s) => some (.error e, s)
  | (.ok (), s) =>
    let ((control, results), s) := s.invocation id callee args 0
    (s.complete control [.invocation id holds] budget).map fun (outcome, s) =>
      (outcome.map (Value.ofSlots · results), s)

/-- Calls an exported function. -/
def invoke (s : Store σ) (id : InstanceId) (name : String) (args : List Value) (budget : Nat) :
    Option (Except Error (List Value) × Store σ) :=
  s.call id (.export name) args [] budget

/-- Calls an exported function; traps and aborts are outcomes. -/
def execute (s : Store σ) (id : InstanceId) (name : String) (args : List Value) (budget : Nat) :
    Option (Except Error Outcome × Store σ) :=
  (s.invoke id name args budget).map fun (result, s) => (Outcome.ofResult result, s)

/-- Calls a function through a typed handle. -/
def callTyped (s : Store σ) (id : InstanceId) (f : TypedFunc) (args : List Value)
    (budget : Nat) : Option (Except Error (List Value) × Store σ) :=
  s.call id (.typed f) args [] budget

/-- Adds an instance of a module and runs its start function.  If that fails, no instance is
added, but what the function did elsewhere stays done. -/
def instantiate (s : Store σ) (m : LoadedModule) (imports : Imports σ) (limits : Limits)
    (budget : Nat) : Option (Except Error InstanceId × Store σ) :=
  match Instance.allocate m imports limits with
  | .error e => some (.error e, s)
  | .ok inst =>
    let id := s.instances.size
    let s := { s with instances := s.instances.push inst }
    match m.module.start with
    | none => some (.ok id, s)
    | some func =>
      let (control, s) := s.callFunction id func [] 0
      (s.complete control [] budget).map fun
        | (.ok _, s) => (.ok id, s)
        | (.error e, s) => (.error e, { s with instances := s.instances.pop })

/-- Calls a host function outside of any instance. -/
def callStandalone (s : Store σ) (f : HostFunc σ) (args : List Value) (budget : Nat) :
    Option (Except Error (Option Value) × Store σ) :=
  if Value.HaveTypes args f.params then
    let call : HostCall := { caller := none, depth := 0, results := f.result.toList }
    let program := f.body { depth := 0, isStandalone := true } args
    (s.complete (.host call program) [] budget).map fun (outcome, s) =>
      (outcome.map fun slots => (Value.ofSlots slots f.result.toList).head?, s)
  else some (.error .argumentMismatch, s)

/-- Sets or removes the budget of instructions of an instance. -/
def setFuel (s : Store σ) (id : InstanceId) (fuel : Option Nat) : Store σ :=
  s.modifyInstance id fun inst => { inst with fuel }

end Store

end WasmEngine
