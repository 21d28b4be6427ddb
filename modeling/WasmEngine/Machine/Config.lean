import WasmEngine.Instance.Basic
import WasmEngine.Machine.Frame

/-!
# Machine/Config — configurations of the machine

A configuration is the store, what acts next, and what waits for its outcome, innermost first.  All
nested invocations are part of one configuration: a dispatch loop that called an import, the host
function that the import is bound to, the invocation that this function asked for, and so on.
-/

namespace WasmEngine

/-- A dispatch loop: the activations of one invocation of an instance. -/
structure Run where
  inst : InstanceId
  /-- The innermost activation. -/
  frame : Frame
  /-- The activations that wait for it, innermost first. -/
  callers : List Frame := []
deriving DecidableEq, Repr

/-- The instance that called a host function, and what to put back when the function ends. -/
structure HostCaller where
  inst : InstanceId
  ref : ImportName
  outerHostDepth : Nat
  outerReentryDepth : Nat
deriving DecidableEq, Repr

/-- A host function that is running. -/
structure HostCall where
  /-- The calling instance; `none` if the function runs outside of any instance. -/
  caller : Option HostCaller
  /-- The call depth of the caller. -/
  depth : Nat
  /-- The results that the function must have. -/
  results : List ValType
deriving DecidableEq, Repr

/-- A program that ends with the outcome of a host function. -/
abbrev HostProgram (σ : Type) := HostM σ (Except Error (Option Value))

/-- What acts next. -/
inductive Control (σ : Type) where
  /-- A dispatch loop. -/
  | run (r : Run)
  /-- A host function. -/
  | host (call : HostCall) (program : HostProgram σ)
  /-- Nothing: the outcome goes to what waits for it. -/
  | done (outcome : Except Error (List Slot))

/-- What waits for an outcome. -/
inductive Pending (σ : Type) where
  /-- A dispatch loop that called an import. -/
  | run (r : Run)
  /-- The end of an invocation: a fatal outcome poisons the instance, and what was borrowed for the
  call is given back. -/
  | invocation (inst : InstanceId) (holds : List Hold)
  /-- A host function that called a function of the given results. -/
  | host (call : HostCall) (results : List ValType)
      (k : Except Error (List Value) → HostProgram σ)

/-- A configuration. -/
structure Config (σ : Type) where
  store : Store σ
  control : Control σ
  pending : List (Pending σ) := []

end WasmEngine
