import WasmEngine.Memory
import WasmEngine.Value

/-!
# Host/Basic — host functions, memory hooks and import tables

A host function is a program in the monad `HostM σ`: it can read and replace the embedder's state
`σ`, look at and change the caller's memory, and call into instances.  Each request is a node with a
continuation for the answer, so the engine runs a host function step by step and a statement about
all host functions is one about all such trees.  They form a lawful monad.

A memory hook is simpler: it computes on the embedder's state and the caller's memory, and cannot
call back.
-/

namespace WasmEngine

/-- The number of an instance in its store. -/
abbrev InstanceId := Nat

/-- A handle to an exported function whose signature was checked when the handle was made.  It runs
on every instance of its module. -/
structure TypedFunc where
  /-- The index of the function. -/
  index : Nat
  /-- The number of the module in the store. -/
  moduleId : Nat
  params : List ValType
  results : List ValType
deriving DecidableEq, Repr

/-- What is called in an instance. -/
inductive Callee where
  | export (name : String)
  | typed (func : TypedFunc)
deriving DecidableEq, Repr

/-- The instance that a host function calls. -/
inductive Target where
  /-- The instance that called the host function, at the depth of that call. -/
  | caller
  /-- An instance that the host function knows from elsewhere. -/
  | instance (id : InstanceId)
deriving DecidableEq, Repr

/-- Something that stays borrowed while a call runs. -/
inductive Hold where
  /-- A view of the memory of an instance; nothing if it has no memory. -/
  | memory (id : InstanceId) (exclusive : Bool)
  /-- The state of a memory hook. -/
  | hook (id : Nat)
deriving DecidableEq, Repr

/-- Programs of host functions over the embedder's state `σ`. -/
inductive HostM (σ α : Type) : Type where
  | done (a : α)
  | getState (k : σ → HostM σ α)
  | setState (s : σ) (k : HostM σ α)
  /-- Looks at the caller's memory. -/
  | viewMemory (k : Except Error Memory → HostM σ α)
  /-- Changes the caller's memory. -/
  | updateMemory (op : Memory.Update (Option Value))
      (k : Except Error (Option Value) → HostM σ α)
  /-- Calls a function, with some things borrowed while the call runs. -/
  | call (target : Target) (callee : Callee) (args : List Value) (holds : List Hold)
      (k : Except Error (List Value) → HostM σ α)
  /-- Replaces the budget of an instance. -/
  | setFuel (id : InstanceId) (fuel : Option Nat) (k : HostM σ α)

namespace HostM

variable {σ α β γ : Type}

/-- Runs a program, then the one that depends on its result. -/
def bind : HostM σ α → (α → HostM σ β) → HostM σ β
  | done a, f => f a
  | getState k, f => getState fun s => (k s).bind f
  | setState s k, f => setState s (k.bind f)
  | viewMemory k, f => viewMemory fun m => (k m).bind f
  | updateMemory op k, f => updateMemory op fun r => (k r).bind f
  | call target callee args holds k, f => call target callee args holds fun r => (k r).bind f
  | setFuel id fuel k, f => setFuel id fuel (k.bind f)

theorem bind_done (p : HostM σ α) : p.bind done = p := by
  induction p with
  | done a => rfl
  | getState k ih => simp [bind, ih]
  | setState s k ih => simp [bind, ih]
  | viewMemory k ih => simp [bind, ih]
  | updateMemory op k ih => simp [bind, ih]
  | call target callee args holds k ih => simp [bind, ih]
  | setFuel id fuel k ih => simp [bind, ih]

theorem bind_assoc (p : HostM σ α) (f : α → HostM σ β) (g : β → HostM σ γ) :
    (p.bind f).bind g = p.bind fun a => (f a).bind g := by
  induction p with
  | done a => rfl
  | getState k ih => simp [bind, ih]
  | setState s k ih => simp [bind, ih]
  | viewMemory k ih => simp [bind, ih]
  | updateMemory op k ih => simp [bind, ih]
  | call target callee args holds k ih => simp [bind, ih]
  | setFuel id fuel k ih => simp [bind, ih]

instance : Monad (HostM σ) where
  pure := done
  bind := bind

/-- **Programs compose associatively**, and those that end at once are neutral. -/
instance : LawfulMonad (HostM σ) :=
  LawfulMonad.mk' _ bind_done (fun _ _ => rfl) bind_assoc

end HostM

/-- A program of a host function that may fail. -/
abbrev HostAction (σ : Type) := ExceptT Error (HostM σ)

namespace HostAction

variable {σ : Type}

/-- The embedder's state. -/
def state : HostAction σ σ := ExceptT.lift (.getState .done)

/-- Changes the embedder's state. -/
def modifyState (f : σ → σ) : HostAction σ Unit :=
  ExceptT.lift (.getState fun s => .setState (f s) (.done ()))

/-- The caller's memory. -/
def memory : HostAction σ Memory := ExceptT.mk (.viewMemory .done)

/-- Changes the caller's memory. -/
def updateMemory (op : Memory.Update (Option Value)) : HostAction σ (Option Value) :=
  ExceptT.mk (.updateMemory op .done)

/-- Calls a function and yields its outcome, whatever it is. -/
def call (target : Target) (callee : Callee) (args : List Value) (holds : List Hold := []) :
    HostAction σ (Except Error (List Value)) :=
  ExceptT.lift (.call target callee args holds .done)

/-- Replaces the budget of an instance. -/
def setFuel (id : InstanceId) (fuel : Option Nat) : HostAction σ Unit :=
  ExceptT.lift (.setFuel id fuel (.done ()))

end HostAction

/-- What a host function knows of the call that runs it. -/
structure CallSite where
  /-- The number of wasm frames of the calling instance that are live. -/
  depth : Nat
  /-- Whether the function runs outside of any instance. -/
  isStandalone : Bool := false
deriving DecidableEq, Repr

/-- A host function with at most one result. -/
structure HostFunc (σ : Type) where
  params : List ValType
  result : Option ValType
  body : CallSite → List Value → HostAction σ (Option Value)

namespace HostFunc

variable {σ : Type}

/-- The signature of a host function. -/
def signature (f : HostFunc σ) : Signature := { params := f.params, results := f.result.toList }

/-- The greatest length in bytes of a message that a guest passes on. -/
def messageLimit : Nat := 4096

/-- A host function that takes the address of a text and aborts with that text. -/
def abortWithText : HostFunc σ where
  params := [.i32]
  result := none
  body _ args :=
    match args.head? with
    | some (.i32 ptr) => do
      let memory ← HostAction.memory
      match memory.readText ptr messageLimit with
      | .ok text => throw (.hostAbort text)
      | .error e => throw e
    | _ => throw .argumentMismatch

end HostFunc

/-- A host import that works on the caller's memory and cannot call back. -/
structure MemoryHook (σ : Type) where
  /-- The identity of the hook: two bindings of one hook share it. -/
  id : Nat
  signature : Signature
  run : List Value → EStateM Error (σ × Memory) (Option Value)

/-- What an import is bound to. -/
inductive ImportBinding (σ : Type) where
  | func (f : HostFunc σ)
  | hook (h : MemoryHook σ)

/-- The signature of a binding. -/
def ImportBinding.signature {σ : Type} : ImportBinding σ → Signature
  | func f => f.signature
  | hook h => h.signature

/-- Bindings by the two names of an import, each pair of names at most once. -/
structure Imports (σ : Type) where
  entries : List (ImportName × ImportBinding σ) := []

namespace Imports

variable {σ : Type}

/-- The binding of an import. -/
def get? (t : Imports σ) (ref : ImportName) : Option (ImportBinding σ) :=
  (t.entries.find? (·.1 = ref)).map (·.2)

/-- Binds an import, instead of any earlier binding. -/
def insert (t : Imports σ) (ref : ImportName) (b : ImportBinding σ) : Imports σ :=
  ⟨(ref, b) :: t.entries.filter (·.1 ≠ ref)⟩

/-- The number of bindings. -/
def size (t : Imports σ) : Nat := t.entries.length

end Imports

end WasmEngine
