import WasmEngine.Host.HeapHook

/-!
# Host/Script — host functions from a small vocabulary

Host functions and memory hooks that are described by data: each performs one of a few behaviours on
a `ScriptState`, which keeps a log of calls, the statistics of a shared allocator, a typed handle and
the number of a primary instance.  They exercise everything that a host function may ask for: memory,
calls back into the caller, calls of another instance, and budgets.
-/

namespace WasmEngine.Script

/-- An entry of the log. -/
inductive LogEntry where
  /-- A host function was called. -/
  | called (ref : ImportName) (args : List Value) (depth : Nat)
  /-- A host function called a function and went on whatever the result. -/
  | ended (result : Except Error (List Value))

/-- What a replaying hook remembers. -/
structure Replay where
  calls : Nat := 0
  last : Option Value := none

/-- The embedder's state. -/
structure ScriptState where
  heap : HeapStats := {}
  /-- The memories of replaying hooks, by hook. -/
  replays : List (Nat × Replay) := []
  log : Array LogEntry := #[]
  /-- The handle that host functions call through. -/
  handle : Option TypedFunc := none
  /-- The instance that host functions reach without being called by it. -/
  primary : Option InstanceId := none

/-- What a scripted host function does. -/
inductive Behaviour where
  /-- Returns a fixed result. -/
  | answer (result : Option Value)
  /-- Returns its first argument. -/
  | echo
  /-- Adds up its arguments. -/
  | sum
  /-- Returns the call depth. -/
  | depth
  /-- Tells whether it runs outside of any instance. -/
  | standalone
  /-- Fails. -/
  | fail (cause : Error)
  /-- Passes its arguments on to an export of the caller. -/
  | invoke (name : String)
  /-- Computes a Fibonacci number; an export of the caller computes the two before it. -/
  | fibonacci (name : String)
  /-- Calls an export of the caller, logs the outcome and returns a fixed result. -/
  | swallow (name : String) (result : Option Value)
  /-- Calls through the handle. -/
  | callHandle
  /-- Passes its arguments on to an export of the primary instance, whose memory it may keep in view. -/
  | callPrimary (name : String) (keepsView : Bool)
  /-- Sets the budget of the primary instance. -/
  | setFuel
  /-- Adds to the word at address 0 and returns what it was. -/
  | addAtZero
  /-- Returns the size of memory. -/
  | memorySize
  /-- Grows memory. -/
  | memoryGrow
  /-- Returns the word at an address. -/
  | memoryLoad

/-- A scripted host function computes on `ScriptState`. -/
abbrev Action := HostAction ScriptState

/-- Gives up unless there is something to go on with. -/
def need {α : Type} : Option α → Action α
  | some a => pure a
  | none => throw .argumentMismatch

/-- The first argument, which must be an `i32`. -/
def word : List Value → Action UInt32
  | .i32 v :: _ => pure v
  | _ => throw .argumentMismatch

/-- The values of a call, whose failure is the failure of the host function. -/
def call (target : Target) (callee : Callee) (args : List Value) (holds : List Hold := []) :
    Action (List Value) := do
  ExceptT.mk (pure (← HostAction.call target callee args holds))

/-- The sum of values that must all be `i32`. -/
def sum : List Value → Action UInt32
  | [] => pure 0
  | .i32 v :: vs => return v + (← sum vs)
  | _ => throw .argumentMismatch

/-- The word that stands for a failed growth. -/
def growthFailed : UInt32 := 0xffffffff

/-- Performs a behaviour. -/
def Behaviour.perform (site : CallSite) (args : List Value) : Behaviour → Action (Option Value)
  | answer result => pure result
  | echo => pure args.head?
  | sum => return some (.i32 (← Script.sum args))
  | depth => pure (some (.i32 site.depth.toUInt32))
  | standalone => pure (some (.i32 (if site.isStandalone then 1 else 0)))
  | fail cause => throw cause
  | invoke name => return (← call .caller (.export name) args).head?
  | fibonacci name => do
    let n ← word args
    if n.toInt32 < 2 then return some (.i32 n)
    -- Both calls are made before either result is looked at.
    let first ← call .caller (.export name) [.i32 (n - 2)]
    let second ← call .caller (.export name) [.i32 (n - 1)]
    return some (.i32 ((← word first) + (← word second)))
  | swallow name result => do
    let outcome ← HostAction.call .caller (.export name) args
    HostAction.modifyState fun s => { s with log := s.log.push (.ended outcome) }
    return result
  | callHandle => do
    let handle ← need (← HostAction.state).handle
    let v ← word args
    return (← call .caller (.typed handle) [.i32 v]).head?
  | callPrimary name keepsView => do
    let id ← need (← HostAction.state).primary
    let holds := if keepsView then [Hold.memory id false] else []
    return (← call (.instance id) (.export name) args holds).head?
  | setFuel => do
    let id ← need (← HostAction.state).primary
    let v ← word args
    HostAction.setFuel id (some (v.toInt32.toInt64.toUInt64.toNat))
    return none
  | addAtZero => do
    let v ← word args
    HostAction.updateMemory fun memory =>
      match memory.load32 0 0 with
      | .error e => .error e memory
      | .ok old =>
        match Memory.store 4 0 0 (old + v).toNat memory with
        | .ok () memory => .ok (some (.i32 old)) memory
        | .error e memory => .error e memory
  | memorySize => return some (.i32 (← HostAction.memory).pages.toUInt32)
  | memoryGrow => do
    let v ← word args
    HostAction.updateMemory fun memory =>
      let (old, memory) := memory.grow v.toNat
      .ok (some (.i32 ((old.map Nat.toUInt32).getD growthFailed))) memory
  | memoryLoad => do
    let v ← word args
    match (← HostAction.memory).load32 v 0 with
    | .ok n => return some (.i32 n)
    | .error e => throw e

/-- A host function of a behaviour; it logs its calls under its name unless it is quiet. -/
def hostFunc (ref : ImportName) (params : List ValType) (result : Option ValType)
    (quiet : Bool) (b : Behaviour) : HostFunc ScriptState where
  params
  result
  body site args := do
    unless quiet do
      HostAction.modifyState fun s =>
        { s with log := s.log.push (.called ref args site.depth) }
    b.perform site args

/-- The allocator that all imports of it share. -/
def heapHook : MemoryHook ScriptState :=
  Heap.hook 0 ScriptState.heap fun heap s => { s with heap }

/-- A hook with a fixed result. -/
def fixedHook (id : Nat) (signature : Signature) (result : Option Value) :
    MemoryHook ScriptState where
  id
  signature
  run _ := pure result

/-- The shared allocator, except that call number `turn` repeats the result of the call before. -/
def replayingHook (id turn : Nat) : MemoryHook ScriptState where
  id
  signature := Heap.signature
  run args := do
    let replay := ((← get).1.replays.lookup id).getD {}
    let calls := replay.calls + 1
    let store (replay : Replay) : EStateM Error (ScriptState × Memory) Unit :=
      modify fun (s, memory) =>
        ({ s with replays := (id, replay) :: s.replays.filter (·.1 != id) }, memory)
    store { replay with calls }
    if calls = turn then return replay.last
    let result ← heapHook.run args
    store { calls, last := result }
    return result

end WasmEngine.Script
