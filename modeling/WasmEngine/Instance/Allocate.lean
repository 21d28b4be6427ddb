import WasmEngine.Instance.Basic
import WasmEngine.Module.ConstExpr

/-!
# Instance/Allocate — from a module to an instance

`Instance.allocate` resolves the imports of a validated module, creates its memory, table and
globals, and copies the active segments, all of which are checked before the first is copied.  It
runs no code; the start function is up to the caller.
-/

namespace WasmEngine.Instance

variable {σ : Type}

/-- Resolves a function: an import must be bound to something of its signature. -/
def resolve (imports : Imports σ) (f : Function) : Except Error (Callable σ) :=
  match f.imported with
  | none => .ok (.code f.type f.body.start (f.locals.length - f.type.params.length))
  | some ref =>
    match imports.get? ref with
    | none => .error (.unresolvedImport ref)
    | some binding =>
      if binding.signature = f.type then .ok (.imported f.type ref binding)
      else .error (.signatureMismatch ref)

/-- The memory of a new instance. -/
def newMemory (limits : Limits) (e : Extent) : Except Error Memory :=
  if e.imported.isSome then .error (.link .unsupportedImport)
  else if limits.maxMemoryPages < e.min then .error (.link .memoryLimit)
  else .ok (Memory.new e.min (min (e.max.getD Memory.maxPages) limits.maxMemoryPages))

/-- The table of a new instance, without entries. -/
def newTable (limits : Limits) (e : Extent) : Except Error (Array (Option Nat)) :=
  if e.imported.isSome then .error (.link .unsupportedImport)
  else if limits.maxTableElements < e.min then .error (.link .tableLimit)
  else .ok (Array.replicate e.min none)

/-- The value of a constant expression over the globals made so far. -/
def constant (m : Module) (globals : Array Slot) (offset : Nat) : Except Error Slot :=
  match ConstExpr.eval m.bytes globals offset with
  | .ok (v, _) => .ok v
  | .error f => .error (.fault f)

/-- Adds a global with its initial value. -/
def pushGlobal (m : Module) (globals : Array Slot) (g : Global) : Except Error (Array Slot) := do
  if g.imported.isSome then throw (.link .unsupportedImport)
  pure (globals.push (← constant m globals g.init))

/-- The place of an active segment, which must have room for `length` items among `size`. -/
def place (m : Module) (globals : Array Slot) (cause : LinkFailure) (length size : Nat) :
    SegmentMode → Except Error (Option Nat)
  | .passive | .declarative => .ok none
  | .active offset => do
    let start := (← constant m globals offset).toUInt32.toNat
    if size < start + length then throw (.link cause) else pure (some start)

/-- Writes references into the table from `start` on. -/
def setElements (table : Array (Option Nat)) (start : Nat) :
    List (Option Nat) → Array (Option Nat)
  | [] => table
  | f :: fs => setElements (table.setIfInBounds start f) (start + 1) fs

/-- Creates an instance, except for the effects of its start function. -/
def allocate (m : LoadedModule) (imports : Imports σ) (limits : Limits) :
    Except Error (Instance σ) := do
  let { id := moduleId, module } := m
  let some sideTable := module.sideTable | throw (.invalid .notValidated)
  let functions ← module.functions.mapM (resolve imports)
  let memory ← module.memory.mapM (newMemory limits)
  let table ← module.table.mapM (newTable limits)
  let globals ← module.globals.foldlM (pushGlobal module) #[]
  let table := table.getD #[]
  let elements ← module.elements.mapM fun s => do
    pure (← place module globals .elementSegmentDoesNotFit s.funcs.length table.size s.mode, s)
  let size := (memory.map Memory.size).getD 0
  let data ← module.dataSegments.mapM fun s => do
    pure (← place module globals .dataSegmentDoesNotFit s.range.length size s.mode, s)
  let table := elements.foldl (fun table (start, s) =>
    match start with
    | some start => setElements table start s.funcs
    | none => table) table
  let memory ← memory.mapM fun memory =>
    data.foldlM (fun memory (start, s) =>
      match start with
      | none => pure memory
      | some start =>
        let bytes := module.bytes.extract s.range.start s.range.stop
        match Memory.write start.toUInt32 bytes memory with
        | .ok () memory => pure memory
        | .error e _ => throw e) memory
  pure { moduleId, module, sideTable, functions, table, limits, memory, globals
         fuel := limits.fuel }

end WasmEngine.Instance
