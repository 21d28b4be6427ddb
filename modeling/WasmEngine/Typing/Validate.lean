import WasmEngine.Instr.Read
import WasmEngine.Module.Decode
import WasmEngine.Typing.Rules

/-!
# Typing/Validate — validating functions and modules

`Module.validateFunction` reads the body of a function instruction by instruction and applies the
typing rules.  It yields the jump entries of the blocks in that body.  `Module.validate` does so for
all functions of a module; `Module.compile` decodes and validates.
-/

namespace WasmEngine

/-- Attributes the violations that a reader finds to an instruction. -/
def Reader.locate {α : Type} (site : CodeSite) (r : Reader α) : Reader α := fun w pos =>
  match r w pos with
  | .error (.validation cause _) => .error (.validation cause (some site))
  | result => result

/-- Runs a step of validation inside a reader. -/
def Check.lift {α : Type} (check : Check α) (t : Typing) : Reader (α × Typing) :=
  match check.run t with
  | .ok result => pure result
  | .error cause => Reader.invalid cause

namespace Module

/-- Reads one instruction and applies its rule. -/
def validateInstr (c : CodeContext) (t : Typing) : Reader (Closing × Typing) := do
  let start ← Reader.position
  let i ← Instr.read c.module.memory.isSome
  let stop ← Reader.position
  (Check.instr c { start, stop } i).lift t

/-- Validates the rest of a body, of at most `left` instructions, and adds its jump entries. -/
def validateCode (c : CodeContext) (func : Nat) :
    (left : Nat) → Typing → SideTable → Reader SideTable
  | 0, _, _ => Reader.malformed .endOfInput
  | left + 1, t, table => do
    let (closing, t) ← (validateInstr c t).locate { func, offset := ← Reader.position }
    match closing with
    | .nothing => validateCode c func left t table
    | .block offset jump => validateCode c func left t (table.insert offset jump)
    | .function => pure table

/-- Validates the function at an index and yields the jump entries of its blocks. -/
def validateFunction (m : Module) (func : Nat) : Except Error SideTable := do
  let some f := m.functions[func]? | throw (.fault .missingFunction)
  let frame : ControlFrame :=
    { kind := .function, type := { results := f.type.results }
      opcode := f.body.start, body := f.body.start }
  -- Every instruction has a byte of its own, so the length of the body bounds their number.
  let reader := validateCode { module := m, function := f } func (f.body.length + 1) { frame } []
  let (table, pos) ← reader.runAt ⟨m.bytes, f.body.stop⟩ f.body.start
  if pos ≠ f.body.stop then throw (.malformed .sectionSizeMismatch)
  pure table

/-- The union of the jump entries of the functions at the given indices. -/
def validateFunctions (m : Module) : List Nat → Except Error SideTable
  | [] => .ok []
  | func :: rest => do
    let table ← m.validateFunction func
    let others ← m.validateFunctions rest
    pure (table.foldl (fun acc entry => acc.insert entry.1 entry.2) others)

/-- Whether the start function, if there is one, takes and returns nothing. -/
def HasValidStart (m : Module) : Prop :=
  ∀ f ∈ m.start.bind (m.functions[·]?), f.type = {}

instance (m : Module) : Decidable m.HasValidStart :=
  inferInstanceAs (Decidable (∀ f ∈ m.start.bind (m.functions[·]?), f.type = {}))

/-- Validates the functions that a module defines, the first one first, and its start function.  A
module that has been validated is left as it is. -/
def validate (m : Module) : Except Error Module := do
  if m.sideTable.isSome then return m
  let table ← m.validateFunctions
    ((List.range (m.functions.size - m.importedCount)).map (m.importedCount + ·))
  unless m.HasValidStart do throw (.invalid .startFunction)
  pure { m with sideTable := some table }

/-- Decodes and validates a module. -/
def compile (bytes : ByteArray) : Except Error Module := do (← decode bytes).validate

end Module

end WasmEngine
