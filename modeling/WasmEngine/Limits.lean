import WasmEngine.Memory
import WasmEngine.Text.FlatJson

/-!
# Limits — resource limits of an instance

`Limits` bounds the depth of calls, the operand stack, memory and table, and may set a budget of
instructions.  `Limits.ofJson` reads them from a JSON object, or from an array of the fields in
order; fields that are left out keep their defaults.
-/

namespace WasmEngine

/-- Resource limits of an instance. -/
structure Limits where
  /-- The number of wasm frames that may be live at once, those of outer invocations included. -/
  maxCallDepth : Nat := 1024
  /-- The number of host functions that may be live at once. -/
  maxHostDepth : Nat := 32
  /-- The number of operands and locals that one invocation may hold. -/
  maxValueStack : Nat := 1 <<< 20
  /-- A bound on memory in pages, besides the maximum that the module declares. -/
  maxMemoryPages : Nat := Memory.maxPages
  /-- A bound on the initial size of the table. -/
  maxTableElements : Nat := 1 <<< 20
  /-- The budget of instructions; `none` for no metering. -/
  fuel : Option Nat := none
deriving DecidableEq, Repr, Inhabited

namespace Limits

/-- A field of the textual form: its name, the width of its numbers and how it is set. -/
structure Field where
  name : String
  bits : Nat
  /-- Whether `null` is a value. -/
  nullable : Bool := false
  set : Option Nat → Limits → Limits

/-- The fields of the textual form, in order. -/
def fields : List Field :=
  [{ name := "max_call_depth", bits := 64, set := fun v l => { l with maxCallDepth := v.getD 0 } },
    { name := "max_host_depth", bits := 64, set := fun v l => { l with maxHostDepth := v.getD 0 } },
    { name := "max_value_stack", bits := 64
      set := fun v l => { l with maxValueStack := v.getD 0 } },
    { name := "max_memory_pages", bits := 32
      set := fun v l => { l with maxMemoryPages := v.getD 0 } },
    { name := "max_table_elements", bits := 32
      set := fun v l => { l with maxTableElements := v.getD 0 } },
    { name := "fuel", bits := 64, nullable := true, set := fun v l => { l with fuel := v } }]

/-- Whether a field takes a value. -/
def Field.Accepts (f : Field) : Option Nat → Prop
  | none => f.nullable
  | some n => n < 1 <<< f.bits

instance (f : Field) : (v : Option Nat) → Decidable (f.Accepts v)
  | none => inferInstanceAs (Decidable (_ = _))
  | some _ => inferInstanceAs (Decidable (_ < _))

/-- Sets a field, if it takes the value. -/
def Field.apply? (f : Field) (v : Option Nat) (l : Limits) : Option Limits :=
  if f.Accepts v then some (f.set v l) else none

/-- Sets fields in order, as many as there are values. -/
def ofArray? : List Field → List (Option Nat) → Limits → Option Limits
  | _, [], l => some l
  | [], _ :: _, _ => none
  | f :: fs, v :: vs, l => do ofArray? fs vs (← f.apply? v l)

/-- Sets fields by name, each at most once. -/
def ofObject? : List Field → List (String × Option Nat) → Limits → Option Limits
  | _, [], l => some l
  | fs, (name, v) :: items, l => do
    let f ← fs.find? (·.name = name)
    ofObject? (fs.filter (·.name ≠ name)) items (← f.apply? v l)

/-- The limits that a document describes. -/
def ofDocument? : FlatJson.Document → Option Limits
  | .array items => ofArray? fields items {}
  | .object items => ofObject? fields items {}

/-- Refuses limits that contradict the address space or one another. -/
def check (l : Limits) : Except ConfigError Limits :=
  if Memory.maxPages < l.maxMemoryPages then
    .error (.tooManyPages l.maxMemoryPages Memory.maxPages)
  else if l.maxCallDepth = 0 then .error .zeroCallDepth
  else if l.maxCallDepth < l.maxHostDepth then
    .error (.hostDepthExceedsCallDepth l.maxHostDepth l.maxCallDepth)
  else .ok l

/-- Reads limits from their textual form. -/
def ofJson (text : String) : Except Error Limits :=
  match (FlatJson.parse? text).bind ofDocument? with
  | none => .error (.config .unreadable)
  | some l => l.check.mapError Error.config

/-- The same limits with a budget of instructions. -/
def withFuel (l : Limits) (fuel : Nat) : Limits := { l with fuel := some fuel }

end Limits

end WasmEngine
