import WasmEngine.Leb128
import WasmEngine.Text.Utf8
import WasmEngine.Types

/-!
# Reader — reading untrusted bytes

A `Reader` moves a position through a `Window`.  Each primitive checks the end of the window and
reports a malformation there; `Reader.within` confines a reader to a part of the window.
-/

namespace WasmEngine

/-- A computation that reads the bytes of a window from a position on, and may fail. -/
abbrev Reader := ReaderT Window (StateT Nat (Except Error))

namespace Reader

variable {α β : Type}

/-- Runs a reader from a position; yields its result and the position behind it. -/
def runAt (r : Reader α) (w : Window) (pos : Nat) : Except Error (α × Nat) := r w pos

theorem bind_eq_ok_iff {r : Reader α} {f : α → Reader β} {w : Window} {pos stop : Nat} {b : β} :
    (r >>= f) w pos = .ok (b, stop) ↔
      ∃ a mid, r w pos = .ok (a, mid) ∧ f a w mid = .ok (b, stop) := by
  change (r w pos >>= fun x => f x.1 w x.2) = _ ↔ _
  rcases r w pos with e | ⟨a, mid⟩
  · simp [bind, Except.bind]
  · constructor
    · exact fun h => ⟨a, mid, rfl, h⟩
    · rintro ⟨_, _, ⟨rfl, rfl⟩, h⟩
      exact h

/-- Fails because the bytes are malformed. -/
def malformed (cause : Malformation) : Reader α := throw (.malformed cause)

/-- Fails because the module breaks a rule. -/
def invalid (cause : Violation) : Reader α := throw (.invalid cause)

/-- The current position. -/
def position : Reader Nat := get

/-- Continues at another position. -/
def seek (pos : Nat) : Reader Unit := set pos

/-- The next byte, if there is one, without moving past it. -/
def peek? : Reader (Option UInt8) := fun w pos => .ok (w.get? pos, pos)

/-- The next byte, without moving past it. -/
def peek : Reader UInt8 := fun w pos =>
  match w.get? pos with
  | some b => .ok (b, pos)
  | none => .error (.malformed .endOfInput)

/-- The next byte. -/
def byte : Reader UInt8 := fun w pos =>
  match w.get? pos with
  | some b => .ok (b, pos + 1)
  | none => .error (.malformed .endOfInput)

/-- An unsigned integer of `bits` bits. -/
def unsigned (bits : Nat) : Reader Nat := fun w pos => Leb128.readUnsigned bits w pos

/-- A signed integer of `bits` bits. -/
def signed (bits : Nat) : Reader Int := fun w pos => Leb128.readSigned bits w pos

/-- An unsigned 32-bit integer: an index, a count or a length. -/
def u32 : Reader Nat := unsigned 32

/-- Moves past `n` bytes, which must all be there, and yields where they start. -/
def skip (n : Nat) : Reader Nat := fun w pos =>
  if pos + n ≤ w.stop then .ok (pos, pos + n) else .error (.malformed .endOfRange)

/-- Fails unless `n` bytes are left. -/
def require (n : Nat) : Reader Unit := fun w pos =>
  if pos + n ≤ w.stop then .ok ((), pos) else .error (.malformed .endOfInput)

/-- A name: its length in bytes and its text in UTF-8. -/
def name : Reader String := do
  let n ← u32
  let start ← skip n
  match Utf8.decode? ((← read).bytes.extract start (start + n)).toList with
  | some text => pure text
  | none => malformed .invalidUtf8

/-- A value type. -/
def valType : Reader ValType := do
  match ValType.ofByte? (← byte) with
  | some t => pure t
  | none => malformed .invalidValueType

/-- Runs a reader on the part of the window before `stop`. -/
def within (stop : Nat) (r : Reader α) : Reader α := fun w pos => r { w with stop := stop } pos

/-- Reads an item `n` times. -/
def replicate (n : Nat) (item : Reader α) : Reader (List α) :=
  match n with
  | 0 => pure []
  | n + 1 => do
    let x ← item
    let xs ← replicate n item
    pure (x :: xs)

/-- Reads an item `n` times, each with the result of those before it. -/
def iterate (n : Nat) (step : β → Reader β) (init : β) : Reader β :=
  match n with
  | 0 => pure init
  | n + 1 => do iterate n step (← step init)

end Reader

end WasmEngine
