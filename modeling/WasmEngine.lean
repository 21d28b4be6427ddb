import WasmEngine.Embedding
import WasmEngine.Native
import WasmEngine.Error
import WasmEngine.Float.Format
import WasmEngine.Float.Shortest
import WasmEngine.Guest.Access
import WasmEngine.Guest.Codec
import WasmEngine.Guest.Layout
import WasmEngine.Heap
import WasmEngine.Host.Basic
import WasmEngine.Host.HeapHook
import WasmEngine.Host.Script
import WasmEngine.Instance.Allocate
import WasmEngine.Instance.Basic
import WasmEngine.Instr.Basic
import WasmEngine.Instr.Fetch
import WasmEngine.Instr.Read
import WasmEngine.Leb128
import WasmEngine.Limits
import WasmEngine.Machine.Access
import WasmEngine.Machine.Call
import WasmEngine.Machine.Config
import WasmEngine.Machine.Frame
import WasmEngine.Machine.Step
import WasmEngine.Memory
import WasmEngine.Module.Basic
import WasmEngine.Module.ConstExpr
import WasmEngine.Module.Decode
import WasmEngine.Numeric.Eval
import WasmEngine.Numeric.Floating
import WasmEngine.Numeric.Integer
import WasmEngine.Numeric.Op
import WasmEngine.Proofs.Leb128.Format
import WasmEngine.Proofs.Bytes
import WasmEngine.Proofs.Leb128.Trusted
import WasmEngine.Proofs.Reader
import WasmEngine.Proofs.Syntax.Fetching
import WasmEngine.Proofs.Typing.Stack
import WasmEngine.Reader
import WasmEngine.Text.FlatJson
import WasmEngine.Text.Hex
import WasmEngine.Text.Utf8
import WasmEngine.Types
import WasmEngine.Typing.Rules
import WasmEngine.Typing.Stack
import WasmEngine.Typing.Validate
import WasmEngine.Value
import WasmEngine.Proofs.Decode.Bodies
import WasmEngine.Proofs.Located.Code
import WasmEngine.Proofs.Located.Compiled
import WasmEngine.Proofs.Safety.Access
import WasmEngine.Proofs.Safety.Allocate
import WasmEngine.Proofs.Safety.Call
import WasmEngine.Proofs.Safety.Reachable
import WasmEngine.Proofs.Safety.Soundness
import WasmEngine.Proofs.Structured.Backward
import WasmEngine.Proofs.Structured.Refinement
import WasmEngine.Proofs.Nesting.Core
import WasmEngine.Proofs.Nesting.Moves
import WasmEngine.Proofs.Nesting.Poison
import WasmEngine.Proofs.Nesting.Budgets
import WasmEngine.Proofs.Fuel.Blind
import WasmEngine.Proofs.Fuel.Budget
import WasmEngine.Proofs.Guest.Codec
import WasmEngine.Proofs.Heap.Blocks
import WasmEngine.Proofs.Heap.Carving
import WasmEngine.Proofs.Heap.History
import WasmEngine.Proofs.Located.Exact
import WasmEngine.Proofs.Instance.Initial
import WasmEngine.Proofs.Guarded.FrontEnd
import WasmEngine.Proofs.Encoding.Entries
import WasmEngine.Proofs.Encoding.Framing
import WasmEngine.Proofs.Encoding.Stages
import WasmEngine.Proofs.Encoding.RoundTrip
import WasmEngine.Proofs.Limits.Raised
import WasmEngine.Proofs.Limits.Slots
import WasmEngine.Proofs.Imports.Results
import WasmEngine.Proofs.Shared.Machine
import WasmEngine.Proofs.Shared.Layout
import WasmEngine.Proofs.Shared.Simulation
import WasmEngine.Proofs.Shared.Calls
import WasmEngine.Proofs.Memory.Accesses
import WasmEngine.Proofs.Memory.Operations
import WasmEngine.Proofs.Memory.Work
import WasmEngine.Proofs.Memory.Bounds
import WasmEngine.Proofs.Loans.Borrowing
import WasmEngine.Proofs.Loans.Held
import WasmEngine.Proofs.Loans.Refused
import WasmEngine.Proofs.Numeric.Arithmetic
import WasmEngine.Proofs.Numeric.Instructions
import WasmEngine.Proofs.Heap.FirstFit
import WasmEngine.Proofs.Heap.Accounting
import WasmEngine.Proofs.Heap.Refusal
import WasmEngine.Proofs.Guest.Layout
import WasmEngine.Proofs.Guest.Padding
import WasmEngine.Proofs.Memory.Typed
import WasmEngine.Proofs.Heap.Checked
import WasmEngine.Proofs.Heap.Survival
import WasmEngine.Proofs.Memory.Elements
import WasmEngine.Proofs.ConstExpr.Agreement
import WasmEngine.Proofs.Framing.Sections
import WasmEngine.Proofs.Framing.Contents
import WasmEngine.Proofs.Framing.Accounting
import WasmEngine.Proofs.Relocation.Reader
import WasmEngine.Proofs.Relocation.Decode
import WasmEngine.Proofs.Relocation.Code
import WasmEngine.Proofs.Relocation.Transparency
import WasmEngine.Proofs.Heap.Corruption
import WasmEngine.Proofs.Blame.Settled
import WasmEngine.Proofs.Blame.Body
import WasmEngine.Proofs.Blame.Replaced
import WasmEngine.Proofs.Blame.First
import WasmEngine.Proofs.Safety.Visited
import WasmEngine.Proofs.Slots.Fits
import WasmEngine.Proofs.Slots.Resumes
import WasmEngine.Proofs.Slots.Frame
import WasmEngine.Proofs.Slots.Access
import WasmEngine.Proofs.Slots.Call
import WasmEngine.Proofs.Slots.Step
import WasmEngine.Proofs.Globals.Writes
import WasmEngine.Proofs.Globals.Ledger
import WasmEngine.Proofs.Globals.Declared
import WasmEngine.Proofs.Native.Agreement
import WasmEngine.Proofs.Leb128.Agreement
import WasmEngine.Proofs.Locals.Capped
