import WasmEngine.Embedding

/-!
# Native — functions at the number types of the embedder

An embedder that knows the signature of an exported function calls it with numbers of its own, without
tags.  `Instance.nativeFunc` compares the signature once; the handle that it yields runs on every
instance of the same module.  `Store.callNative` checks nothing but that: it puts the numbers into
slots, and takes as many slots for numbers as the result types say.  The dynamic counterpart of both is
an invocation by name.
-/

namespace WasmEngine

/-- The number types of an embedder. -/
inductive NativeType where
  | i32
  | u32
  | i64
  | u64
  | f32
  | f64
deriving DecidableEq, Repr

namespace NativeType

/-- The numbers of a type.  Floats are kept as their bits. -/
def Carrier : NativeType → Type
  | i32 => Int32
  | u32 | f32 => UInt32
  | i64 => Int64
  | u64 | f64 => UInt64

/-- The value type that stands for a number type. -/
def valType : NativeType → ValType
  | i32 | u32 => .i32
  | i64 | u64 => .i64
  | f32 => .f32
  | f64 => .f64

/-- The slot of a number. -/
def toSlot : (t : NativeType) → t.Carrier → Slot
  | i32, (v : Int32) => v.toUInt32.toUInt64
  | u32, (v : UInt32) | f32, (v : UInt32) => v.toUInt64
  | i64, (v : Int64) => v.toUInt64
  | u64, (v : UInt64) | f64, (v : UInt64) => v

/-- The number that a slot holds at a type. -/
def ofSlot : (t : NativeType) → Slot → t.Carrier
  | i32, s => (s.toUInt32.toInt32 : Int32)
  | u32, s | f32, s => (s.toUInt32 : UInt32)
  | i64, s => (s.toInt64 : Int64)
  | u64, s | f64, s => (s : UInt64)

/-- The tagged value of a number. -/
def toValue : (t : NativeType) → t.Carrier → Value
  | i32, (v : Int32) => .i32 v.toUInt32
  | u32, (v : UInt32) => .i32 v
  | i64, (v : Int64) => .i64 v.toUInt64
  | u64, (v : UInt64) => .i64 v
  | f32, (v : UInt32) => .f32 v
  | f64, (v : UInt64) => .f64 v

end NativeType

/-- Numbers of the types of a list, as parameters or results. -/
def Numbers : List NativeType → Type
  | [] => Unit
  | t :: ts => t.Carrier × Numbers ts

namespace Numbers

/-- The slots of some numbers. -/
def toSlots : {ts : List NativeType} → Numbers ts → List Slot
  | [], () => []
  | t :: _, (v, vs) => t.toSlot v :: toSlots vs

/-- The tagged values of some numbers. -/
def toValues : {ts : List NativeType} → Numbers ts → List Value
  | [], () => []
  | t :: _, (v, vs) => t.toValue v :: toValues vs

/-- Takes the slots from an index on for numbers, one for each type.  Whether there are that many is
not looked at before. -/
def ofSlotsFrom (slots : List Slot) (index : Nat) : (ts : List NativeType) → Except Error (Numbers ts)
  | [] => .ok ()
  | t :: ts => do
    let some slot := slots[index]? | throw (.fault .missingResult)
    let vs ← ofSlotsFrom slots (index + 1) ts
    pure (t.ofSlot slot, vs)

/-- Takes slots for numbers. -/
def ofSlots (ts : List NativeType) (slots : List Slot) : Except Error (Numbers ts) :=
  ofSlotsFrom slots 0 ts

end Numbers

/-- A handle to an exported function that takes numbers of types `P` to numbers of types `R`. -/
structure NativeFunc (P R : List NativeType) where
  /-- The index of the function. -/
  index : Nat
  /-- The number of the module in the store. -/
  moduleId : Nat
deriving DecidableEq, Repr

/-- The handle that says its types. -/
def NativeFunc.toTyped {P R : List NativeType} (f : NativeFunc P R) : TypedFunc where
  index := f.index
  moduleId := f.moduleId
  params := P.map (·.valType)
  results := R.map (·.valType)

/-- A handle to the exported function of a name, if its signature is the one asked for. -/
def Instance.nativeFunc {σ : Type} (inst : Instance σ) (P R : List NativeType) (name : String) :
    Except Error (NativeFunc P R) := do
  let index ← inst.exportedFunc name
  let type ← inst.funcType index
  if type.params ≠ P.map (·.valType) ∨ type.results ≠ R.map (·.valType) then
    throw .argumentMismatch
  pure { index, moduleId := inst.moduleId }

namespace Store

variable {σ : Type} {P R : List NativeType}

/-- Starts a function of an instance on its arguments.  A poisoned instance does not run, and a call
made while a host function of the instance runs starts at that function's depth at least. -/
def enterIndex (s : Store σ) (id : InstanceId) (inst : Instance σ) (func : Nat) (args : List Slot)
    (depth : Nat) : Control σ × Store σ :=
  if inst.isPoisoned then (.done (.error .poisoned), s)
  else s.callFunction id func args (max depth inst.reentryDepth)

/-- Calls a function through its handle.  The instance must be one of the module of the handle. -/
def callNative (s : Store σ) (id : InstanceId) (f : NativeFunc P R) (args : Numbers P)
    (budget : Nat) : Option (Except Error (Numbers R) × Store σ) :=
  match s.instances[id]? with
  | none => some (.error (.fault .missingInstance), s)
  | some inst =>
    if f.moduleId ≠ inst.moduleId then some (.error .argumentMismatch, s)
    else
      let (control, s) := s.enterIndex id inst f.index args.toSlots 0
      (s.complete control [.invocation id []] budget).map fun (outcome, s) =>
        (outcome >>= Numbers.ofSlots R, s)

end Store

end WasmEngine
