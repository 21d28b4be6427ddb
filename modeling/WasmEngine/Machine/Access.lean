import WasmEngine.Instance.Basic
import WasmEngine.Machine.Frame

/-!
# Machine/Access — the instructions on globals and on memory

`Store.access` executes the instructions that work on the globals or the memory of an instance but
leave the frame where it is: an access pops its operands and pushes its result.  Memory that is lent
refuses the access, and an instance without the global or the memory is at fault.
-/

namespace WasmEngine

/-- The slot of a number that was loaded: a narrow signed number repeats its sign up to the width of
the result, and zeros stand above everything else. -/
def LoadOp.extend (op : LoadOp) (n : Nat) : Slot :=
  if op.signed then
    let narrow := BitVec.ofNat (8 <<< op.logWidth) n
    match op.type with
    | .i32 | .f32 => (UInt32.ofBitVec (narrow.signExtend 32)).toUInt64
    | .i64 | .f64 => UInt64.ofBitVec (narrow.signExtend 64)
  else n.toUInt64

namespace Store

variable {σ : Type}

/-- The value of a global of an instance. -/
def getGlobal (s : Store σ) (id : InstanceId) (index : Nat) : Except Error Slot :=
  match s.instances[id]?.bind (·.globals[index]?) with
  | some v => .ok v
  | none => .error (.fault .missingGlobal)

/-- Sets a global of an instance. -/
def setGlobal (s : Store σ) (id : InstanceId) (index : Nat) (v : Slot) :
    Except Error Unit × Store σ :=
  s.withInstance id (.error (.fault .missingInstance)) fun inst =>
    if index < inst.globals.size then
      (.ok (), { inst with globals := inst.globals.setIfInBounds index v })
    else (.error (.fault .missingGlobal), inst)

/-- Reads the memory that the code of an instance works on. -/
def readMemory {α : Type} (s : Store σ) (id : InstanceId) (f : Memory → Except Error α) :
    Except Error α :=
  match s.viewMemory? id with
  | some (.ok m) => f m
  | some (.error e) => .error e
  | none => .error (.fault .missingMemory)

/-- Changes the memory that the code of an instance works on. -/
def changeMemory {α : Type} (s : Store σ) (id : InstanceId) (op : Memory.Update α) :
    Except Error α × Store σ :=
  match s.updateMemory? id op with
  | (some outcome, s) => (outcome, s)
  | (none, s) => (.error (.fault .missingMemory), s)

/-- The word that `memory.grow` yields when memory may not grow. -/
def growthFailed : Slot := 0xffffffff

/-- Grows memory by a number of pages; yields the former size or `growthFailed`. -/
def growMemory (delta : Slot) : Memory.Update Slot := fun m =>
  let (old, m) := m.grow delta.toUInt32.toNat
  .ok ((old.map Nat.toUInt64).getD growthFailed) m

/-- Executes an instruction on the globals or on the memory.  Yields the operands that it leaves. -/
def access (s : Store σ) (id : InstanceId) (instr : Instr BlockJump) (operands : List Slot) :
    Except Error (List Slot) × Store σ :=
  match instr, operands with
  | .globalGet index, rest => ((s.getGlobal id index).map (· :: rest), s)
  | .globalSet index, v :: rest =>
    let (outcome, s) := s.setGlobal id index v
    (outcome.map fun () => rest, s)
  | .load op arg, ptr :: rest =>
    let outcome := s.readMemory id fun m => m.load (1 <<< op.logWidth) ptr.toUInt32 arg.offset
    (outcome.map fun n => op.extend n :: rest, s)
  | .store op arg, v :: ptr :: rest =>
    let (outcome, s) := s.changeMemory id
      (Memory.store (1 <<< op.logWidth) ptr.toUInt32 arg.offset v.toNat)
    (outcome.map fun () => rest, s)
  | .memorySize, rest =>
    ((s.readMemory id fun m => .ok m.pages.toUInt64).map (· :: rest), s)
  | .memoryGrow, delta :: rest =>
    let (outcome, s) := s.changeMemory id (growMemory delta)
    (outcome.map (· :: rest), s)
  | .memoryCopy, len :: src :: dst :: rest =>
    let (outcome, s) := s.changeMemory id (Memory.copy dst.toUInt32 src.toUInt32 len.toUInt32)
    (outcome.map fun () => rest, s)
  | .memoryFill, len :: value :: dst :: rest =>
    let (outcome, s) := s.changeMemory id (Memory.fill dst.toUInt32 value.toUInt8 len.toUInt32)
    (outcome.map fun () => rest, s)
  | _, _ => (.error (.fault .missingOperand), s)

end Store

end WasmEngine
