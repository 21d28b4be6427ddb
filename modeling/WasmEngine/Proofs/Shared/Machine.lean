import Mathlib.Logic.Function.Iterate
import WasmEngine.Machine.Step

/-!
# Proofs/Shared/Machine — a dispatch loop on one stack

`Store.dispatch` gives each activation its locals, operands and labels.  Here all activations of a
dispatch loop share one stack of slots and one stack of labels, and an activation is a `Base`: where
its part of them begins.  Its locals are read and written by their place on the stack, a branch out of
its labels leaves the function, and leaving it moves the results down to where its locals began.
Nothing but the bases keeps a function off what its callers have left on the stacks.

What an instruction does to the topmost operands alone is taken from `Frame.exec`, and imports run as
they do in `Config.step`.
-/

namespace WasmEngine.Shared

variable {σ : Type}

/-- Where the part of an activation begins. -/
structure Base where
  /-- The number of slots below its locals. -/
  slots : Nat
  /-- The number of labels outside of its own. -/
  labels : Nat
  /-- Where its caller goes on. -/
  returnPc : Nat
  /-- The number of results of its function. -/
  resultCount : Nat
deriving DecidableEq, Repr

/-- A dispatch loop whose activations share their stacks. -/
structure Loop where
  inst : InstanceId
  /-- The number of live activations of the instance outside of the loop. -/
  depth : Nat
  /-- The offset of the next instruction. -/
  pc : Nat
  /-- The locals and operands of all activations, top first. -/
  stack : List Slot
  /-- The open blocks of all activations, innermost first.  Heights count from the bottom of the
  stack. -/
  labels : List Label
  /-- The activations, innermost first. -/
  bases : List Base
deriving DecidableEq, Repr

/-- Where execution goes after an instruction that needs no more than the stacks. -/
inductive Flow where
  | next (l : Loop)
  /-- Out of the function. -/
  | leave (l : Loop)
  /-- Nowhere yet: the instruction needs more than the stacks. -/
  | outside (l : Loop)

/-- What a dispatch loop has come to. -/
inductive State (σ : Type) where
  | loop (s : Store σ) (l : Loop)
  /-- It waits for the call of an import. -/
  | awaits (c : Config σ) (l : Loop)
  | done (s : Store σ) (outcome : Except Error (List Slot))

namespace Loop

/-- Replaces the stack. -/
def withStack (l : Loop) (stack : List Slot) : Loop := { l with stack }

/-- Pushes results, of which the last is on top. -/
def push (l : Loop) (results : List Slot) : Loop := l.withStack (results.reverse ++ l.stack)

/-- The number of slots below the locals of the innermost activation. -/
def slotBase (l : Loop) : Nat := (l.bases.head?.map (·.slots)).getD 0

/-- The number of labels outside of those of the innermost activation. -/
def labelBase (l : Loop) : Nat := (l.bases.head?.map (·.labels)).getD 0

/-- The stacks as one frame, which has no locals. -/
def whole (l : Loop) : Frame where
  pc := l.pc
  locals := #[]
  operands := l.stack
  labels := l.labels
  resultCount := 0
  below := 0
  depth := l.depth

/-- The loop with the stacks of a frame. -/
def withWhole (l : Loop) (f : Frame) : Loop :=
  { l with pc := f.pc, stack := f.operands, labels := f.labels }

/-- Where the loop goes when its stacks go somewhere as one frame. -/
def flowOf (l : Loop) : WasmEngine.Flow → Flow
  | .next f => .next (l.withWhole f)
  | .leave f => .leave (l.withWhole f)
  | .outside f => .outside (l.withWhole f)

/-- Branches out of `depth` blocks and to the end or the start of the next one, if the activation has
so many.  Otherwise the branch leaves the function. -/
def branch (l : Loop) (depth : Nat) : Except Error Flow :=
  if l.labels.length - l.labelBase ≤ depth then .ok (.leave l)
  else (l.whole.branch depth).map l.flowOf

/-- Sets a local: a slot that is so far above the base. -/
def setLocal (l : Loop) (index : Nat) (v : Slot) : Except Error Flow :=
  if l.slotBase + index < l.stack.length then
    .ok (.next (l.withStack (l.stack.reverse.set (l.slotBase + index) v).reverse))
  else .error (.fault .missingLocal)

/-- Executes an instruction on the stacks alone, if it needs no more. -/
def exec (l : Loop) (opcode : Nat) : Instr BlockJump → Except Error Flow
  | .elseMark => l.branch 0
  | .endMark =>
    if l.labels.length = l.labelBase then .ok (.leave l)
    else .ok (.next { l with labels := l.labels.tail })
  | .br depth => l.branch depth
  | .brIf depth =>
    match l.stack with
    | [] => Frame.missingOperand
    | c :: rest =>
      let l := l.withStack rest
      if c.toUInt32 != 0 then l.branch depth else .ok (.next l)
  | .brTable targets default =>
    match l.stack with
    | [] => Frame.missingOperand
    | i :: rest => (l.withStack rest).branch (targets[i.toUInt32.toNat]?.getD default)
  | .ret => .ok (.leave l)
  | .localGet index =>
    match l.stack.reverse[l.slotBase + index]? with
    | some v => .ok (.next (l.push [v]))
    | none => .error (.fault .missingLocal)
  | .localSet index =>
    match l.stack with
    | [] => Frame.missingOperand
    | v :: rest => (l.withStack rest).setLocal index v
  | .localTee index =>
    match l.stack with
    | [] => Frame.missingOperand
    | v :: _ => l.setLocal index v
  | instr => (l.whole.exec opcode instr).map l.flowOf

/-- Goes on with the innermost activation.  If there is none, what is on the stack is the outcome. -/
def back (l : Loop) (s : Store σ) : State σ :=
  match l.bases with
  | [] => .done s (.ok l.stack.reverse)
  | _ :: _ => .loop s l

/-- Leaves a function: its results move down to where its locals began. -/
def leave (l : Loop) (s : Store σ) : State σ :=
  match l.bases with
  | [] => l.back s
  | base :: bases =>
    if l.stack.length < base.slots + base.resultCount then .done s Frame.missingOperand
    else
      let stack := l.stack.take base.resultCount ++ l.stack.drop (l.stack.length - base.slots)
      let labels := l.labels.drop (l.labels.length - base.labels)
      { l with pc := base.returnPc, stack, labels, bases }.back s

/-- Calls a function with the topmost slots as its arguments.  They are the first of its locals. -/
def callFrom (l : Loop) (s : Store σ) (func : Nat) : State σ :=
  match s.instances[l.inst]? with
  | none => .done s (.error (.fault .missingInstance))
  | some inst =>
    match inst.functions[func]? with
    | none => .done s (.error (.fault .missingFunction))
    | some callee =>
      let count := callee.type.params.length
      let depth := l.depth + l.bases.length
      if l.stack.length < count then .done s Frame.missingOperand
      else
        match callee with
        | .imported type ref binding =>
          let (control, s) :=
            s.callImport l.inst type ref binding (l.stack.take count).reverse depth
          .awaits { store := s, control } (l.withStack (l.stack.drop count))
        | .code type entry declared =>
          if inst.limits.maxCallDepth ≤ depth then .done s stackOverflow
          else if inst.limits.maxValueStack < l.stack.length + declared then .done s stackOverflow
          else
            let base : Base :=
              { slots := l.stack.length - count, labels := l.labels.length, returnPc := l.pc
                resultCount := type.results.length }
            .loop s { l with pc := entry, stack := List.replicate declared 0 ++ l.stack
                             bases := base :: l.bases }

/-- Executes an instruction that needs more than the stacks. -/
def execOutside (l : Loop) (s : Store σ) : Instr BlockJump → State σ
  | .call func => l.callFrom s func
  | .callIndirect type _ =>
    match l.stack with
    | [] => .done s Frame.missingOperand
    | slot :: rest =>
      match s.tableEntry l.inst type slot.toUInt32.toNat with
      | .ok func => (l.withStack rest).callFrom s func
      | .error e => .done s (.error e)
  | instr =>
    match s.access l.inst instr l.stack with
    | (.ok stack, s) => .loop s (l.withStack stack)
    | (.error e, s) => .done s (.error e)

/-- Executes the next instruction. -/
def dispatch (l : Loop) (s : Store σ) : State σ :=
  match s.spendFuel l.inst with
  | (false, s) => .done s (.error (.trap .outOfFuel))
  | (true, s) =>
    match s.fetch? l.inst l.pc with
    | none => .done s (.error (.fault .missingInstruction))
    | some (instr, pc) =>
      match { l with pc }.exec l.pc instr with
      | .ok (.next l) => .loop s l
      | .ok (.leave l) => l.leave s
      | .ok (.outside l) => l.execOutside s instr
      | .error e => .done s (.error e)

end Loop

namespace State

/-- One step. -/
def step : State σ → State σ
  | loop s l => l.dispatch s
  | awaits c l =>
    match c.outcome? with
    | none => awaits c.step l
    | some (.ok results) => loop c.store (l.push results)
    | some (.error e) => done c.store (.error e)
  | done s outcome => done s outcome

/-- Takes steps. -/
def run (n : Nat) (x : State σ) : State σ := step^[n] x

theorem run_succ (n : Nat) (x : State σ) : run (n + 1) x = (run n x).step :=
  Function.iterate_succ_apply' step n x

theorem run_done (n : Nat) (s : Store σ) (outcome : Except Error (List Slot)) :
    run n (done s outcome) = done s outcome := Function.iterate_fixed rfl n

/-- A run that has ended stays where it is. -/
theorem run_of_done {x : State σ} {m n : Nat} {s : Store σ} {outcome : Except Error (List Slot)}
    (h : run m x = done s outcome) (hmn : m ≤ n) : run n x = done s outcome := by
  obtain ⟨k, rfl⟩ := Nat.exists_eq_add_of_le' hmn
  rw [run, Function.iterate_add_apply]
  exact (congrArg (run k) h).trans (run_done k s outcome)

end State

end WasmEngine.Shared
