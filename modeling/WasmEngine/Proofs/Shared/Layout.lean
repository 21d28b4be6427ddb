import WasmEngine.Proofs.Nesting.Moves
import WasmEngine.Proofs.Shared.Machine

/-!
# Proofs/Shared/Layout — activations laid out on the shared stacks

`Loop.enter` lays the locals, operands and labels of a frame on top of what a loop has already, and
`Loop.above` those of several.  Whatever lies below, an instruction does to the stacks what it does to
the frame on top of them (`Loop.follows_exec`), and so do leaving a function (`Loop.leave_enter`) and
calling one (`Loop.callFrom_code`): the bases keep each activation to its own part.
-/

namespace WasmEngine

/-! ## Accesses -/

/-- **An access looks at no more than its own operands**, if they are there. -/
theorem Store.access_append {σ : Type} (s : Store σ) (id : InstanceId) (i : Instr BlockJump)
    (operands below : List Slot) :
    (∃ fault, (s.access id i operands).1 = .error (.fault fault)) ∨
      s.access id i (operands ++ below) =
        ((s.access id i operands).1.map (· ++ below), (s.access id i operands).2) := by
  -- What is pushed on the operands is pushed on what lies below them, too.
  have hmap {α : Type} (f : α → List Slot) (x : Except Error α × Store σ) :
      (x.1.map fun a => f a ++ below, x.2) = ((x.1.map f).map (· ++ below), x.2) := by
    obtain ⟨_ | _, t⟩ := x <;> rfl
  cases i with
  | globalGet index => exact .inr (hmap (· :: operands) (s.getGlobal id index, s))
  | memorySize => exact .inr (hmap (· :: operands) (s.readMemory id _, s))
  | globalSet index =>
    cases operands with
    | nil => exact .inl ⟨_, rfl⟩
    | cons v rest => exact .inr (hmap (fun _ => rest) (s.setGlobal id index v))
  | load op arg =>
    cases operands with
    | nil => exact .inl ⟨_, rfl⟩
    | cons ptr rest => exact .inr (hmap (op.extend · :: rest) (s.readMemory id _, s))
  | store op arg =>
    match operands with
    | [] | [_] => exact .inl ⟨_, rfl⟩
    | v :: ptr :: rest => exact .inr (hmap (fun _ => rest) (s.changeMemory id _))
  | memoryGrow =>
    cases operands with
    | nil => exact .inl ⟨_, rfl⟩
    | cons delta rest => exact .inr (hmap (· :: rest) (s.changeMemory id _))
  | memoryCopy =>
    match operands with
    | [] | [_] | [_, _] => exact .inl ⟨_, rfl⟩
    | len :: src :: dst :: rest => exact .inr (hmap (fun _ => rest) (s.changeMemory id _))
  | memoryFill =>
    match operands with
    | [] | [_] | [_, _] => exact .inl ⟨_, rfl⟩
    | len :: value :: dst :: rest => exact .inr (hmap (fun _ => rest) (s.changeMemory id _))
  | _ => exact .inl ⟨_, rfl⟩

/-! ## The layout -/

/-- A label above `count` more slots. -/
def Label.lift (count : Nat) (label : Label) : Label := { label with height := label.height + count }

namespace Shared

variable {σ : Type}

namespace Loop

/-- The loop with the activation of a frame on top. -/
def enter (l : Loop) (f : Frame) : Loop where
  inst := l.inst
  depth := l.depth
  pc := f.pc
  stack := f.operands ++ (f.locals.toList.reverse ++ l.stack)
  labels := f.labels.map (.lift (f.locals.size + l.stack.length)) ++ l.labels
  bases := ⟨l.stack.length, l.labels.length, l.pc, f.resultCount⟩ :: l.bases

/-- The loop with the activations of frames on top, innermost first. -/
def above (l : Loop) (fs : List Frame) : Loop := fs.foldr (fun f l => l.enter f) l

/-- Where the loop goes when the frame on top goes somewhere. -/
def enterFlow (l : Loop) : WasmEngine.Flow → Flow
  | .next f => .next (l.enter f)
  | .leave f => .leave (l.enter f)
  | .outside f => .outside (l.enter f)

variable {l : Loop} {f : Frame} {s : Store σ}

/-- The number of slots below the operands of the frame on top. -/
theorem length_below (l : Loop) (f : Frame) :
    (f.locals.toList.reverse ++ l.stack).length = f.locals.size + l.stack.length := by
  rw [List.length_append, List.length_reverse, Array.length_toList]

theorem length_stack_enter (l : Loop) (f : Frame) :
    (l.enter f).stack.length = f.operands.length + (f.locals.size + l.stack.length) := by
  rw [enter, List.length_append, length_below]

theorem length_labels_enter (l : Loop) (f : Frame) :
    (l.enter f).labels.length = f.labels.length + l.labels.length := by
  rw [enter, List.length_append, List.length_map]

theorem take_stack_enter (l : Loop) {f : Frame} {n : Nat} (hn : n ≤ f.operands.length) :
    (l.enter f).stack.take n = f.operands.take n := List.take_append_of_le_length hn

theorem drop_stack_enter (l : Loop) {f : Frame} {n : Nat} (hn : n ≤ f.operands.length) :
    (l.enter f).stack.drop n = f.operands.drop n ++ (f.locals.toList.reverse ++ l.stack) :=
  List.drop_append_of_le_length hn

/-- What was on the stack before lies below the locals. -/
theorem drop_stack_base (l : Loop) (f : Frame) :
    (l.enter f).stack.drop (f.operands.length + f.locals.size) = l.stack := by
  rw [← List.drop_drop, l.drop_stack_enter (Nat.le_refl _), List.drop_length, List.nil_append]
  exact List.drop_left' (by rw [List.length_reverse, Array.length_toList])

theorem drop_labels_enter (l : Loop) {f : Frame} {n : Nat} (hn : n ≤ f.labels.length) :
    (l.enter f).labels.drop n =
      (f.labels.drop n).map (.lift (f.locals.size + l.stack.length)) ++ l.labels := by
  rw [enter, List.drop_append_of_le_length (by rw [List.length_map]; exact hn), List.map_drop]

/-- An instruction on the stacks goes where it goes on the frame on top, unless an operand or a local
is missing from the frame. -/
def Follows (l : Loop) (flow : Except Error WasmEngine.Flow) (shared : Except Error Flow) : Prop :=
  (∃ fault, flow = .error (.fault fault)) ∨ shared = flow.map l.enterFlow

/-! ## Instructions inside an activation -/

/-- A block is opened as high above what is below as its parameters are. -/
theorem follows_enter (l : Loop) (f : Frame) (paramCount target arity : Nat) :
    l.Follows (f.enter paramCount target arity)
      (((l.enter f).whole.enter paramCount target arity).map (l.enter f).flowOf) := by
  by_cases hn : f.operands.length < paramCount
  · exact .inl ⟨_, if_pos hn⟩
  · have hn' : ¬(l.enter f).stack.length < paramCount := by
      rw [length_stack_enter]
      omega
    have hheight : (l.enter f).stack.length - paramCount =
        f.operands.length - paramCount + (f.locals.size + l.stack.length) := by
      rw [length_stack_enter]
      omega
    right
    simp only [Frame.enter, whole, if_neg hn, if_neg hn', hheight]
    rfl

/-- A branch to a label keeps what lies below the block. -/
theorem follows_jump (l : Loop) {f : Frame} {depth : Nat} {label : Label} {labels : List Label}
    (hdrop : f.labels.drop depth = label :: labels) :
    l.Follows (f.branch depth) (((l.enter f).whole.branch depth).map (l.enter f).flowOf) := by
  let lifted := label.lift (f.locals.size + l.stack.length)
  have hlt : depth < f.labels.length := by
    rw [← Nat.not_le, ← List.drop_eq_nil_iff, hdrop]
    exact List.cons_ne_nil label labels
  have hdrop' : (l.enter f).whole.labels.drop depth =
      lifted :: (labels.map (.lift (f.locals.size + l.stack.length)) ++ l.labels) := by
    change (l.enter f).labels.drop depth = _
    rw [l.drop_labels_enter (Nat.le_of_lt hlt), hdrop]
    rfl
  by_cases hn : f.operands.length < label.height + label.arity
  · left
    simp only [Frame.branch, hdrop, if_pos hn]
    exact ⟨_, rfl⟩
  · have hlength : (l.enter f).whole.operands.length =
        f.operands.length + (f.locals.size + l.stack.length) := l.length_stack_enter f
    have hheight : lifted.height = label.height + (f.locals.size + l.stack.length) := rfl
    have harity : lifted.arity = label.arity := rfl
    have hn' : ¬(l.enter f).whole.operands.length < lifted.height + lifted.arity := by omega
    -- What is dropped are operands of the activation.
    have hcount : (l.enter f).whole.operands.length - lifted.height =
        f.operands.length - label.height := by omega
    right
    simp only [Frame.branch, hdrop, if_neg hn, hdrop', if_neg hn', hcount]
    change Except.ok (Flow.next { l.enter f with
      pc := label.target
      stack := (l.enter f).stack.take label.arity ++
        (l.enter f).stack.drop (f.operands.length - label.height)
      labels := _ }) = _
    rw [l.take_stack_enter (by omega), l.drop_stack_enter (Nat.sub_le ..), ← List.append_assoc]
    rfl

/-- **A branch stays among the labels of its activation, or leaves the function.** -/
theorem follows_branch (l : Loop) (f : Frame) (depth : Nat) :
    l.Follows (f.branch depth) ((l.enter f).branch depth) := by
  have hown : (l.enter f).labels.length - (l.enter f).labelBase = f.labels.length := by
    rw [length_labels_enter]
    exact Nat.add_sub_cancel ..
  rw [branch, hown]
  cases hdrop : f.labels.drop depth with
  | nil =>
    right
    rw [if_pos (List.drop_eq_nil_iff.1 hdrop), Frame.branch, hdrop]
    rfl
  | cons label labels =>
    have hlt : ¬f.labels.length ≤ depth := by
      rw [← List.drop_eq_nil_iff, hdrop]
      exact List.cons_ne_nil label labels
    rw [if_neg hlt]
    exact l.follows_jump hdrop

theorem follows_numeric (l : Loop) (f : Frame) (op : NumOp) :
    l.Follows (f.numeric op) (((l.enter f).whole.numeric op).map (l.enter f).flowOf) := by
  obtain ⟨pc, locals, operands, labels, resultCount, below, depth⟩ := f
  cases op with
  | unary op =>
    cases operands with
    | nil => exact .inl ⟨_, rfl⟩
    | cons a rest =>
      right
      simp only [Frame.numeric, whole, enter, List.cons_append]
      cases op.eval a <;> rfl
  | binary op =>
    match operands with
    | [] | [_] => exact .inl ⟨_, rfl⟩
    | b :: a :: rest =>
      right
      simp only [Frame.numeric, whole, enter, List.cons_append]
      cases op.eval a b <;> rfl

/-- The locals of the activation on top are the slots from its base on. -/
theorem reverse_stack_enter (l : Loop) (f : Frame) :
    (l.enter f).stack.reverse = l.stack.reverse ++ (f.locals.toList ++ f.operands.reverse) := by
  simp only [enter, List.reverse_append, List.reverse_reverse, List.append_assoc]

theorem getElem?_local {index : Nat} {v : Slot} (l : Loop) {f : Frame}
    (h : f.locals[index]? = some v) :
    (l.enter f).stack.reverse[(l.enter f).slotBase + index]? = some v := by
  obtain ⟨hlt, -⟩ := Array.getElem?_eq_some_iff.1 h
  change (l.enter f).stack.reverse[l.stack.length + index]? = some v
  rw [reverse_stack_enter, List.getElem?_append_right (by simp), List.length_reverse,
    Nat.add_sub_cancel_left, List.getElem?_append_left (by simpa using hlt),
    Array.getElem?_toList, h]

/-- **A local is set in its activation.** -/
theorem follows_setLocal (l : Loop) (f : Frame) (index : Nat) (v : Slot) :
    l.Follows (Frame.exec.setLocal f index v) ((l.enter f).setLocal index v) := by
  by_cases hlt : index < f.locals.size
  · have hlt' : (l.enter f).slotBase + index < (l.enter f).stack.length := by
      change l.stack.length + index < _
      rw [length_stack_enter]
      omega
    have hset : ((l.enter f).stack.reverse.set ((l.enter f).slotBase + index) v).reverse =
        f.operands ++ ((f.locals.setIfInBounds index v).toList.reverse ++ l.stack) := by
      change ((l.enter f).stack.reverse.set (l.stack.length + index) v).reverse = _
      rw [reverse_stack_enter, List.set_append_right _ _ (by simp), List.length_reverse,
        Nat.add_sub_cancel_left, List.set_append_left _ _ (by simpa using hlt),
        Array.toList_setIfInBounds]
      simp only [List.reverse_append, List.reverse_reverse, List.append_assoc]
    right
    rw [Frame.exec.setLocal, if_pos hlt, setLocal, if_pos hlt', hset]
    simp only [Except.map, enterFlow, enter, withStack, Array.size_setIfInBounds]
  · exact .inl ⟨_, if_neg hlt⟩

/-- **An instruction does to the stacks what it does to the activation on top of them.** -/
theorem follows_exec (l : Loop) (f : Frame) (opcode : Nat) (i : Instr BlockJump) :
    l.Follows (f.exec opcode i) ((l.enter f).exec opcode i) := by
  obtain ⟨pc, locals, operands, labels, resultCount, below, live⟩ := f
  cases i with
  | unreachable | nop | ret | const | call | callIndirect | globalGet | globalSet | load | store
  | memorySize | memoryGrow | memoryCopy | memoryFill => exact .inr rfl
  | block jump => exact l.follows_enter ..
  | loop jump => exact l.follows_enter ..
  | ifThen jump =>
    cases operands with
    | nil => exact .inl ⟨_, rfl⟩
    | cons c rest =>
      simp only [Frame.exec, exec, whole, enter, List.cons_append, Frame.withOperands]
      split
      · exact l.follows_enter ⟨pc, locals, rest, labels, resultCount, below, live⟩ ..
      · next body _ _ =>
        exact l.follows_enter ⟨body, locals, rest, labels, resultCount, below, live⟩ ..
      · exact .inr rfl
  | elseMark => exact l.follows_branch _ 0
  | endMark =>
    right
    cases labels with
    | nil => exact if_pos rfl
    | cons label labels =>
      have hown := l.length_labels_enter
        ⟨pc, locals, operands, label :: labels, resultCount, below, live⟩
      refine if_neg fun h => ?_
      rw [hown, List.length_cons] at h
      exact absurd (Nat.add_eq_right.1 h) (Nat.succ_ne_zero _)
  | br depth => exact l.follows_branch _ depth
  | brIf depth =>
    cases operands with
    | nil => exact .inl ⟨_, rfl⟩
    | cons c rest =>
      simp only [Frame.exec, exec, enter, List.cons_append, Frame.withOperands]
      split
      · exact l.follows_branch ⟨pc, locals, rest, labels, resultCount, below, live⟩ depth
      · exact .inr rfl
  | brTable targets default =>
    cases operands with
    | nil => exact .inl ⟨_, rfl⟩
    | cons i rest => exact l.follows_branch ⟨pc, locals, rest, labels, resultCount, below, live⟩ _
  | drop =>
    cases operands with
    | nil => exact .inl ⟨_, rfl⟩
    | cons v rest => exact .inr rfl
  | select types =>
    match operands with
    | [] | [_] | [_, _] => exact .inl ⟨_, rfl⟩
    | c :: b :: a :: rest => exact .inr rfl
  | localGet index =>
    simp only [Frame.exec, exec]
    cases hget : locals[index]? with
    | none => exact .inl ⟨_, rfl⟩
    | some v =>
      rw [l.getElem?_local hget]
      exact .inr rfl
  | localSet index =>
    cases operands with
    | nil => exact .inl ⟨_, rfl⟩
    | cons v rest =>
      exact l.follows_setLocal ⟨pc, locals, rest, labels, resultCount, below, live⟩ index v
  | localTee index =>
    cases operands with
    | nil => exact .inl ⟨_, rfl⟩
    | cons v rest =>
      exact l.follows_setLocal ⟨pc, locals, v :: rest, labels, resultCount, below, live⟩ index v
  | numeric op => exact l.follows_numeric _ op

/-! ## Leaving and calling functions -/

theorem push_enter (l : Loop) (f : Frame) (results : List Slot) :
    (l.enter f).push results = l.enter (f.withOperands (results.reverse ++ f.operands)) := by
  simp only [push, withStack, enter, Frame.withOperands, List.append_assoc]

/-- **Leaving a function takes away everything but its results.** -/
theorem leave_enter (l : Loop) {f : Frame} (hn : f.resultCount ≤ f.operands.length) (s : Store σ) :
    (l.enter f).leave s = (l.push (f.operands.take f.resultCount).reverse).back s := by
  have hlength := l.length_stack_enter f
  have hlt : ¬(l.enter f).stack.length < l.stack.length + f.resultCount := by omega
  have hstack : (l.enter f).stack.drop ((l.enter f).stack.length - l.stack.length) = l.stack := by
    rw [hlength, ← Nat.add_assoc, Nat.add_sub_cancel]
    exact l.drop_stack_base f
  have hlabels : (l.enter f).labels.drop ((l.enter f).labels.length - l.labels.length) =
      l.labels := by
    rw [length_labels_enter, Nat.add_sub_cancel, l.drop_labels_enter (Nat.le_refl _),
      List.drop_length]
    rfl
  have hbases : (l.enter f).bases =
      ⟨l.stack.length, l.labels.length, l.pc, f.resultCount⟩ :: l.bases := rfl
  simp only [leave, hbases, if_neg hlt, l.take_stack_enter hn, hstack, hlabels, push,
    List.reverse_reverse]
  rfl

section Calls

variable {l : Loop} {s : Store σ} {inst : Instance σ} {func : Nat} {type : Signature}
  {args : List Slot}

theorem length_stack_push (l : Loop) (args : List Slot) :
    (l.push args).stack.length = args.length + l.stack.length := by
  rw [push, withStack, List.length_append, List.length_reverse]

/-- **A function gets the part of the stacks that a frame of its own would be.**  It starts from the
slots below its arguments and from the labels of its caller.  The bound on slots counts all that lies
below, of which the frame may know less. -/
theorem callFrom_code {entry declared : Nat} (below : Nat) (hinst : s.instances[l.inst]? = some inst)
    (hfunc : inst.functions[func]? = some (.code type entry declared))
    (hargs : args.length = type.params.length) (hbelow : below ≤ l.stack.length) :
    (l.push args).callFrom s func =
        (match Frame.new inst.limits type entry declared args below (l.depth + l.bases.length) with
        | .ok frame => .loop s (l.enter frame)
        | .error e => .done s (.error e)) ∨
      below < l.stack.length ∧ (l.push args).callFrom s func = .done s stackOverflow := by
  have hlength := l.length_stack_push args
  have hcount : ¬(l.push args).stack.length <
      (Callable.code type entry declared : Callable σ).type.params.length := by
    change ¬_ < type.params.length
    omega
  have hbase : args.length + l.stack.length - type.params.length = l.stack.length := by omega
  have hcall : (l.push args).callFrom s func =
      if inst.limits.maxCallDepth ≤ l.depth + l.bases.length then .done s stackOverflow
      else if inst.limits.maxValueStack < args.length + l.stack.length + declared then
        .done s stackOverflow
      else
        .loop s (l.enter
          { pc := entry, locals := args.toArray ++ Array.replicate declared 0
            resultCount := type.results.length, below, depth := l.depth + l.bases.length + 1 }) := by
    simp only [callFrom, show s.instances[(l.push args).inst]? = some inst from hinst, hfunc,
      if_neg hcount]
    simp only [Callable.type, hlength, hbase, enter, Array.toList_append, Array.toList_replicate,
      List.reverse_append, List.reverse_replicate, List.append_assoc]
    rfl
  rw [hcall]
  unfold Frame.new
  split
  · exact .inl rfl
  · by_cases hfresh : inst.limits.maxValueStack < below + args.length + declared
    · rw [if_pos hfresh, if_pos (by omega)]
      exact .inl rfl
    · rw [if_neg hfresh]
      split
      · next hover => exact .inr ⟨by omega, rfl⟩
      · exact .inl rfl

/-- An import is called with its arguments alone. -/
theorem callFrom_imported {ref : ImportName} {binding : ImportBinding σ}
    (hinst : s.instances[l.inst]? = some inst)
    (hfunc : inst.functions[func]? = some (.imported type ref binding))
    (hargs : args.length = type.params.length) :
    let start := s.callImport l.inst type ref binding args (l.depth + l.bases.length)
    (l.push args).callFrom s func = .awaits ⟨start.2, start.1, []⟩ l := by
  have hcount : ¬(l.push args).stack.length <
      (Callable.imported type ref binding).type.params.length := by
    rw [length_stack_push, hargs]
    exact Nat.not_lt.2 (Nat.le_add_right ..)
  have hlength : args.reverse.length = type.params.length := by rw [List.length_reverse, hargs]
  have htake : ((l.push args).stack.take type.params.length).reverse = args := by
    rw [push, withStack, ← hlength, List.take_left, List.reverse_reverse]
  have hdrop : (l.push args).stack.drop type.params.length = l.stack := by
    rw [push, withStack, ← hlength, List.drop_left]
  simp only [callFrom, show s.instances[(l.push args).inst]? = some inst from hinst, hfunc,
    if_neg hcount]
  simp only [Callable.type, htake, hdrop]
  rfl

end Calls

end Loop

end Shared

end WasmEngine
