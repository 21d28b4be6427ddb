import WasmEngine.Proofs.Safety.Resumes

/-!
# Proofs/Safety/Frame — one instruction inside an activation

`CodeContext.CanRun` is the invariant of an activation.  An instruction that stays inside keeps it,
leaves the function with its results, or traps; it never misses an operand or a local
(`exec_sound`).
-/

namespace WasmEngine

variable {c : CodeContext} {table : SideTable}

/-- Whether an instruction needs more than its frame. -/
def Instr.NeedsStore : Instr Empty → Prop
  | call _ | callIndirect _ _ | globalGet _ | globalSet _ | load _ _ | store _ _ | memorySize
  | memoryGrow | memoryCopy | memoryFill => True
  | _ => False

/-- What needs more than the frame is left to the store. -/
theorem Frame.exec_of_needsStore {i : Instr Empty} (h : i.NeedsStore) (f : Frame) (opcode : Nat) :
    f.exec opcode i.embed = .ok (.outside f) := by
  cases i with
  | call | callIndirect | globalGet | globalSet | load | store | memorySize | memoryGrow
  | memoryCopy | memoryFill => rfl
  | _ => exact h.elim

/-- **The invariant of an activation** that can go on with `n` operands. -/
structure CodeContext.CanRun (c : CodeContext) (table : SideTable) (f : Frame) (n : Nat) :
    Prop where
  locals : f.locals.size = c.function.locals.length
  resultCount : f.resultCount = c.function.type.results.length
  resumes : ∃ types, c.Resumes table f.labels types f.pc n

/-- What executing the instruction `i` inside an activation may come to. -/
inductive CodeContext.Permits (c : CodeContext) (table : SideTable) (i : Instr BlockJump) :
    Except Error Flow → Prop where
  | next {f} (h : c.CanRun table f f.operands.length) : Permits c table i (.ok (.next f))
  | leave {f} (h : f.resultCount = c.function.type.results.length)
      (hn : f.resultCount ≤ f.operands.length) : Permits c table i (.ok (.leave f))
  | outside {f j types ps qs} (hi : i = j.embed) (hj : j.NeedsStore)
      (ha : HasArrow c types j ps qs) (hn : ps.length ≤ f.operands.length)
      (h : c.CanRun table f (f.operands.length - ps.length + qs.length)) :
      Permits c table i (.ok (.outside f))
  | trap (cause : Trap) : Permits c table i (.error (.trap cause))

namespace CodeContext

variable {i : Instr BlockJump} {f : Frame} {labels : List Label} {types : LabelTypes}
  {next n : Nat} {ts : List ValType}

theorem permits_jump {depth : Nat} {label : Label} {rest : List Label} {outer : LabelTypes}
    (hlocals : f.locals.size = c.function.locals.length)
    (hresults : f.resultCount = c.function.type.results.length)
    (hdrop : f.labels.drop depth = label :: rest)
    (hheight : label.height + label.arity ≤ f.operands.length)
    (h : c.Resumes table rest outer label.target (label.height + label.arity)) :
    c.Permits table i (f.branch depth) := by
  rw [Frame.branch, hdrop]
  simp only [if_neg (Nat.not_lt.2 hheight)]
  refine .next ⟨hlocals, hresults, outer, ?_⟩
  have hlen : (f.operands.take label.arity ++
      f.operands.drop (f.operands.length - label.height)).length = label.height + label.arity := by
    rw [List.length_append, List.length_take, List.length_drop]
    omega
  rw [hlen]
  exact h

theorem permits_branch {depth : Nat} {results : List ValType} {stop : Nat}
    (hlocals : f.locals.size = c.function.locals.length)
    (hresults : f.resultCount = c.function.type.results.length)
    (henc : c.Encloses table f.labels types results stop) (hd : types[depth]? = some ts)
    (hn : baseHeight f.labels + ts.length ≤ f.operands.length) :
    c.Permits table i (f.branch depth) := by
  obtain ⟨hdrop, rfl⟩ | ⟨label, rest, outer, hdrop, harity, hheight, hresumes⟩ := henc.branch hd hn
  · rw [Frame.branch, hdrop]
    exact .leave hresults (hresults ▸ Nat.le_trans (Nat.le_add_left ..) hn)
  · exact permits_jump hlocals hresults hdrop hheight hresumes

theorem permits_enter {paramCount target arity : Nat}
    (hlocals : f.locals.size = c.function.locals.length)
    (hresults : f.resultCount = c.function.type.results.length)
    (hn : paramCount ≤ f.operands.length)
    (h : c.Resumes table (⟨f.operands.length - paramCount, target, arity⟩ :: f.labels) types f.pc
      f.operands.length) : c.Permits table i (f.enter paramCount target arity) := by
  rw [Frame.enter, if_neg (Nat.not_lt.2 hn)]
  exact .next ⟨hlocals, hresults, types, h⟩

theorem permits_setLocal {index : Nat} {v : Slot} (h : c.CanRun table f f.operands.length)
    (hi : index < f.locals.size) : c.Permits table i (Frame.exec.setLocal f index v) := by
  rw [Frame.exec.setLocal, if_pos hi]
  exact .next ⟨(Array.size_setIfInBounds ..).trans h.locals, h.resultCount, h.resumes⟩

theorem permits_numeric {op : NumOp} {args rest : List Slot} (hops : f.operands = args ++ rest)
    (hn : args.length = op.operands.length) (h : c.CanRun table f (rest.length + 1)) :
    c.Permits table i (f.numeric op) := by
  have hnext (v : Slot) : c.Permits table i (.ok (.next (f.withOperands (v :: rest)))) :=
    .next ⟨h.locals, h.resultCount, h.resumes⟩
  cases op with
  | unary op =>
    obtain ⟨a, rfl⟩ := List.length_eq_one_iff.1 hn
    simp only [Frame.numeric, hops, List.cons_append, List.nil_append]
    split
    · exact hnext _
    · exact .trap _
  | binary op =>
    obtain ⟨b, a, rfl⟩ := List.length_eq_two.1 hn
    simp only [Frame.numeric, hops, List.cons_append, List.nil_append]
    split
    · exact hnext _
    · exact .trap _

/-- An instruction that opens no block finds its operands and locals. -/
theorem permits_plain {i : Instr Empty} {ps qs : List OperandType} {opcode : Nat}
    (hlocals : f.locals.size = c.function.locals.length)
    (hresults : f.resultCount = c.function.type.results.length) (ha : HasArrow c types i ps qs)
    (hn : baseHeight f.labels + ps.length ≤ f.operands.length)
    (h : c.Resumes table f.labels types f.pc (f.operands.length - ps.length + qs.length)) :
    c.Permits table i.embed (f.exec opcode i.embed) := by
  by_cases hstore : i.NeedsStore
  · rw [Frame.exec_of_needsStore hstore]
    exact .outside rfl hstore ha (Nat.le_of_add_left_le hn) ⟨hlocals, hresults, types, h⟩
  obtain ⟨pc, locals, operands, labels, resultCount, below, depth⟩ := f
  obtain ⟨results, stop, henc, -⟩ := id h
  simp only at hlocals hresults hn h henc
  -- What lies on the stack: the operands of the instruction, above the others.
  obtain ⟨args, rest, rfl, hargs⟩ : ∃ args rest, operands = args ++ rest ∧
      args.length = ps.length :=
    ⟨operands.take ps.length, operands.drop ps.length, (List.take_append_drop ..).symm, by
      rw [List.length_take]; omega⟩
  have hrest : (args ++ rest).length - ps.length + qs.length = rest.length + qs.length := by
    rw [List.length_append]; omega
  have hcan (locals' : Array Slot) (ops : List Slot) (hl : locals'.size = locals.size)
      (hops : ops.length = rest.length + qs.length) :
      c.CanRun table ⟨pc, locals', ops, labels, resultCount, below, depth⟩ ops.length :=
    ⟨hl.trans hlocals, hresults, types, by rw [hops, ← hrest]; exact h⟩
  have hlocal {index : Nat} {t : ValType} (hi : c.function.locals[index]? = some t) :
      index < locals.size := hlocals ▸ (List.getElem?_eq_some_iff.1 hi).1
  cases ha with
  | unreachable => exact .trap _
  | nop => exact .next (hcan _ _ rfl (by simp [List.length_eq_zero_iff.1 hargs]))
  | br hd =>
    refine permits_branch hlocals hresults henc hd (Nat.le_trans ?_ hn)
    simp
  | brIf hd =>
    rw [List.length_append, List.length_map] at hargs hn
    obtain ⟨v, args, rfl⟩ := List.exists_cons_of_length_eq_add_one hargs
    have hlen : args.length = _ := Nat.succ_inj.1 hargs
    simp only [Instr.embed, Instr.map, Frame.exec, List.cons_append, Frame.withOperands]
    split
    · refine permits_branch hlocals hresults henc hd ?_
      simp only [List.cons_append, List.length_cons, List.length_nil] at hn ⊢
      omega
    · exact .next (hcan _ _ rfl (by rw [List.length_append, hlen, List.length_map, Nat.add_comm]))
  | @brTable targets default ts hd =>
    rw [List.length_append, List.length_append] at hargs hn
    obtain ⟨v, args, rfl⟩ := List.exists_cons_of_length_eq_add_one hargs
    simp only [Instr.embed, Instr.map, Frame.exec, List.cons_append, Frame.withOperands]
    obtain ⟨us, hu, hm⟩ := hd _ (chosen_mem v.toUInt32.toNat)
    have hlen := hm.length_eq
    refine permits_branch hlocals hresults henc hu ?_
    simp only [List.cons_append, List.length_cons, List.length_nil, List.length_map] at hn hlen ⊢
    omega
  | ret =>
    refine .leave hresults ?_
    simp only [List.length_append, List.length_map] at hn ⊢
    omega
  | call | callIndirect | globalGet | globalSet | load | store | memorySize | memoryGrow
  | memoryCopy | memoryFill => exact absurd trivial hstore
  | drop t =>
    obtain ⟨v, rfl⟩ := List.length_eq_one_iff.1 hargs
    exact .next (hcan _ _ rfl rfl)
  | select t | selectType t =>
    obtain ⟨x, b, a, rfl⟩ := List.length_eq_three.1 hargs
    exact .next (hcan _ _ rfl rfl)
  | localGet hi =>
    obtain rfl := List.length_eq_zero_iff.1 hargs
    simp only [Instr.embed, Instr.map, Frame.exec, Array.getElem?_eq_getElem (hlocal hi)]
    exact .next (hcan _ _ rfl rfl)
  | localSet hi =>
    obtain ⟨v, rfl⟩ := List.length_eq_one_iff.1 hargs
    exact permits_setLocal (hcan _ _ rfl rfl) (hlocal hi)
  | localTee hi =>
    obtain ⟨v, rfl⟩ := List.length_eq_one_iff.1 hargs
    exact permits_setLocal (hcan _ _ rfl rfl) (hlocal hi)
  | const v =>
    obtain rfl := List.length_eq_zero_iff.1 hargs
    exact .next (hcan _ _ rfl rfl)
  | numeric op =>
    rw [List.length_map] at hargs
    exact permits_numeric rfl hargs ⟨hlocals, hresults, types, by rw [hrest] at h; exact h⟩

end CodeContext

/-- **An instruction inside an activation** finds its operands and locals. -/
theorem Frame.exec_sound {f : Frame} (h : c.CanRun table f f.operands.length) :
    ∃ i next, Instr.fetch c.module.bytes table f.pc = some (i, next) ∧
      c.Permits table i ({ f with pc := next }.exec f.pc i) := by
  obtain ⟨hlocals, hresults, types, hresumes⟩ := h
  obtain ⟨i, next, hfetch, hnext⟩ := hresumes.next
  refine ⟨i, next, hfetch, ?_⟩
  cases hnext with
  | plain ha hn h => exact CodeContext.permits_plain hlocals hresults ha hn h
  | block hn h => exact CodeContext.permits_enter hlocals hresults (Nat.le_of_add_left_le hn) h
  | loop hn h => exact CodeContext.permits_enter hlocals hresults (Nat.le_of_add_left_le hn) h
  | @ifThen _ jump ts hn h helse hskip =>
    obtain ⟨pc, locals, operands, labels, resultCount, below, depth⟩ := f
    simp only at hlocals hresults hn h helse hskip ⊢
    obtain ⟨v, operands, rfl⟩ := List.exists_cons_of_length_pos (l := operands) (by omega)
    have hn' : jump.paramCount ≤ operands.length := by
      rw [List.length_cons] at hn
      omega
    simp only [Frame.exec, Frame.withOperands]
    split
    · exact CodeContext.permits_enter hlocals hresults hn' h
    · next heq => exact CodeContext.permits_enter hlocals hresults hn' (helse _ heq)
    · next heq => exact .next ⟨hlocals, hresults, types, hskip heq⟩
  | elseMark hl hn h =>
    exact CodeContext.permits_jump hlocals hresults (show f.labels.drop 0 = _ from hl) hn h
  | endMark hl h =>
    simp only [Frame.exec, hl]
    exact .next ⟨hlocals, hresults, _, h⟩
  | leave hl hn =>
    simp only [Frame.exec, hl]
    exact .leave hresults (by rw [hresults, hn])

end WasmEngine
