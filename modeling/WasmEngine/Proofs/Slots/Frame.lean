import WasmEngine.Proofs.Safety.Frame
import WasmEngine.Proofs.Slots.Resumes

/-!
# Proofs/Slots/Frame — one instruction on operands and locals of its types

`CodeContext.RunsOn` is the invariant of an activation with its values.  An instruction that stays
inside keeps it, or leaves the function with results of the declared types; one that needs the store
takes operands of its types, and the activation goes on with any that it may leave
(`Frame.exec_fits`).
-/

namespace WasmEngine

variable {c : CodeContext} {table : SideTable}

/-- **The invariant of an activation**: its locals and operands fit, and it can go on. -/
structure CodeContext.RunsOn (c : CodeContext) (table : SideTable) (f : Frame) : Prop where
  locals : FitAll f.locals.toList (known c.function.locals)
  resultCount : f.resultCount = c.function.type.results.length
  goesOn : ∃ types, c.GoesOn table f.labels types f.pc f.operands

/-- What executing the instruction `i` inside an activation may come to. -/
inductive CodeContext.Gives (c : CodeContext) (table : SideTable) (i : Instr BlockJump) :
    Except Error Flow → Prop where
  | next {f} (h : c.RunsOn table f) : Gives c table i (.ok (.next f))
  | leave {f results rest} (hcount : f.resultCount = c.function.type.results.length)
      (hops : f.operands = results ++ rest)
      (hresults : FitAll results.reverse (known c.function.type.results)) :
      Gives c table i (.ok (.leave f))
  | outside {f j types ps qs args rest} (hi : i = j.embed) (hj : j.NeedsStore)
      (ha : HasArrow c types j ps qs) (hops : f.operands = args ++ rest)
      (hargs : FitAll args.reverse ps) (hcount : f.resultCount = c.function.type.results.length)
      (h : ∀ vs : List Slot, FitAll vs.reverse qs → c.RunsOn table (f.withOperands (vs ++ rest))) :
      Gives c table i (.ok (.outside f))
  | error (e : Error) : Gives c table i (.error e)

namespace CodeContext

variable {i : Instr BlockJump} {f : Frame} {types : LabelTypes} {ts : List ValType}
  {args rest : List Slot} {us : List OperandType}

/-- What a branch carries lies on top, and is all that is left above the block it leaves. -/
theorem gives_branch {depth : Nat} (hlocals : FitAll f.locals.toList (known c.function.locals))
    (hcount : f.resultCount = c.function.type.results.length) (hops : f.operands = args ++ rest)
    (hargs : FitAll args.reverse (us ++ known ts)) (hrest : c.Stands table f.labels types rest)
    (hd : types[depth]? = some ts) : c.Gives table i (f.branch depth) := by
  obtain ⟨results, stop, front, below, rfl, hnest⟩ := hrest
  obtain ⟨args, held, rfl, -, hargs⟩ := exists_args hargs (.refl _)
  have hlen := hargs.length_known
  rw [List.length_reverse] at hlen
  rw [List.append_assoc] at hops
  obtain ⟨hdrop, rfl⟩ | ⟨label, outer, types', front', kept, hdrop, harity, rfl, hheight, hgoes⟩ :=
    hnest.branch hd
  · rw [Frame.branch, hdrop]
    exact .leave hcount hops hargs
  · have hsize : f.operands.length =
        args.length + (held.length + (front.length + (front'.length + kept.length))) := by
      simp only [hops, List.length_append]
    have htake : f.operands.take label.arity = args := by
      rw [hops, harity, ← hlen, List.take_left]
    have hkept : f.operands.drop (f.operands.length - label.height) = kept := by
      have hcut : f.operands.length - label.height =
          (args ++ (held ++ (front ++ front'))).length := by
        simp only [hsize, hheight, List.length_append]
        omega
      rw [hcut, hops]
      simp only [← List.append_assoc]
      exact List.drop_left
    rw [Frame.branch, hdrop]
    simp only [if_neg (show ¬f.operands.length < label.height + label.arity by omega), htake, hkept]
    exact .next ⟨hlocals, hcount, types', hgoes args hargs⟩

theorem gives_enter {paramCount target arity : Nat}
    (hlocals : FitAll f.locals.toList (known c.function.locals))
    (hcount : f.resultCount = c.function.type.results.length) (hops : f.operands = args ++ rest)
    (hargs : args.length = paramCount)
    (h : c.GoesOn table (⟨rest.length, target, arity⟩ :: f.labels) types f.pc (args ++ rest)) :
    c.Gives table i (f.enter paramCount target arity) := by
  have hheight : f.operands.length - paramCount = rest.length := by
    rw [hops, List.length_append, hargs, Nat.add_sub_cancel_left]
  have hlt : ¬f.operands.length < paramCount := by
    rw [hops, List.length_append, hargs]
    omega
  simp only [Frame.enter, if_neg hlt, hheight]
  exact .next ⟨hlocals, hcount, types, hops ▸ h⟩

/-- A local that is set to what fits it. -/
theorem gives_setLocal {index : Nat} {v : Slot} {t : ValType} (h : c.RunsOn table f)
    (hindex : c.function.locals[index]? = some t) (hv : v.Fits (some t)) :
    c.Gives table i (Frame.exec.setLocal f index v) := by
  unfold Frame.exec.setLocal
  split
  · refine .next ⟨?_, h.resultCount, h.goesOn⟩
    rw [Array.toList_setIfInBounds]
    exact h.locals.set (by rw [List.getElem?_map, hindex]; rfl) hv
  · exact .error _

theorem gives_numeric {op : NumOp} (hops : f.operands = args ++ rest)
    (hargs : FitAll args.reverse (known op.operands))
    (h : ∀ v : Slot, v.Fits (some op.result) → c.RunsOn table (f.withOperands (v :: rest))) :
    c.Gives table i (f.numeric op) := by
  cases op with
  | unary op =>
    obtain ⟨a, rfl, ha⟩ := exists_eq_singleton hargs
    simp only [Frame.numeric, hops, List.cons_append, List.nil_append]
    split
    · next heq => exact .next (h _ (UnaryOp.fits_eval ha heq))
    · exact .error _
  | binary op =>
    obtain ⟨b, args, rfl, -, hargs⟩ := exists_top [some op.operand] hargs
    obtain ⟨a, rfl, -⟩ := exists_eq_singleton hargs
    simp only [Frame.numeric, hops, List.cons_append, List.nil_append]
    split
    · next heq => exact .next (h _ (BinaryOp.fits_eval heq))
    · exact .error _

/-- An instruction that opens no block, on operands of its types. -/
theorem gives_plain {i : Instr Empty} {ps qs : List OperandType} {opcode : Nat}
    (hlocals : FitAll f.locals.toList (known c.function.locals))
    (hcount : f.resultCount = c.function.type.results.length) (ha : HasArrow c types i ps qs)
    (hops : f.operands = args ++ rest) (hargs : FitAll args.reverse ps)
    (hrest : c.Stands table f.labels types rest)
    (h : ∀ vs : List Slot, FitAll vs.reverse qs → c.GoesOn table f.labels types f.pc (vs ++ rest)) :
    c.Gives table i.embed (f.exec opcode i.embed) := by
  have hgoes (vs : List Slot) (hvs : FitAll vs.reverse qs) :
      c.RunsOn table (f.withOperands (vs ++ rest)) := ⟨hlocals, hcount, types, h vs hvs⟩
  have hpush (v : Slot) (hnil : args = []) (hv : FitAll [v] qs) : c.RunsOn table (f.push v) := by
    subst hnil
    refine ⟨hlocals, hcount, types, ?_⟩
    rw [Frame.push, hops]
    exact h [v] hv
  by_cases hstore : i.NeedsStore
  · rw [Frame.exec_of_needsStore hstore]
    exact .outside rfl hstore ha hops hargs hcount hgoes
  cases ha with
  | unreachable => exact .error _
  | nop =>
    obtain rfl := eq_nil_of_fitAll hargs
    exact .next ⟨hlocals, hcount, types, hops ▸ h [] .nil⟩
  | br hd => exact gives_branch hlocals hcount hops hargs hrest hd
  | brIf hd =>
    obtain ⟨v, args, rfl, -, hargs⟩ := exists_top _ hargs
    simp only [Instr.embed, Instr.map, Frame.exec, hops, List.cons_append]
    split
    · exact gives_branch (f := f.withOperands (args ++ rest)) hlocals hcount rfl
        (show FitAll args.reverse ([] ++ known _) from hargs) hrest hd
    · exact .next (hgoes args hargs)
  | @brTable targets default us hd =>
    obtain ⟨v, args, rfl, -, hargs⟩ := exists_top _ hargs
    simp only [Instr.embed, Instr.map, Frame.exec, hops, List.cons_append]
    obtain ⟨ts, ht, hm⟩ := hd _ (chosen_mem v.toUInt32.toNat)
    exact gives_branch (f := f.withOperands (args ++ rest)) hlocals hcount rfl
      (hargs.mono (List.rel_append (MatchAll.refl _) hm)) hrest ht
  | ret =>
    obtain ⟨args, held, rfl, -, hargs⟩ := exists_args hargs (.refl _)
    exact .leave hcount (hops.trans (List.append_assoc ..)) hargs
  | call | callIndirect | globalGet | globalSet | load | store | memorySize | memoryGrow
  | memoryCopy | memoryFill => exact absurd trivial hstore
  | drop t =>
    obtain ⟨v, rfl, -⟩ := exists_eq_singleton hargs
    simp only [Instr.embed, Instr.map, Frame.exec, hops, List.cons_append]
    exact .next (hgoes [] .nil)
  | select t | selectType t =>
    obtain ⟨v, args, rfl, -, hargs⟩ := exists_top [_, _] hargs
    obtain ⟨b, args, rfl, hb, hargs⟩ := exists_top [_] hargs
    obtain ⟨a, rfl, ha⟩ := exists_eq_singleton hargs
    simp only [Instr.embed, Instr.map, Frame.exec, hops, List.cons_append]
    refine .next (hgoes [_] (.cons ?_ .nil))
    split
    · exact ha
    · exact hb
  | localGet hi =>
    obtain ⟨v, hget, hv⟩ := hlocals.exists_getElem? (by rw [List.getElem?_map, hi]; rfl)
    rw [Array.getElem?_toList] at hget
    simp only [Instr.embed, Instr.map, Frame.exec, hget]
    exact .next (hpush v (eq_nil_of_fitAll hargs) (.cons hv .nil))
  | localSet hi =>
    obtain ⟨v, rfl, hv⟩ := exists_eq_singleton hargs
    simp only [Instr.embed, Instr.map, Frame.exec, hops, List.cons_append]
    exact gives_setLocal (hgoes [] .nil) hi hv
  | localTee hi =>
    obtain ⟨v, rfl, hv⟩ := exists_eq_singleton hargs
    simp only [Instr.embed, Instr.map, Frame.exec, hops, List.cons_append]
    exact gives_setLocal ⟨hlocals, hcount, types, hops ▸ h [v] (.cons hv .nil)⟩ hi hv
  | const v =>
    exact .next (hpush v.toSlot (eq_nil_of_fitAll hargs) (.cons (Slot.fits_toSlot v) .nil))
  | numeric op =>
    exact gives_numeric hops hargs fun v hv => hgoes [v] (.cons hv .nil)

end CodeContext

/-- **An instruction inside an activation** computes what fits. -/
theorem Frame.exec_fits {f : Frame} (h : c.RunsOn table f) :
    ∃ i next, Instr.fetch c.module.bytes table f.pc = some (i, next) ∧
      c.Gives table i ({ f with pc := next }.exec f.pc i) := by
  obtain ⟨hlocals, hcount, types, hgoes⟩ := h
  obtain ⟨i, next, hfetch, hmeets⟩ := hgoes.meets
  refine ⟨i, next, hfetch, ?_⟩
  cases hmeets with
  | plain ha hops hargs hrest h =>
    exact CodeContext.gives_plain (f := { f with pc := next }) hlocals hcount ha hops hargs hrest h
  | block hops hargs h =>
    exact CodeContext.gives_enter (f := { f with pc := next }) hlocals hcount hops hargs h
  | loop hops hargs h =>
    exact CodeContext.gives_enter (f := { f with pc := next }) hlocals hcount hops hargs h
  | @ifThen _ jump ts v args rest hops hargs h helse hskip =>
    simp only [Frame.exec, hops]
    split
    · exact CodeContext.gives_enter (f := { f with pc := next, operands := args ++ rest }) hlocals
        hcount rfl hargs h
    · next heq =>
      exact CodeContext.gives_enter (f := { f with pc := _, operands := args ++ rest }) hlocals
        hcount rfl hargs (helse _ heq)
    · next heq => exact .next ⟨hlocals, hcount, types, hskip heq⟩
  | @elseMark label rest outer next args kept hl hops harity hheight h =>
    have hsize : f.operands.length = label.arity + label.height := by
      rw [hops, List.length_append, harity, hheight]
    have hlt : ¬f.operands.length < label.height + label.arity := by omega
    have hsame : f.operands.take label.arity ++
        f.operands.drop (f.operands.length - label.height) = f.operands := by
      rw [hsize, Nat.add_sub_cancel, List.take_append_drop]
    simp only [Frame.exec, Frame.branch, hl, List.drop_zero, if_neg hlt, hsame]
    exact .next ⟨hlocals, hcount, _, h⟩
  | endMark hl h =>
    simp only [Frame.exec, hl]
    exact .next ⟨hlocals, hcount, _, h⟩
  | leave hl hops =>
    simp only [Frame.exec, hl]
    exact .leave hcount (List.append_nil _).symm hops

end WasmEngine
