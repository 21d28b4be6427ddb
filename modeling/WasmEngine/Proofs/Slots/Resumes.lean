import WasmEngine.Machine.Frame
import WasmEngine.Proofs.Located.Code
import WasmEngine.Proofs.Slots.Fits

/-!
# Proofs/Slots/Resumes — where the machine can go on with these operands

The counterpart of `CodeContext.Resumes` for the operands themselves: code lies at the offset, the
operands above the innermost open block fit what it takes, and those below wait, block by block, for
the results of the blocks inside (`CodeContext.Nest`).  Operands stand top first, types deepest first.
-/

namespace WasmEngine

variable {c : CodeContext} {table : SideTable}

/-- Code that takes operands of types `xs` to `results` lies between `pc` and `stop`. -/
def CodeContext.Carries (c : CodeContext) (table : SideTable) (types : LabelTypes) (pc : Nat)
    (xs : List OperandType) (results : List ValType) (stop : Nat) : Prop :=
  ∃ code : Code, code.Lies c table pc stop ∧ c.HasType types code xs (known results)

/-- `c.Nest table labels types results stop below`: the open blocks are those of `labels`, whose
branches carry `types`; the innermost of them, which has the given results, has a mark at `stop`, and
`below` are the operands below it. -/
inductive CodeContext.Nest (c : CodeContext) (table : SideTable) :
    List Label → LabelTypes → (results : List ValType) → (stop : Nat) → (below : List Slot) → Prop where
  /-- The function itself. -/
  | function {stop next} (h : Instr.fetch c.module.bytes table stop = some (.endMark, next)) :
      Nest c table [] [c.function.type.results] c.function.type.results stop []
  /-- A block, where `held` is what the code around it keeps for itself. -/
  | block {labels label outer ts results stop results' stop' held us below}
      (h : Nest c table labels outer results' stop' below) (hheld : FitAll held.reverse us)
      (harity : label.arity = ts.length) (hheight : label.height = (held ++ below).length)
      (htarget : c.Carries table outer label.target (us ++ known ts) results' stop')
      (hmark : (∃ next, Instr.fetch c.module.bytes table stop = some (.endMark, next) ∧
          c.Carries table outer next (us ++ known results) results' stop') ∨
        (∃ next, Instr.fetch c.module.bytes table stop = some (.elseMark, next)) ∧ ts = results) :
      Nest c table (label :: labels) (ts :: outer) results stop (held ++ below)

/-- **The machine can go on** at `pc` with these operands and labels. -/
def CodeContext.GoesOn (c : CodeContext) (table : SideTable) (labels : List Label)
    (types : LabelTypes) (pc : Nat) (operands : List Slot) : Prop :=
  ∃ results stop above below xs, operands = above ++ below ∧
    c.Nest table labels types results stop below ∧ FitAll above.reverse xs ∧
    c.Carries table types pc xs results stop

/-- The operands below an instruction: some above the innermost open block, and those below it. -/
def CodeContext.Stands (c : CodeContext) (table : SideTable) (labels : List Label)
    (types : LabelTypes) (operands : List Slot) : Prop :=
  ∃ results stop front below, operands = front ++ below ∧ c.Nest table labels types results stop below

variable {labels : List Label} {label : Label} {types outer : LabelTypes} {pc stop : Nat}
  {results ts : List ValType} {below held args operands : List Slot} {us xs ps qs : List OperandType}

namespace CodeContext

/-- Around a block that leaves `args` above what is held, the machine can go on. -/
theorem Nest.goesOn (h : c.Nest table labels types results stop below)
    (hheld : FitAll held.reverse us) (hargs : FitAll args.reverse xs)
    (hcode : c.Carries table types pc (us ++ xs) results stop) :
    c.GoesOn table labels types pc (args ++ (held ++ below)) := by
  refine ⟨results, stop, args ++ held, below, us ++ xs, (List.append_assoc ..).symm, h, ?_, hcode⟩
  rw [List.reverse_append]
  exact hheld.append hargs

/-- **A branch leads somewhere**: out of the function, or to a label from which the machine can go
on with any operands of the types that the branch carries. -/
theorem Nest.branch {depth : Nat} (h : c.Nest table labels types results stop below)
    (hd : types[depth]? = some ts) :
    (labels.drop depth = [] ∧ ts = c.function.type.results) ∨
      ∃ label rest outer front kept, labels.drop depth = label :: rest ∧ label.arity = ts.length ∧
        below = front ++ kept ∧ label.height = kept.length ∧
        ∀ args : List Slot, FitAll args.reverse (known ts) →
          c.GoesOn table rest outer label.target (args ++ kept) := by
  induction h generalizing depth with
  | function =>
    cases depth with
    | zero => exact .inl ⟨rfl, (Option.some.inj hd).symm⟩
    | succ depth => simp at hd
  | @block labels label outer ts' _ _ _ _ held us below h hheld harity hheight htarget _ ih =>
    cases depth with
    | zero =>
      obtain rfl : ts' = ts := Option.some.inj hd
      exact .inr ⟨label, labels, outer, [], held ++ below, rfl, harity, rfl, hheight,
        fun args hargs => h.goesOn hheld hargs htarget⟩
    | succ depth =>
      obtain hout | ⟨label', rest, outer', front, kept, hdrop, harity', rfl, hheight', hgoes⟩ := ih hd
      · exact .inl hout
      · exact .inr ⟨label', rest, outer', held ++ front, kept, hdrop, harity',
          (List.append_assoc ..).symm, hheight', hgoes⟩

/-! ## The next instruction -/

/-- What the machine meets next, and where it can go on behind it. -/
inductive Meets (c : CodeContext) (table : SideTable) (labels : List Label) (types : LabelTypes)
    (pc : Nat) (operands : List Slot) : Instr BlockJump → Nat → Prop where
  /-- An instruction that opens no block, with operands `args` of its types. -/
  | plain {i next ps qs args rest} (ha : HasArrow c types i ps qs) (hops : operands = args ++ rest)
      (hargs : FitAll args.reverse ps) (hrest : c.Stands table labels types rest)
      (h : ∀ vs : List Slot, FitAll vs.reverse qs → c.GoesOn table labels types next (vs ++ rest)) :
      Meets c table labels types pc operands i.embed next
  | block {next jump ts args rest} (hops : operands = args ++ rest)
      (hargs : args.length = jump.paramCount)
      (h : c.GoesOn table (⟨rest.length, jump.stop, jump.resultCount⟩ :: labels) (ts :: types) next
        (args ++ rest)) : Meets c table labels types pc operands (.block jump) next
  | loop {next jump ts args rest} (hops : operands = args ++ rest)
      (hargs : args.length = jump.paramCount)
      (h : c.GoesOn table (⟨rest.length, pc, jump.paramCount⟩ :: labels) (ts :: types) next
        (args ++ rest)) : Meets c table labels types pc operands (.loop jump) next
  /-- An `if`, with operands below the condition. -/
  | ifThen {next jump ts v args rest} (hops : operands = v :: (args ++ rest))
      (hargs : args.length = jump.paramCount)
      (h : c.GoesOn table (⟨rest.length, jump.stop, jump.resultCount⟩ :: labels) (ts :: types) next
        (args ++ rest))
      (helse : ∀ pc', jump.elseBody = some pc' →
        c.GoesOn table (⟨rest.length, jump.stop, jump.resultCount⟩ :: labels) (ts :: types) pc'
          (args ++ rest))
      (hskip : jump.elseBody = none → c.GoesOn table labels types jump.stop (args ++ rest)) :
      Meets c table labels types pc operands (.ifThen jump) next
  /-- The end of the first half of an `if`. -/
  | elseMark {label rest outer next args kept} (hl : labels = label :: rest)
      (hops : operands = args ++ kept) (harity : label.arity = args.length)
      (hheight : label.height = kept.length) (h : c.GoesOn table rest outer label.target operands) :
      Meets c table labels types pc operands .elseMark next
  /-- The end of a block. -/
  | endMark {label rest outer next} (hl : labels = label :: rest)
      (h : c.GoesOn table rest outer next operands) :
      Meets c table labels types pc operands .endMark next
  /-- The end of the function. -/
  | leave {next} (hl : labels = [])
      (hops : FitAll operands.reverse (known c.function.type.results)) :
      Meets c table labels types pc operands .endMark next

/-- Inside a block that has been opened above what is held, the machine can go on. -/
theorem Nest.enter {body : Code} {sig : Signature} {target p q : Nat}
    (h : c.Nest table labels types results stop below) (hheld : FitAll held.reverse us)
    (htarget : c.Carries table types target (us ++ known ts) results stop)
    (hmark : (∃ next, Instr.fetch c.module.bytes table q = some (.endMark, next) ∧
        c.Carries table types next (us ++ known sig.results) results stop) ∨
      (∃ next, Instr.fetch c.module.bytes table q = some (.elseMark, next)) ∧ ts = sig.results)
    (hlies : body.Lies c table p q)
    (htype : c.HasType (ts :: types) body (known sig.params) (known sig.results))
    (hargs : FitAll args.reverse (known sig.params)) :
    c.GoesOn table (⟨(held ++ below).length, target, ts.length⟩ :: labels) (ts :: types) p
      (args ++ (held ++ below)) :=
  ⟨sig.results, q, args, held ++ below, known sig.params, rfl,
    .block h hheld rfl rfl htarget hmark, hargs, body, hlies, htype⟩

/-- Operands of the types below an instruction and of those that it takes. -/
theorem exists_args (hfit : FitAll operands.reverse (us ++ xs)) (hm : MatchAll xs ps) :
    ∃ args held : List Slot, operands = args ++ held ∧ FitAll held.reverse us ∧
      FitAll args.reverse ps := by
  obtain ⟨vs, ws, heq, hheld, hargs⟩ := hfit.split
  refine ⟨ws.reverse, vs.reverse, ?_, by rwa [List.reverse_reverse],
    (by rwa [List.reverse_reverse] : FitAll ws.reverse.reverse xs).mono hm⟩
  rw [← List.reverse_append, ← heq, List.reverse_reverse]

/-- The topmost of some operands, and the others. -/
theorem exists_top (ps : List OperandType) {x : OperandType} (hargs : FitAll args.reverse (ps ++ [x])) :
    ∃ v rest, args = v :: rest ∧ v.Fits x ∧ FitAll rest.reverse ps := by
  obtain ⟨rest, vs, heq, hrest, hv⟩ := hargs.split
  obtain ⟨v, _, hx, hnil, rfl⟩ := List.forall₂_cons_right_iff.1 hv
  obtain rfl := List.forall₂_nil_right_iff.1 hnil
  refine ⟨v, rest.reverse, ?_, hx, by rwa [List.reverse_reverse]⟩
  rw [← List.reverse_reverse args, heq, List.reverse_append]
  rfl

theorem eq_nil_of_fitAll (hargs : FitAll args.reverse []) : args = [] :=
  List.reverse_eq_nil_iff.1 (List.forall₂_nil_right_iff.1 hargs)

theorem exists_eq_singleton {x : OperandType} (hargs : FitAll args.reverse [x]) :
    ∃ v, args = [v] ∧ v.Fits x := by
  obtain ⟨v, rest, rfl, hv, hrest⟩ := exists_top [] hargs
  exact ⟨v, by rw [eq_nil_of_fitAll hrest], hv⟩

/-- **The machine finds an instruction** where it can go on, and can go on behind it. -/
theorem GoesOn.meets (h : c.GoesOn table labels types pc operands) :
    ∃ i next, Instr.fetch c.module.bytes table pc = some (i, next) ∧
      c.Meets table labels types pc operands i next := by
  obtain ⟨results, stop, above, below, xs, rfl, hnest, hfit, code, hlies, htype⟩ := h
  cases hlies with
  | nil =>
    cases htype with
    | nil hm =>
      replace hfit := hfit.mono hm
      cases hnest with
      | function hfetch =>
        refine ⟨_, _, hfetch, .leave rfl ?_⟩
        rwa [List.append_nil]
      | block h hheld harity hheight htarget hmark =>
        obtain ⟨next, hfetch, hnext⟩ | ⟨⟨next, hfetch⟩, rfl⟩ := hmark
        · exact ⟨_, next, hfetch, .endMark rfl (h.goesOn hheld hfit hnext)⟩
        · have hlen := hfit.length_known
          rw [List.length_reverse] at hlen
          exact ⟨_, next, hfetch, .elseMark rfl rfl (harity.trans hlen.symm) hheight
            (h.goesOn hheld hfit htarget)⟩
  | plain hfetch hrest =>
    cases htype with
    | plain ha hp htype =>
      obtain ⟨args, held, rfl, hheld, hargs⟩ := exists_args hfit hp
      exact ⟨_, _, hfetch, .plain ha (List.append_assoc ..) hargs ⟨results, stop, held, below, rfl, hnest⟩
        fun vs hvs => hnest.goesOn hheld hvs ⟨_, hrest, htype⟩⟩
  | block hs hfetch hbody hend hrest =>
    cases htype with
    | block hs' hbody' hp htype =>
      obtain rfl := Option.some.inj (hs'.symm.trans hs)
      obtain ⟨args, held, rfl, hheld, hargs⟩ := exists_args hfit hp
      have hlen := hargs.length_known
      rw [List.length_reverse] at hlen
      exact ⟨_, _, hfetch, .block (List.append_assoc ..) hlen (hnest.enter hheld ⟨_, hrest, htype⟩
        (.inl ⟨_, hend, _, hrest, htype⟩) hbody hbody' hargs)⟩
  | loop hs hfetch hbody hend hrest =>
    cases htype with
    | loop hs' hbody' hp htype =>
      obtain rfl := Option.some.inj (hs'.symm.trans hs)
      obtain ⟨args, held, rfl, hheld, hargs⟩ := exists_args hfit hp
      have hlen := hargs.length_known
      rw [List.length_reverse] at hlen
      -- A branch back to the loop finds the whole loop again.
      have hagain := Code.Lies.loop hs hfetch hbody hend hrest
      exact ⟨_, _, hfetch, .loop (List.append_assoc ..) hlen
        (hnest.enter hheld ⟨_, hagain, .loop hs' hbody' (.refl _) htype⟩
          (.inl ⟨_, hend, _, hrest, htype⟩) hbody hbody' hargs)⟩
  | ifThen hs hfetch hbody hend hrest =>
    cases htype with
    | ifThen hs' heq hbody' hp htype =>
      obtain rfl := Option.some.inj (hs'.symm.trans hs)
      obtain ⟨args, held, rfl, hheld, hargs⟩ := exists_args hfit hp
      obtain ⟨v, args, rfl, -, hargs⟩ := exists_top _ hargs
      have hlen := hargs.length_known
      rw [List.length_reverse] at hlen
      exact ⟨_, _, hfetch, .ifThen (List.append_assoc ..) hlen (hnest.enter hheld ⟨_, hrest, htype⟩
        (.inl ⟨_, hend, _, hrest, htype⟩) hbody hbody' hargs) nofun fun _ =>
        hnest.goesOn hheld hargs ⟨_, hrest, heq ▸ htype⟩⟩
  | ifElse hs hfetch hthen hmark helse hend hrest =>
    cases htype with
    | ifElse hs' hthen' helse' hp htype =>
      obtain rfl := Option.some.inj (hs'.symm.trans hs)
      obtain ⟨args, held, rfl, hheld, hargs⟩ := exists_args hfit hp
      obtain ⟨v, args, rfl, -, hargs⟩ := exists_top _ hargs
      have hlen := hargs.length_known
      rw [List.length_reverse] at hlen
      refine ⟨_, _, hfetch, .ifThen (List.append_assoc ..) hlen (hnest.enter hheld ⟨_, hrest, htype⟩
        (.inr ⟨⟨_, hmark⟩, rfl⟩) hthen hthen' hargs) ?_ nofun⟩
      rintro _ ⟨⟩
      exact hnest.enter hheld ⟨_, hrest, htype⟩ (.inl ⟨_, hend, _, hrest, htype⟩) helse helse' hargs

end CodeContext

end WasmEngine
