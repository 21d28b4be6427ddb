import WasmEngine.Machine.Frame
import WasmEngine.Proofs.Located.Code
import WasmEngine.Proofs.Typing.Declarative

/-!
# Proofs/Safety/Resumes — where the machine can go on

The machine knows an offset, a number of untagged operands and the labels of the open blocks.
`Resumes` says that this is enough: well-typed code lies at the offset, the operands are as many as
it takes, and every label leads to a place where the machine can go on as well.  `Resumes.next` is
the one inversion of it: what the next instruction is, and where the machine can go on behind it.
-/

namespace WasmEngine

variable {c : CodeContext} {table : SideTable}

/-- The number of operands below the innermost open block. -/
def baseHeight : List Label → Nat
  | [] => 0
  | label :: _ => label.height

/-- Code that takes what there is above `base`, of `n` operands, to `results` lies between `pc` and
`stop`. -/
def CodeContext.Leads (c : CodeContext) (table : SideTable) (types : LabelTypes)
    (base pc n : Nat) (results : List ValType) (stop : Nat) : Prop :=
  ∃ code ts, code.Lies c table pc stop ∧ c.HasType types code ts (known results) ∧
    n = base + ts.length

/-- `c.Encloses table labels types results stop`: the open blocks are those of `labels`, whose
branches carry `types`; the innermost of them, which has the given results, has a mark at `stop`;
and the machine can go on where these labels lead. -/
def CodeContext.Encloses (c : CodeContext) (table : SideTable) :
    List Label → LabelTypes → (results : List ValType) → (stop : Nat) → Prop
  | [], types, results, stop =>
    types = [c.function.type.results] ∧ results = c.function.type.results ∧
      ∃ next, Instr.fetch c.module.bytes table stop = some (.endMark, next)
  | label :: labels, types, results, stop =>
    ∃ ts outer, types = ts :: outer ∧ label.arity = ts.length ∧
      baseHeight labels ≤ label.height ∧
      (∃ results' stop', c.Encloses table labels outer results' stop' ∧
        c.Leads table outer (baseHeight labels) label.target (label.height + ts.length) results'
          stop') ∧
      ((∃ next, Instr.fetch c.module.bytes table stop = some (.endMark, next) ∧
        ∃ results' stop', c.Encloses table labels outer results' stop' ∧
          c.Leads table outer (baseHeight labels) next (label.height + results.length) results'
            stop') ∨
      (∃ next, Instr.fetch c.module.bytes table stop = some (.elseMark, next)) ∧ ts = results)

/-- **The machine can go on** at `pc` with `n` operands and the given labels. -/
def CodeContext.Resumes (c : CodeContext) (table : SideTable) (labels : List Label)
    (types : LabelTypes) (pc n : Nat) : Prop :=
  ∃ results stop, c.Encloses table labels types results stop ∧
    c.Leads table types (baseHeight labels) pc n results stop

variable {labels : List Label} {label : Label} {types outer : LabelTypes} {pc n stop : Nat}
  {results : List ValType}

theorem CodeContext.encloses_nil :
    c.Encloses table [] types results stop ↔
      types = [c.function.type.results] ∧ results = c.function.type.results ∧
        ∃ next, Instr.fetch c.module.bytes table stop = some (.endMark, next) := Iff.rfl

theorem CodeContext.encloses_cons :
    c.Encloses table (label :: labels) types results stop ↔
      ∃ ts outer, types = ts :: outer ∧ label.arity = ts.length ∧
        baseHeight labels ≤ label.height ∧
        c.Resumes table labels outer label.target (label.height + ts.length) ∧
        ((∃ next, Instr.fetch c.module.bytes table stop = some (.endMark, next) ∧
          c.Resumes table labels outer next (label.height + results.length)) ∨
        (∃ next, Instr.fetch c.module.bytes table stop = some (.elseMark, next)) ∧
          ts = results) := Iff.rfl

/-- **A branch leads somewhere**: out of the function, or to a label from which the machine can go
on with the operands that the branch carries. -/
theorem CodeContext.Encloses.branch {depth : Nat} {ts : List ValType}
    (h : c.Encloses table labels types results stop) (hd : types[depth]? = some ts)
    (hn : baseHeight labels + ts.length ≤ n) :
    (labels.drop depth = [] ∧ ts = c.function.type.results) ∨
      ∃ label rest outer, labels.drop depth = label :: rest ∧ label.arity = ts.length ∧
        label.height + label.arity ≤ n ∧
        c.Resumes table rest outer label.target (label.height + label.arity) := by
  induction labels generalizing types results stop depth with
  | nil =>
    obtain ⟨rfl, -, -⟩ := encloses_nil.1 h
    cases depth with
    | zero => exact .inl ⟨rfl, (Option.some.inj hd).symm⟩
    | succ depth => simp at hd
  | cons label labels ih =>
    obtain ⟨us, outer, rfl, harity, hbase, htarget, -⟩ := encloses_cons.1 h
    cases depth with
    | zero =>
      obtain rfl : us = ts := Option.some.inj hd
      refine .inr ⟨label, labels, outer, rfl, harity, ?_, harity ▸ htarget⟩
      rw [harity]
      exact hn
    | succ depth =>
      obtain ⟨results', stop', henc, -⟩ := htarget
      exact ih henc hd (Nat.le_trans (Nat.add_le_add_right hbase _) hn)

/-! ## The next instruction -/

/-- What the machine meets next, and where it can go on behind it. -/
inductive CodeContext.Next (c : CodeContext) (table : SideTable) (labels : List Label)
    (types : LabelTypes) (pc n : Nat) : Instr BlockJump → Nat → Prop where
  /-- An instruction that opens no block. -/
  | plain {i next ps qs} (ha : HasArrow c types i ps qs) (hn : baseHeight labels + ps.length ≤ n)
      (h : c.Resumes table labels types next (n - ps.length + qs.length)) :
      Next c table labels types pc n i.embed next
  | block {next jump ts} (hn : baseHeight labels + jump.paramCount ≤ n)
      (h : c.Resumes table (⟨n - jump.paramCount, jump.stop, jump.resultCount⟩ :: labels)
        (ts :: types) next n) : Next c table labels types pc n (.block jump) next
  | loop {next jump ts} (hn : baseHeight labels + jump.paramCount ≤ n)
      (h : c.Resumes table (⟨n - jump.paramCount, pc, jump.paramCount⟩ :: labels)
        (ts :: types) next n) : Next c table labels types pc n (.loop jump) next
  /-- An `if`, with operands below the condition. -/
  | ifThen {next jump ts} (hn : baseHeight labels + jump.paramCount + 1 ≤ n)
      (h : c.Resumes table (⟨n - 1 - jump.paramCount, jump.stop, jump.resultCount⟩ :: labels)
        (ts :: types) next (n - 1))
      (helse : ∀ pc', jump.elseBody = some pc' →
        c.Resumes table (⟨n - 1 - jump.paramCount, jump.stop, jump.resultCount⟩ :: labels)
          (ts :: types) pc' (n - 1))
      (hskip : jump.elseBody = none → c.Resumes table labels types jump.stop (n - 1)) :
      Next c table labels types pc n (.ifThen jump) next
  /-- The end of the first half of an `if`. -/
  | elseMark {label rest outer next} (hl : labels = label :: rest)
      (hn : label.height + label.arity ≤ n)
      (h : c.Resumes table rest outer label.target (label.height + label.arity)) :
      Next c table labels types pc n .elseMark next
  /-- The end of a block. -/
  | endMark {label rest outer next} (hl : labels = label :: rest)
      (h : c.Resumes table rest outer next n) : Next c table labels types pc n .endMark next
  /-- The end of the function. -/
  | leave {next} (hl : labels = []) (hn : n = c.function.type.results.length) :
      Next c table labels types pc n .endMark next

/-- Behind a block that leaves `qs` above `xs`, the machine can go on. -/
theorem CodeContext.Encloses.resumes {rest : Code} {xs qs : List OperandType} {p : Nat}
    (h : c.Encloses table labels types results stop) (hlies : rest.Lies c table p stop)
    (htype : c.HasType types rest (xs ++ qs) (known results))
    (hn : n = baseHeight labels + xs.length + qs.length) : c.Resumes table labels types p n :=
  ⟨results, stop, h, rest, xs ++ qs, hlies, htype, by rw [hn, List.length_append, Nat.add_assoc]⟩

/-- Inside a block that has been opened above `height` operands, the machine can go on. -/
theorem CodeContext.Resumes.enter {body : Code} {sig : Signature} {ts : List ValType}
    {height target q p : Nat} (hheight : baseHeight labels ≤ height)
    (htarget : c.Resumes table labels types target (height + ts.length))
    (hmark : (∃ next, Instr.fetch c.module.bytes table q = some (.endMark, next) ∧
        c.Resumes table labels types next (height + sig.results.length)) ∨
      (∃ next, Instr.fetch c.module.bytes table q = some (.elseMark, next)) ∧ ts = sig.results)
    (hlies : body.Lies c table p q)
    (htype : c.HasType (ts :: types) body (known sig.params) (known sig.results))
    (hn : n = height + sig.params.length) :
    c.Resumes table (⟨height, target, ts.length⟩ :: labels) (ts :: types) p n :=
  ⟨sig.results, q, encloses_cons.2 ⟨ts, types, rfl, rfl, hheight, htarget, hmark⟩, body,
    known sig.params, hlies, htype, by rw [hn, List.length_map]; rfl⟩

/-- **The machine finds an instruction** where it can go on, and can go on behind it. -/
theorem CodeContext.Resumes.next (h : c.Resumes table labels types pc n) :
    ∃ i next, Instr.fetch c.module.bytes table pc = some (i, next) ∧
      c.Next table labels types pc n i next := by
  obtain ⟨results, stop, henc, code, ts, hlies, htype, hn⟩ := id h
  cases hlies with
  | nil =>
    cases htype with
    | nil hm =>
      have hlen := hm.length_eq
      rw [List.length_map] at hlen
      cases labels with
      | nil =>
        obtain ⟨-, rfl, next, hfetch⟩ := encloses_nil.1 henc
        exact ⟨_, next, hfetch, .leave rfl (by rw [hn, hlen, baseHeight, Nat.zero_add])⟩
      | cons label labels =>
        obtain ⟨us, outer, rfl, harity, hbase, htarget, hmark⟩ := encloses_cons.1 henc
        rw [hlen] at hn
        subst hn
        obtain ⟨next, hfetch, hnext⟩ | ⟨⟨next, hfetch⟩, rfl⟩ := hmark
        · exact ⟨_, next, hfetch, .endMark rfl hnext⟩
        · exact ⟨_, next, hfetch, .elseMark rfl (by rw [harity]; exact Nat.le_refl _)
            (harity ▸ htarget)⟩
  | plain hfetch hrest =>
    cases htype with
    | @plain _ _ _ xs ts ps qs _ ha hp htype =>
      have hlen := hp.length_eq
      rw [List.length_append] at hn
      exact ⟨_, _, hfetch, .plain ha (by omega) (henc.resumes hrest htype (by omega))⟩
  | block hs hfetch hbody hend hrest =>
    cases htype with
    | @block _ _ sig _ _ xs ts _ hs' hbody' hp htype =>
      obtain rfl := Option.some.inj (hs'.symm.trans hs)
      have hlen := hp.length_eq
      rw [List.length_append] at hn
      rw [List.length_map] at hlen
      have hafter : c.Resumes table labels types _ (n - sig.params.length + sig.results.length) :=
        henc.resumes hrest htype (by rw [List.length_map]; omega)
      exact ⟨_, _, hfetch, .block (by simp only; omega) (.enter (by simp only; omega) hafter
        (.inl ⟨_, hend, hafter⟩) hbody hbody' (by simp only; omega))⟩
  | loop hs hfetch hbody hend hrest =>
    cases htype with
    | @loop _ _ sig _ _ xs ts _ hs' hbody' hp htype =>
      obtain rfl := Option.some.inj (hs'.symm.trans hs)
      have hlen := hp.length_eq
      rw [List.length_append] at hn
      rw [List.length_map] at hlen
      have hafter : c.Resumes table labels types _ (n - sig.params.length + sig.results.length) :=
        henc.resumes hrest htype (by rw [List.length_map]; omega)
      have hagain : c.Resumes table labels types pc (n - sig.params.length + sig.params.length) := by
        rwa [Nat.sub_add_cancel (by omega)]
      exact ⟨_, _, hfetch, .loop (by simp only; omega) (.enter (by simp only; omega) hagain
        (.inl ⟨_, hend, hafter⟩) hbody hbody' (by simp only; omega))⟩
  | ifThen hs hfetch hbody hend hrest =>
    cases htype with
    | @ifThen _ _ sig _ _ xs ts _ hs' heq hbody' hp htype =>
      obtain rfl := Option.some.inj (hs'.symm.trans hs)
      have hlen := hp.length_eq
      rw [List.length_append] at hn
      rw [List.length_append, List.length_map, List.length_singleton] at hlen
      have hafter : c.Resumes table labels types _
          (n - 1 - sig.params.length + sig.results.length) :=
        henc.resumes hrest htype (by rw [List.length_map]; omega)
      refine ⟨_, _, hfetch, .ifThen (by simp only; omega) (.enter (by simp only; omega) hafter
        (.inl ⟨_, hend, hafter⟩) hbody hbody' (by simp only; omega)) nofun fun _ => ?_⟩
      have hskip : n - 1 - sig.params.length + sig.results.length = n - 1 := by rw [← heq]; omega
      exact hskip ▸ hafter
  | ifElse hs hfetch hthen hmark helse hend hrest =>
    cases htype with
    | @ifElse _ _ sig _ _ _ xs ts _ hs' hthen' helse' hp htype =>
      obtain rfl := Option.some.inj (hs'.symm.trans hs)
      have hlen := hp.length_eq
      rw [List.length_append] at hn
      rw [List.length_append, List.length_map, List.length_singleton] at hlen
      have hafter : c.Resumes table labels types _
          (n - 1 - sig.params.length + sig.results.length) :=
        henc.resumes hrest htype (by rw [List.length_map]; omega)
      refine ⟨_, _, hfetch, .ifThen (by simp only; omega) (.enter (by simp only; omega) hafter
        (.inr ⟨⟨_, hmark⟩, rfl⟩) hthen hthen' (by simp only; omega)) ?_ nofun⟩
      rintro _ ⟨⟩
      exact .enter (by simp only; omega) hafter (.inl ⟨_, hend, hafter⟩) helse helse'
        (by simp only; omega)

end WasmEngine
