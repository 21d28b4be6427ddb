import WasmEngine.Proofs.Structured.Forward

/-!
# Proofs/Structured/Backward — what the machine does, structured code means

`Machine.exec_of_ends`: if the machine ends on well-typed code without overflowing, then structured
execution leaves that code.  The induction is on the number of steps that are left.  Every block and
every call takes a step to enter, and what leaves it leads, by the forward direction, to a
configuration from which no more steps are left.
-/

namespace WasmEngine.Structured

variable {σ : Type} {M : Machine σ} {p : Program} {a : Activation} {below under : List Slot}
  {c c' : Config σ} {n k pc q : Nat} {f : Function} {ctx : CodeContext} {types : LabelTypes}
  {x z : Conf} {e : Exit}

/-! ## Runs that end -/

/-- Whether a run ends within `n` steps, and not because the stack overflows. -/
def Ends (n : Nat) (c : Config σ) : Prop :=
  ∃ outcome, (Config.run n c).outcome? = some outcome ∧ outcome ≠ stackOverflow

namespace Ends

theorem of_reaches (h : Ends n c) (hc : c.Reaches c') : Ends n c' := by
  obtain ⟨outcome, hn, hne⟩ := h
  refine ⟨outcome, ?_, hne⟩
  rw [hc.run_eq (by rw [hn]; rfl), hn]

theorem of_step (h : Ends (n + 1) c) (hc : c.outcome? = none) (hstep : c.step = c') :
    Ends n c' := by
  obtain ⟨outcome, hn, hne⟩ := h
  refine ⟨outcome, ?_, hne⟩
  rwa [Config.run, hc, hstep] at hn

theorem not_zero : ¬Ends 0 (M.running a pc below x) := by
  rintro ⟨outcome, hn, -⟩
  cases hn

theorem not_overflow : ¬Ends n (M.finished x stackOverflow) := by
  rintro ⟨outcome, hn, hne⟩
  rw [Config.run_of_isSome rfl] at hn
  exact hne (Option.some.inj hn).symm

theorem reaches_of_arrives {room : Prop} (h : Ends n c) (hc : M.Arrives room c c') :
    c.Reaches c' := by
  obtain hc | ⟨-, x, hc⟩ := hc
  · exact hc
  · exact absurd (h.of_reaches hc) not_overflow

theorem of_arrives {room : Prop} (h : Ends n c) (hc : M.Arrives room c c') : Ends n c' :=
  h.of_reaches (h.reaches_of_arrives hc)

end Ends

/-! ## Exits lead somewhere -/

/-- Whether the labels of an activation are those of the enclosing blocks. -/
structure Activation.Fits (a : Activation) (ctx : CodeContext) (types : LabelTypes)
    (height : Nat) : Prop where
  labels : ∃ ts, types = ts ++ [ctx.function.type.results] ∧
    List.Forall₂ (fun (l : Label) t => l.arity = List.length t ∧ l.height ≤ height) a.labels ts
  resultCount : a.resultCount = ctx.function.type.results.length

theorem Activation.Fits.inside (h : a.Fits ctx types below.length) (label : List ValType)
    (target : Nat) :
    (a.inside ⟨(under ++ below).length, target, label.length⟩).Fits ctx (label :: types)
      (under ++ below).length := by
  obtain ⟨⟨ts, rfl, hlabels⟩, hcount⟩ := h
  refine ⟨⟨label :: ts, rfl, .cons ⟨rfl, Nat.le_refl _⟩ ?_⟩, hcount⟩
  refine hlabels.imp fun l t h => ⟨h.1, Nat.le_trans h.2 ?_⟩
  rw [List.length_append]
  exact Nat.le_add_left ..

theorem Exit.Fits.exists_lands (he : e.Fits ctx types k) (ha : a.Fits ctx types below.length) :
    ∃ c, M.Lands a q below e c := by
  obtain ⟨⟨ts, rfl, hlabels⟩, hcount⟩ := ha
  cases e with
  | normal x => exact ⟨_, .normal⟩
  | branch depth x =>
    obtain ⟨t, k, ht, hle, hx⟩ := he
    rw [← hx.operands] at hle
    have hdrop := List.forall₂_drop depth hlabels
    cases hl : a.labels.drop depth with
    | nil =>
      rw [hl, List.forall₂_nil_left_iff, List.drop_eq_nil_iff] at hdrop
      rw [List.getElem?_append_right hdrop, List.getElem?_singleton] at ht
      split at ht <;> cases ht
      exact ⟨_, .leave hl (hcount ▸ hle)⟩
    | cons label labels =>
      rw [hl, List.forall₂_cons_left_iff] at hdrop
      obtain ⟨t', ts', ⟨harity, hheight⟩, -, hts⟩ := hdrop
      have ht' : (ts ++ [ctx.function.type.results])[depth]? = some t' := by
        rw [← List.head?_drop, List.drop_append, hts]
        rfl
      obtain rfl := Option.some.inj (ht.symm.trans ht')
      exact ⟨_, .branch hl (harity ▸ hle) hheight⟩
  | ret x =>
    obtain ⟨k, hle, hx⟩ := he
    exact ⟨_, .ret (by rw [hcount, hx.operands]; exact hle)⟩
  | trap t x => exact ⟨_, .trap⟩

/-- A block is closed or left. -/
theorem Exit.Fits.closed_or_outer {label : List ValType} (h : e.Fits ctx (label :: types) k)
    (hk : k = label.length) :
    (∃ z, e.closed? label.length under = some z) ∨ ∃ e', e.outer? = some e' := by
  cases e with
  | normal x => exact .inl ⟨_, if_pos (h.operands.trans hk)⟩
  | branch depth x =>
    obtain ⟨t, k, ht, hle, hx⟩ := h
    cases depth with
    | zero =>
      cases ht
      exact .inl ⟨_, if_pos (hx.operands ▸ hle)⟩
    | succ depth => exact .inr ⟨_, rfl⟩
  | ret x | trap t x => exact .inr ⟨_, rfl⟩

/-- A loop is passed, starts again, or is left. -/
theorem Exit.Fits.passed_or_again_or_outer {label : List ValType}
    (h : e.Fits ctx (label :: types) k) :
    (∃ z, e.passed? k under = some z) ∨ (∃ z, e.again? label.length under = some z) ∨
      ∃ e', e.outer? = some e' := by
  cases e with
  | normal x => exact .inl ⟨_, if_pos h.operands⟩
  | branch depth x =>
    obtain ⟨t, k, ht, hle, hx⟩ := h
    cases depth with
    | zero =>
      cases ht
      exact .inr (.inl ⟨_, if_pos (hx.operands ▸ hle)⟩)
    | succ depth => exact .inr (.inr ⟨_, rfl⟩)
  | ret x | trap t x => exact .inr (.inr ⟨_, rfl⟩)

/-- A function returns or traps. -/
theorem Exit.Fits.returned_or_trap
    (h : e.Fits ctx [ctx.function.type.results] ctx.function.type.results.length) :
    (∃ values z, e.returned? ctx.function.type.results.length = some (values, z)) ∨
      ∃ t z, e = .trap t z := by
  cases e with
  | normal x => exact .inl ⟨_, _, if_pos (Nat.le_of_eq h.operands.symm)⟩
  | branch depth x =>
    obtain ⟨t, k, ht, hle, hx⟩ := h
    cases depth with
    | zero =>
      cases ht
      exact .inl ⟨_, _, if_pos (hx.operands ▸ hle)⟩
    | succ depth => cases ht
  | ret x =>
    obtain ⟨k, hle, hx⟩ := h
    exact .inl ⟨_, _, if_pos (hx.operands ▸ hle)⟩
  | trap t x => exact .inr ⟨t, x, rfl⟩

/-! ## The induction -/

variable {code : Code} {ts us : List OperandType}

/-- Typed code is empty, or starts with an instruction without blocks, with a loop, or with a block
that is entered. -/
theorem cases_of_hasType (ht : ctx.HasType types code ts us) (hx : x.Fits ctx ts.length) :
    code = .nil ∨ (∃ i rest, code = .plain i rest) ∨
      (∃ type body rest, code = .loop type body rest) ∨
      ∃ type body rest y, opened? code x = some (type, body, rest, y) := by
  cases ht with
  | nil => exact .inl rfl
  | plain => exact .inr (.inl ⟨_, _, rfl⟩)
  | loop => exact .inr (.inr (.inl ⟨_, _, _, rfl⟩))
  | block => exact .inr (.inr (.inr ⟨_, _, _, _, rfl⟩))
  | ifThen _ _ _ hm | ifElse _ _ _ hm =>
    obtain ⟨v, vs, hops, -⟩ := hx.exists_condition hm
    exact .inr (.inr (.inr ⟨_, _, _, _, by simp only [opened?, hops]; rfl⟩))

/-- The machine is at typed code. -/
structure Machine.IsAt (M : Machine σ) (f : Function) (types : LabelTypes) (a : Activation)
    (pc : Nat) (below : List Slot) (code : Code) (x : Conf) (ts us : List OperandType) : Prop where
  lies : ∃ g q, code.Lies ⟨M.inst.module, g⟩ M.inst.sideTable pc q
  typed : CodeContext.HasType ⟨M.inst.module, f⟩ types code ts us
  fits : x.Fits ⟨M.inst.module, f⟩ ts.length
  encloses : a.Fits ⟨M.inst.module, f⟩ types below.length

/-- Whether structured execution leaves all typed code on which the machine ends in `n` steps. -/
def Machine.Leaves (M : Machine σ) (p : Program) (n : Nat) : Prop :=
  ∀ (f : Function) (types : LabelTypes) (a : Activation) (pc : Nat) (below : List Slot)
    (code : Code) (x : Conf) (ts us : List OperandType),
    M.IsAt f types a pc below code x ts us → Ends n (M.running a pc below x) → ∃ e, p.Exec code x e

section Step

variable {rest body : Code} {y : Conf} {i : Instr Empty} {g : Func}

theorem Machine.Leaves.call (hM : M.Loads p) (hp : Setting M.inst.module M.inst.sideTable p)
    (ih : M.Leaves p n) (hact : p.act i x = some (.call g y))
    (hfits : (Action.call g y).Fits p ⟨M.inst.module, f⟩ types ts.length)
    (hf : Instr.fetch M.inst.module.bytes M.inst.sideTable pc = some (i.embed, q))
    (hrest : ∀ z, Conf.Fits ⟨M.inst.module, f⟩ z ts.length →
      M.IsAt f types a q below rest z ts us)
    (hn : Ends (n + 1) (M.running a pc below x)) : ∃ e, p.Exec (.plain i rest) x e := by
  obtain ⟨func, k, hg, hk, hy⟩ := hfits
  obtain ⟨args, under, hops, hargs⟩ := hy.exists_params (Nat.le_add_right ..)
  obtain ⟨fn, -, hof⟩ := hp.exists_function hg
  obtain ⟨_, hcode⟩ := hof.hasCode
  have henter := hof.fits_enter hy.globals hy.memory hargs
  obtain ⟨f₁, entry, stop, next, hlies, hend, ⟨-, hcall⟩ | ⟨-, hcall⟩⟩ :=
    hM.step_call (a := a) hact hf hops hargs
  · have hin := hn.of_step rfl hcall
    obtain ⟨e, he⟩ := ih fn _ _ _ _ _ _ _ _ ⟨⟨f₁, stop, hlies⟩, hcode.typed, henter,
      ⟨⟨[], rfl, .nil⟩, congrArg (·.results.length) hof.type_eq⟩⟩ hin
    have hfit := he.fits hp hcode.typed henter
    rw [List.length_map] at hfit
    obtain ⟨values, z, hret⟩ | ⟨t, z, rfl⟩ := hfit.returned_or_trap
    · replace hret : e.returned? g.type.results.length = some (values, z) := by
        rw [hof.type_eq]
        exact hret
      obtain ⟨hvalues, hz⟩ := hfit.returned hret
      obtain ⟨m, harrives⟩ := he.arrives (σ := σ)
      obtain ⟨htake, c₁, hlands, hleft⟩ := hM.reaches_left
        (a := a.calling q below (y.withOperands under) g) rfl hend hret
      have hout := (hin.of_arrives (harrives M f₁ _ _ _ _ _ hM hlies hlands)).of_reaches hleft
      replace htake : values = z.operands.take g.type.results.length := htake
      rw [left_calling, ← htake] at hout
      obtain ⟨k', hz⟩ := hz
      have hunder : under.length = k := hy.length_below hops hargs
      have hresume : Conf.Fits ⟨M.inst.module, f⟩ (y.resume z values under) ts.length :=
        ⟨hy.locals, hz.globals, hz.memory, by
          rw [Conf.resume, List.length_append, hvalues, hunder, ← hk, Nat.add_comm]⟩
      obtain ⟨e', he'⟩ := ih _ _ _ _ _ _ _ _ _ (hrest _ hresume) hout
      exact ⟨e', .call hact hops hargs he hret he'⟩
    · exact ⟨_, .callTrap hact hops hargs he⟩
  · exact absurd (hn.of_step rfl hcall) Ends.not_overflow

theorem Machine.Leaves.plain (hM : M.Loads p) (hp : Setting M.inst.module M.inst.sideTable p)
    (ih : M.Leaves p n) (hat : M.IsAt f types a pc below (.plain i rest) x ts us)
    (hn : Ends (n + 1) (M.running a pc below x)) : ∃ e, p.Exec (.plain i rest) x e := by
  obtain ⟨⟨f', q, hl⟩, ht, hx, ha⟩ := hat
  obtain ⟨act, ts', hact, hfits, hrest⟩ := acts_of_hasType hp ht hx
  cases hl with
  | plain hf hlrest =>
    cases act with
    | next y =>
      obtain ⟨e, he⟩ := ih _ _ _ _ _ _ _ _ _ ⟨⟨f', q, hlrest⟩, hrest, hfits, ha⟩
        (hn.of_step rfl (hM.goes_of_act hact hf).next_eq)
      exact ⟨e, .next hact he⟩
    | trap t => exact ⟨_, .trap hact⟩
    | branch depth y => exact ⟨_, .branch hact⟩
    | ret y => exact ⟨_, .ret hact⟩
    | call g y =>
      exact ih.call hM hp hact hfits hf (fun z hz => ⟨⟨f', q, hlrest⟩, hrest, hz, ha⟩) hn

theorem Machine.Leaves.block (hM : M.Loads p) (hp : Setting M.inst.module M.inst.sideTable p)
    (ih : M.Leaves p n) {type : BlockType} (ho : opened? code x = some (type, body, rest, y))
    (hat : M.IsAt f types a pc below code x ts us)
    (hn : Ends (n + 1) (M.running a pc below x)) : ∃ e, p.Exec code x e := by
  obtain ⟨⟨f', q, hl⟩, ht, hx, ha⟩ := hat
  obtain ⟨sig, xs, hsig, hy, hbody, hrest⟩ := fits_of_opened ht hx ho
  obtain ⟨args, under, hops, hargs⟩ := hy.exists_params (Nat.le_add_right ..)
  have hs := (hp.signature?_eq f type).trans hsig
  have hunder := hy.length_below hops hargs
  obtain ⟨p₁, q₁, q₂, hlies, hmark, hlrest, hstep⟩ | ⟨rfl, q₂, hlrest, hstep⟩ :=
    hM.step_opened (a := a) below ho hs hops hargs hl
  · have hin := hn.of_step rfl hstep
    obtain ⟨e, he⟩ := ih _ _ _ _ _ _ _ _ _
      ⟨⟨f', q₁, hlies⟩, hbody, hy.params hargs, ha.inside sig.results q₂⟩ hin
    have hfit := he.fits hp hbody (hy.params hargs)
    obtain ⟨z, hz⟩ | ⟨e', he'⟩ := hfit.closed_or_outer (List.length_map _)
    · obtain ⟨m, harrives⟩ := he.arrives (σ := σ)
      obtain ⟨c₁, hlands, hclosed⟩ := hM.reaches_closed (a := a) hmark hz
      have hout := (hin.of_arrives (harrives M _ _ _ _ _ _ hM hlies hlands)).of_reaches hclosed
      obtain ⟨e', he'⟩ := ih _ _ _ _ _ _ _ _ _
        ⟨⟨f', q, hlrest⟩, hrest, hfit.behind hz hunder, ha⟩ hout
      exact ⟨e', .block ho hs hops hargs he hz he'⟩
    · exact ⟨e', .blockExit ho hs hops hargs he he'⟩
  · -- The half of the `if` that is missing.
    have he : p.Exec .nil (y.withOperands args) (.normal (y.withOperands args)) := .nil
    have hfit := he.fits hp hbody (hy.params hargs)
    obtain ⟨z, hz⟩ | ⟨e', he'⟩ := hfit.closed_or_outer (List.length_map _)
    · obtain rfl := he.eq_of_closed_nil hops hz
      obtain ⟨e', he'⟩ := ih _ _ _ _ _ _ _ _ _
        ⟨⟨f', q, hlrest⟩, hrest, hfit.behind hz hunder, ha⟩ (hn.of_step rfl hstep)
      exact ⟨e', .block ho hs hops hargs he hz he'⟩
    · cases he'

theorem Machine.Leaves.loop (hM : M.Loads p) (hp : Setting M.inst.module M.inst.sideTable p)
    (ih : M.Leaves p n) {type : BlockType}
    (hat : M.IsAt f types a pc below (.loop type body rest) x ts us)
    (hn : Ends (n + 1) (M.running a pc below x)) : ∃ e, p.Exec (.loop type body rest) x e := by
  obtain ⟨⟨f', q, hl⟩, ht, hx, ha⟩ := hat
  obtain ⟨sig, xs, hsig, hx, hbody, hrest⟩ := fits_of_loop ht hx
  obtain ⟨args, under, hops, hargs⟩ := hx.exists_params (Nat.le_add_right ..)
  have hs := (hp.signature?_eq f type).trans hsig
  have hunder := hx.length_below hops hargs
  obtain ⟨p₁, q₁, q₂, hlies, hend, hlrest, hstep⟩ :=
    hM.step_loop (a := a) hs hops hargs hl
  have hin := hn.of_step rfl hstep
  obtain ⟨e, he⟩ := ih _ _ _ _ _ _ _ _ _
    ⟨⟨f', q₁, hlies⟩, hbody, hx.params hargs, ha.inside sig.params pc⟩ hin
  have hfit := he.fits hp hbody (hx.params hargs)
  obtain ⟨m, harrives⟩ := he.arrives (σ := σ)
  rw [List.length_map] at hfit
  obtain ⟨z, hz⟩ | ⟨z, hz⟩ | ⟨e', he'⟩ := hfit.passed_or_again_or_outer
  · obtain ⟨c₁, hlands, hpassed⟩ := hM.reaches_passed (a := a)
      ⟨(under ++ below).length, pc, sig.params.length⟩ hend hz
    have hout := (hin.of_arrives (harrives M _ _ _ _ _ _ hM hlies hlands)).of_reaches hpassed
    obtain ⟨e', he'⟩ := ih _ _ _ _ _ _ _ _ _
      ⟨⟨f', q, hlrest⟩, hrest, hfit.behind (Exit.closed?_eq_of_passed? hz) hunder, ha⟩ hout
    exact ⟨e', .loop hs hops hargs he hz he'⟩
  · have hout := hin.of_arrives (harrives M _ _ _ _ _ _ hM hlies (lands_again hz))
    obtain ⟨e', he'⟩ := ih _ _ _ _ _ _ _ _ _
      ⟨⟨f', q, hl⟩, .loop hsig hbody (MatchAll.refl _) hrest,
        hfit.behind (Exit.closed?_eq_of_again? hz) hunder, ha⟩ hout
    exact ⟨e', .loopAgain hs hops hargs he hz he'⟩
  · exact ⟨e', .loopExit hs hops hargs he he'⟩

end Step

/-- **Structured execution leaves the code on which the machine ends.** -/
theorem Machine.Loads.leaves (hM : M.Loads p) (hp : Setting M.inst.module M.inst.sideTable p)
    (n : Nat) : M.Leaves p n := by
  induction n with
  | zero => exact fun _ _ _ _ _ _ _ _ _ _ hn => absurd hn Ends.not_zero
  | succ n ih =>
    intro f types a pc below code x ts us hat hn
    obtain rfl | ⟨i, rest, rfl⟩ | ⟨type, body, rest, rfl⟩ | ⟨type, body, rest, y, ho⟩ :=
      cases_of_hasType hat.typed hat.fits
    · exact ⟨_, .nil⟩
    · exact ih.plain hM hp hat hn
    · exact ih.loop hM hp hat hn
    · exact ih.block hM hp ho hat hn

end WasmEngine.Structured
