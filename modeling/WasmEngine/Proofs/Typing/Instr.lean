import WasmEngine.Proofs.Typing.Stack

/-!
# Proofs/Typing/Instr — the checker's rule of an instruction is the declarative one

`Check.instr.rule` succeeds on an instruction exactly where `HasArrow` types it: what the frame
admits afterwards, it admits before by a declarative step (`explained_of_rule`), and a declarative
step from operands that the frame covers can be checked (`rule_of_covers`).
-/

namespace WasmEngine

/-- A declarative step: an instruction that takes the topmost of the operands `ts` leaves `us`. -/
def StepsTo (c : CodeContext) (labels : LabelTypes) (i : Instr Empty)
    (ts us : List OperandType) : Prop :=
  ∃ below xs ps qs, ts = below ++ xs ∧ MatchAll xs ps ∧ HasArrow c labels i ps qs ∧ us = below ++ qs

namespace Check

variable {c : CodeContext} {s : InstrSpan} {t t' : Typing} {i : Instr Empty}
  {rest xs ps qs ts us : List OperandType}

/-! ## From the checker to the rules -/

/-- Whether every list of operands that a frame admits after an instruction comes, by a declarative
step, from one that it admitted before. -/
def Explained (c : CodeContext) (t : Typing) (i : Instr Empty) (t' : Typing) : Prop :=
  ∃ held dead, t' = t.withStack held dead ∧ ∀ us, Admits dead held us →
    ∃ ts, Admits t.frame.isUnreachable t.frame.operands ts ∧ StepsTo c t.labels i ts us

theorem explained_of_takes (hx : Takes t.frame.isUnreachable t.frame.operands xs rest)
    (hm : MatchAll xs ps) (ha : HasArrow c t.labels i ps qs) :
    Explained c t i (t.withStack (qs.reverse ++ rest) t.frame.isUnreachable) := by
  refine ⟨_, _, rfl, fun us hus => ?_⟩
  obtain ⟨below, rfl, hb⟩ := hus.push
  exact ⟨below ++ xs, hx.admits hb, below, xs, ps, qs, rfl, hm, ha, rfl⟩

/-- An instruction that does not fall through is polymorphic in what it leaves. -/
theorem explained_of_unreachable (hx : Takes t.frame.isUnreachable t.frame.operands xs rest)
    (hm : MatchAll xs ps) (ha : ∀ below us, HasArrow c t.labels i (below ++ ps) us) :
    Explained c t i (t.withStack [] true) := by
  refine ⟨_, _, rfl, fun us _ => ?_⟩
  refine ⟨rest.reverse ++ xs, hx.admits (admits_self _ rest), [], _, _, us, rfl, ?_,
    ha rest.reverse us, rfl⟩
  exact List.rel_append (MatchAll.refl _) hm

/-- A round of the loop over the targets of a branch table: operands that fit the target come off
and go back. -/
def retarget (arity depth : Nat) : Check (ForInStep PUnit) := do
  let ts ← labelTypes depth
  unless ts.length = arity do throw .typeMismatch
  pushAll (← expectAll ts)
  pure (.yield ⟨⟩)

theorem retarget_eq_ok_iff {arity depth : Nat} {r : ForInStep PUnit} :
    retarget arity depth t = .ok (r, t') ↔ r = .yield ⟨⟩ ∧
      ∃ ts xs rest, t.labels[depth]? = some ts ∧ ts.length = arity ∧ MatchAll xs (known ts) ∧
        Takes t.frame.isUnreachable t.frame.operands xs rest ∧
        t' = t.withStack (xs.reverse ++ rest) t.frame.isUnreachable := by
  simp only [retarget, throw_bind, bind_eq_ok_iff, labelTypes_eq_ok_iff, ite_else_throw_eq_ok_iff,
    expectAll_eq_ok_iff, pushAll_eq_ok_iff, pure_eq_ok_iff]
  constructor
  · rintro ⟨ts, _, ⟨hts, rfl⟩, hlen, xs, _, ⟨hxs, rest, hrest, rfl⟩, _, _, rfl, rfl, rfl⟩
    exact ⟨rfl, ts, xs, rest, hts, hlen, hxs, hrest, rfl⟩
  · rintro ⟨rfl, ts, xs, rest, hts, hlen, hxs, hrest, rfl⟩
    exact ⟨ts, _, ⟨hts, rfl⟩, hlen, xs, _, ⟨hxs, rest, hrest, rfl⟩, (), _, rfl, rfl, rfl⟩

/-- The loop over the targets of a branch table. -/
def retargetAll (arity : Nat) (targets : List Nat) : Check PUnit :=
  forIn targets ⟨⟩ fun depth _ => retarget arity depth

theorem brTable_eq (targets : List Nat) (default : Nat) :
    brTable targets default = (do
      discard (expect .i32)
      let ts ← labelTypes default
      retargetAll ts.length targets
      discard (expectAll (← labelTypes default))
      setUnreachable) :=
  rfl

theorem retargetAll_cons_eq_ok_iff {arity depth : Nat} {targets : List Nat} {u : PUnit} :
    retargetAll arity (depth :: targets) t = .ok (u, t') ↔
      ∃ ts xs rest, t.labels[depth]? = some ts ∧ ts.length = arity ∧ MatchAll xs (known ts) ∧
        Takes t.frame.isUnreachable t.frame.operands xs rest ∧
        retargetAll arity targets (t.withStack (xs.reverse ++ rest) t.frame.isUnreachable)
          = .ok (u, t') := by
  rw [retargetAll, List.forIn_cons, bind_eq_ok_iff]
  constructor
  · rintro ⟨r, _, hround, h⟩
    obtain ⟨rfl, ts, xs, rest, hts, hlen, hxs, hrest, rfl⟩ := retarget_eq_ok_iff.1 hround
    exact ⟨ts, xs, rest, hts, hlen, hxs, hrest, h⟩
  · rintro ⟨ts, xs, rest, hts, hlen, hxs, hrest, h⟩
    exact ⟨_, _, retarget_eq_ok_iff.2 ⟨rfl, ts, xs, rest, hts, hlen, hxs, hrest, rfl⟩, h⟩

theorem withStack_of_retargetAll {targets : List Nat} {arity : Nat} {u : PUnit}
    (h : retargetAll arity targets t = .ok (u, t')) :
    t' = t.withStack t'.frame.operands t.frame.isUnreachable := by
  induction targets generalizing t with
  | nil =>
    obtain ⟨-, rfl⟩ := pure_eq_ok_iff.1 h
    rfl
  | cons depth targets ih =>
    obtain ⟨ts, xs, rest, -, -, -, -, h⟩ := retargetAll_cons_eq_ok_iff.1 h
    have ht' := ih h
    exact ht'

/-- **The operands that are left for the last target fit all of them.** -/
theorem takes_of_retargetAll {targets : List Nat} {arity : Nat} {u : PUnit}
    (h : retargetAll arity targets t = .ok (u, t'))
    (hx : Takes t'.frame.isUnreachable t'.frame.operands xs rest) (hl : xs.length = arity) :
    Takes t.frame.isUnreachable t.frame.operands xs rest ∧
      ∀ depth ∈ targets, ∃ ts, t.labels[depth]? = some ts ∧ MatchAll xs (known ts) := by
  induction targets generalizing t with
  | nil =>
    obtain ⟨-, rfl⟩ := pure_eq_ok_iff.1 h
    exact ⟨hx, nofun⟩
  | cons depth targets ih =>
    obtain ⟨ts, ys, mid, hts, hlen, hys, hmid, h⟩ := retargetAll_cons_eq_ok_iff.1 h
    obtain ⟨hrest, hall⟩ := ih h
    obtain ⟨rfl, rfl⟩ := hrest.eq_of_push (by rw [hl, ← hlen, hys.length_eq, List.length_map])
    refine ⟨hmid, fun d hd => ?_⟩
    obtain rfl | hd := List.mem_cons.1 hd
    · exact ⟨ts, hts, hys⟩
    · exact hall d hd

theorem explained_of_brTable {targets : List Nat} {default : Nat} {u : Unit}
    (h : brTable targets default t = .ok (u, t')) :
    Explained c t (.brTable targets default) t' := by
  simp only [brTable_eq, bind_eq_ok_iff, discard_eq_ok_iff, expect_eq_ok_iff,
    labelTypes_eq_ok_iff, expectAll_eq_ok_iff, setUnreachable_eq_ok_iff] at h
  obtain ⟨_, _, ⟨x, hx, mid, hmid, rfl⟩, ts, _, ⟨hts, rfl⟩, _, t₁, hloop, ts', _, ⟨hts', rfl⟩, _, _,
    ⟨xs, hxs, rest, hrest, rfl⟩, rfl⟩ := h
  have ht₁ := withStack_of_retargetAll hloop
  rw [ht₁] at hts'
  obtain rfl : ts = ts' := Option.some.inj (hts.symm.trans hts')
  have hlen : xs.length = ts.length := by rw [hxs.length_eq, List.length_map]
  obtain ⟨htakes, hall⟩ := takes_of_retargetAll hloop hrest hlen
  rw [ht₁, Typing.withStack_withStack, Typing.withStack_withStack]
  refine explained_of_unreachable (takes_append_iff.2 ⟨mid, hmid, htakes⟩)
    (List.rel_append (MatchAll.refl xs) (.cons hx .nil)) fun below us => ?_
  rw [← List.append_assoc]
  refine .brTable (fun depth hd => ?_) below us
  obtain rfl | hd := List.mem_cons.1 hd
  · exact ⟨ts, hts, hxs⟩
  · exact hall depth hd

theorem explained_of_select {u : Unit} (h : select t = .ok (u, t')) :
    Explained c t (.select none) t' := by
  simp only [select, bind_eq_ok_iff, discard_eq_ok_iff, expect_eq_ok_iff, pop_eq_ok_iff,
    throw_bind, ite_throw_eq_ok_iff, push_eq_ok_iff] at h
  obtain ⟨_, _, ⟨i, hi, rest₁, h₁, rfl⟩, y, _, ⟨rest₂, h₂, rfl⟩, x, _, ⟨rest₃, h₃, rfl⟩, hxy, rfl⟩ := h
  have htakes : Takes t.frame.isUnreachable t.frame.operands [x, y, i] rest₃ :=
    takes_append_iff.2
      ⟨rest₂, takes_append_iff.2 ⟨rest₁, h₁, h₂⟩, h₃⟩
  refine explained_of_takes htakes ?_ (.select (y.or x))
  have hy : OperandType.Matches y (y.or x) := by
    cases y with
    | none => exact .inl rfl
    | some => exact .inr rfl
  have hx : OperandType.Matches x (y.or x) := by
    cases y with
    | none => exact .inr rfl
    | some y =>
      cases x with
      | none => exact .inl rfl
      | some x => exact .inr (by simpa [eq_comm] using hxy)
  exact .cons hx (.cons hy (.cons hi .nil))

/-- **A rule that succeeds is a declarative step.** -/
theorem explained_of_rule {u : Unit} (hi : i.IsPlain)
    (hm : i.NeedsMemory → c.module.memory.isSome = true)
    (h : instr.rule c s i.embed t = .ok (u, t')) : Explained c t i t' := by
  cases i with
  | block | loop | ifThen | elseMark | endMark => exact hi.elim
  | unreachable =>
    obtain rfl := setUnreachable_eq_ok_iff.1 h
    exact explained_of_unreachable (takes_nil_iff.2 rfl) .nil fun below us => .unreachable _ us
  | nop =>
    obtain ⟨-, rfl⟩ := pure_eq_ok_iff.1 h
    exact explained_of_takes (takes_nil_iff.2 rfl) .nil .nop
  | br depth =>
    simp only [Instr.map, instr.rule, bind_eq_ok_iff, labelTypes_eq_ok_iff, discard_eq_ok_iff,
      expectAll_eq_ok_iff, setUnreachable_eq_ok_iff] at h
    obtain ⟨ts, _, ⟨hts, rfl⟩, _, _, ⟨xs, hxs, rest, hrest, rfl⟩, rfl⟩ := h
    exact explained_of_unreachable hrest hxs fun below us => .br hts below us
  | brIf depth =>
    simp only [Instr.map, instr.rule, bind_eq_ok_iff, labelTypes_eq_ok_iff, discard_eq_ok_iff,
      expect_eq_ok_iff, expectAll_eq_ok_iff, pushTypes, pushAll_eq_ok_iff] at h
    obtain ⟨ts, _, ⟨hts, rfl⟩, _, _, ⟨x, hx, mid, hmid, rfl⟩, _, _, ⟨xs, hxs, rest, hrest, rfl⟩,
      rfl⟩ := h
    exact explained_of_takes (takes_append_iff.2 ⟨mid, hmid, hrest⟩)
      (List.rel_append hxs (.cons hx .nil)) (.brIf hts)
  | brTable targets default => exact explained_of_brTable h
  | ret =>
    simp only [Instr.map, instr.rule, bind_eq_ok_iff, discard_eq_ok_iff, expectAll_eq_ok_iff,
      setUnreachable_eq_ok_iff] at h
    obtain ⟨_, _, ⟨xs, hxs, rest, hrest, rfl⟩, rfl⟩ := h
    exact explained_of_unreachable hrest hxs fun below us => .ret below us
  | call func =>
    simp only [Instr.map, instr.rule, bind_eq_ok_iff, required_eq_ok_iff, discard_eq_ok_iff,
      expectAll_eq_ok_iff, pushTypes, pushAll_eq_ok_iff] at h
    obtain ⟨f, _, ⟨hf, rfl⟩, _, _, ⟨xs, hxs, rest, hrest, rfl⟩, rfl⟩ := h
    exact explained_of_takes hrest hxs (.call hf)
  | callIndirect type table =>
    simp only [Instr.map, instr.rule, throw_bind, ite_throw_eq_ok_iff, bind_eq_ok_iff, required_eq_ok_iff,
      discard_eq_ok_iff, expect_eq_ok_iff, expectAll_eq_ok_iff, pushTypes,
      pushAll_eq_ok_iff] at h
    obtain ⟨htable, sig, _, ⟨hsig, rfl⟩, _, _, ⟨x, hx, mid, hmid, rfl⟩, _, _,
      ⟨xs, hxs, rest, hrest, rfl⟩, rfl⟩ := h
    obtain ⟨hsome, rfl⟩ : c.module.table.isSome = true ∧ table = 0 := by
      simpa [not_or, Option.isSome_iff_ne_none] using htable
    exact explained_of_takes (takes_append_iff.2 ⟨mid, hmid, hrest⟩)
      (List.rel_append hxs (.cons hx .nil)) (.callIndirect hsome hsig)
  | drop =>
    simp only [Instr.map, instr.rule, discard_eq_ok_iff, pop_eq_ok_iff] at h
    obtain ⟨x, rest, hrest, rfl⟩ := h
    exact explained_of_takes hrest (MatchAll.refl _) (.drop x)
  | select type =>
    cases type with
    | none => exact explained_of_select h
    | some ty =>
      simp only [Instr.map, instr.rule, bind_eq_ok_iff, discard_eq_ok_iff, expectAll_eq_ok_iff,
        push_eq_ok_iff] at h
      obtain ⟨_, _, ⟨xs, hxs, rest, hrest, rfl⟩, rfl⟩ := h
      exact explained_of_takes hrest hxs (.selectType ty)
  | localGet index =>
    simp only [Instr.map, instr.rule, bind_eq_ok_iff, required_eq_ok_iff, push_eq_ok_iff] at h
    obtain ⟨ty, _, ⟨hty, rfl⟩, rfl⟩ := h
    exact explained_of_takes (takes_nil_iff.2 rfl) .nil (.localGet hty)
  | localSet index =>
    simp only [Instr.map, instr.rule, bind_eq_ok_iff, required_eq_ok_iff, discard_eq_ok_iff,
      expect_eq_ok_iff] at h
    obtain ⟨ty, _, ⟨hty, rfl⟩, x, hx, rest, hrest, rfl⟩ := h
    exact explained_of_takes hrest (.cons hx .nil) (.localSet hty)
  | localTee index =>
    simp only [Instr.map, instr.rule, bind_eq_ok_iff, required_eq_ok_iff, discard_eq_ok_iff,
      expect_eq_ok_iff, push_eq_ok_iff] at h
    obtain ⟨ty, _, ⟨hty, rfl⟩, _, _, ⟨x, hx, rest, hrest, rfl⟩, rfl⟩ := h
    exact explained_of_takes hrest (.cons hx .nil) (.localTee hty)
  | globalGet index =>
    simp only [Instr.map, instr.rule, bind_eq_ok_iff, required_eq_ok_iff, push_eq_ok_iff] at h
    obtain ⟨g, _, ⟨hg, rfl⟩, rfl⟩ := h
    exact explained_of_takes (takes_nil_iff.2 rfl) .nil (.globalGet hg)
  | globalSet index =>
    simp only [Instr.map, instr.rule, bind_eq_ok_iff, required_eq_ok_iff, throw_bind,
      ite_else_throw_eq_ok_iff, discard_eq_ok_iff, expect_eq_ok_iff] at h
    obtain ⟨g, _, ⟨hg, rfl⟩, hmut, x, hx, rest, hrest, rfl⟩ := h
    exact explained_of_takes hrest (.cons hx .nil) (.globalSet hg hmut)
  | load op arg =>
    simp only [Instr.map, instr.rule, throw_bind, ite_throw_eq_ok_iff, bind_eq_ok_iff, discard_eq_ok_iff,
      expect_eq_ok_iff, push_eq_ok_iff] at h
    obtain ⟨halign, _, _, ⟨x, hx, rest, hrest, rfl⟩, rfl⟩ := h
    exact explained_of_takes hrest (.cons hx .nil) (.load (hm trivial) (Nat.le_of_not_lt halign))
  | store op arg =>
    simp only [Instr.map, instr.rule, throw_bind, ite_throw_eq_ok_iff, discard_eq_ok_iff,
      expectAll_eq_ok_iff] at h
    obtain ⟨halign, xs, hxs, rest, hrest, rfl⟩ := h
    exact explained_of_takes hrest hxs (.store (hm trivial) (Nat.le_of_not_lt halign))
  | memorySize =>
    obtain rfl := push_eq_ok_iff.1 h
    exact explained_of_takes (takes_nil_iff.2 rfl) .nil (.memorySize (hm trivial))
  | memoryGrow =>
    simp only [Instr.map, instr.rule, bind_eq_ok_iff, discard_eq_ok_iff, expect_eq_ok_iff,
      push_eq_ok_iff] at h
    obtain ⟨_, _, ⟨x, hx, rest, hrest, rfl⟩, rfl⟩ := h
    exact explained_of_takes hrest (.cons hx .nil) (.memoryGrow (hm trivial))
  | memoryCopy =>
    simp only [Instr.map, instr.rule, discard_eq_ok_iff, expectAll_eq_ok_iff] at h
    obtain ⟨xs, hxs, rest, hrest, rfl⟩ := h
    exact explained_of_takes hrest hxs (.memoryCopy (hm trivial))
  | memoryFill =>
    simp only [Instr.map, instr.rule, discard_eq_ok_iff, expectAll_eq_ok_iff] at h
    obtain ⟨xs, hxs, rest, hrest, rfl⟩ := h
    exact explained_of_takes hrest hxs (.memoryFill (hm trivial))
  | const v =>
    obtain rfl := push_eq_ok_iff.1 h
    exact explained_of_takes (takes_nil_iff.2 rfl) .nil (.const v)
  | numeric op =>
    simp only [Instr.map, instr.rule, bind_eq_ok_iff, discard_eq_ok_iff, expectAll_eq_ok_iff,
      push_eq_ok_iff] at h
    obtain ⟨_, _, ⟨xs, hxs, rest, hrest, rfl⟩, rfl⟩ := h
    exact explained_of_takes hrest hxs (.numeric op)

/-! ## From the rules to the checker -/

/-- Whether the checker passes an instruction and the frame covers the operands `us` afterwards. -/
def Checkable (c : CodeContext) (s : InstrSpan) (t : Typing) (i : Instr Empty)
    (us : List OperandType) : Prop :=
  ∃ held dead, instr.rule c s i.embed t = .ok ((), t.withStack held dead) ∧ Covers dead held us

theorem retargetAll_of_covers {targets : List Nat} {below ys : List OperandType}
    (hc : Covers t.frame.isUnreachable t.frame.operands (below ++ ys))
    (h : ∀ depth ∈ targets, ∃ ts, t.labels[depth]? = some ts ∧ MatchAll ys (known ts)) :
    ∃ held, retargetAll ys.length targets t = .ok (⟨⟩, t.withStack held t.frame.isUnreachable) ∧
      Covers t.frame.isUnreachable held (below ++ ys) := by
  induction targets generalizing t with
  | nil => exact ⟨t.frame.operands, rfl, hc⟩
  | cons depth targets ih =>
    obtain ⟨ts, hts, hys⟩ := h depth List.mem_cons_self
    obtain ⟨xs, rest, hrest, hxs, hc'⟩ := hc.takes
    have hlen : ts.length = ys.length := by rw [hys.length_eq, List.length_map]
    obtain ⟨held, hloop, hcov⟩ := ih (t := t.withStack (xs.reverse ++ rest) t.frame.isUnreachable)
      (hc'.push hxs) fun d hd => h d (List.mem_cons_of_mem depth hd)
    exact ⟨held, retargetAll_cons_eq_ok_iff.2
      ⟨ts, xs, rest, hts, hlen, hxs.trans hys, hrest, hloop⟩, hcov⟩

theorem checkable_of_takes (hc : Covers t.frame.isUnreachable rest ts)
    (h : instr.rule c s i.embed t
      = .ok ((), t.withStack (xs.reverse ++ rest) t.frame.isUnreachable))
    (hm : MatchAll xs qs) : Checkable c s t i (ts ++ qs) :=
  ⟨_, _, h, hc.push hm⟩

theorem checkable_brTable {targets : List Nat} {default : Nat} {below ys ps us : List OperandType}
    (hall : ∀ depth ∈ default :: targets,
      ∃ ts, t.labels[depth]? = some ts ∧ MatchAll ys (known ts))
    (hc : Covers t.frame.isUnreachable t.frame.operands (below ++ (ps ++ ys ++ [some .i32]))) :
    Checkable c s t (.brTable targets default) us := by
  rw [← List.append_assoc, ← List.append_assoc] at hc
  obtain ⟨zs, mid, hmid, hz, hc₁⟩ := hc.takes
  obtain ⟨x, hx, rfl⟩ := matchAll_singleton hz
  obtain ⟨ts, hts, hys⟩ := hall default List.mem_cons_self
  have hlen : ts.length = ys.length := by rw [hys.length_eq, List.length_map]
  obtain ⟨held, hloop, hc₂⟩ := retargetAll_of_covers (t := t.withStack mid t.frame.isUnreachable)
    hc₁ fun d hd => hall d (List.mem_cons_of_mem default hd)
  obtain ⟨xs, rest, hrest, hxs, -⟩ := hc₂.takes
  refine ⟨[], true, ?_, covers_unreachable us⟩
  simp only [Instr.map, instr.rule, brTable_eq, bind_eq_ok_iff, discard_eq_ok_iff, expect_eq_ok_iff,
    labelTypes_eq_ok_iff, expectAll_eq_ok_iff, setUnreachable_eq_ok_iff]
  rw [← hlen] at hloop
  exact ⟨(), _, ⟨x, hx, mid, hmid, rfl⟩, ts, _, ⟨hts, rfl⟩, ⟨⟩, t.withStack held t.frame.isUnreachable,
    hloop, ts, _, ⟨hts, rfl⟩, (), _, ⟨xs, hxs.trans hys, rest, hrest, rfl⟩, rfl⟩

theorem checkable_select {ty : OperandType} {below : List OperandType}
    (hc : Covers t.frame.isUnreachable t.frame.operands (below ++ [ty, ty, some .i32])) :
    Checkable c s t (.select none) (below ++ [ty]) := by
  obtain ⟨zs, rest, hrest, hz, hc'⟩ := hc.takes
  obtain ⟨x, y, i, hx, hy, hi, rfl⟩ : ∃ x y i, OperandType.Matches x ty ∧
      OperandType.Matches y ty ∧ OperandType.Matches i (some .i32) ∧ zs = [x, y, i] := by
    rcases hz with _ | ⟨hx, _ | ⟨hy, _ | ⟨hi, _ | _⟩⟩⟩
    exact ⟨_, _, _, hx, hy, hi, rfl⟩
  rw [← List.singleton_append, takes_append_iff] at hrest
  obtain ⟨mid₂, hmid₂, h₃⟩ := hrest
  rw [← List.singleton_append, takes_append_iff] at hmid₂
  obtain ⟨mid₁, h₁, h₂⟩ := hmid₂
  have hxy : ¬(y.isSome = true ∧ x.isSome = true ∧ y ≠ x) := by
    rintro ⟨hy', hx', hne⟩
    rcases hx with rfl | rfl
    · exact absurd hx' nofun
    · rcases hy with rfl | rfl
      · exact absurd hy' nofun
      · exact hne rfl
  have hor : OperandType.Matches (y.or x) ty := by
    cases y with
    | none => exact hx
    | some => exact hy
  refine checkable_of_takes hc' ?_ (.cons hor .nil)
  simp only [Instr.map, instr.rule, select, bind_eq_ok_iff, discard_eq_ok_iff, expect_eq_ok_iff,
    pop_eq_ok_iff, throw_bind, ite_throw_eq_ok_iff, push_eq_ok_iff]
  exact ⟨(), _, ⟨i, hi, mid₁, h₁, rfl⟩, y, _, ⟨mid₂, h₂, rfl⟩, x, _, ⟨rest, h₃, rfl⟩, hxy, rfl⟩

/-- **A declarative step can be checked.** -/
theorem checkable_of_stepsTo (hc : Covers t.frame.isUnreachable t.frame.operands ts)
    (h : StepsTo c t.labels i ts us) : Checkable c s t i us := by
  obtain ⟨below, xs, ps, qs, rfl, hm, ha, rfl⟩ := h
  have hc := hc.mono (List.rel_append (MatchAll.refl below) hm)
  obtain ⟨zs, rest, hrest, hzp, hc'⟩ := hc.takes
  cases ha with
  | unreachable => exact ⟨[], true, setUnreachable_eq_ok_iff.2 rfl, covers_unreachable _⟩
  | nop => exact ⟨_, _, rfl, hc⟩
  | @br depth ts hts ps qs =>
    obtain ⟨ys, xs, rfl, -, hxs⟩ := MatchAll.split hzp
    obtain ⟨mid, hmid, -⟩ := takes_append_iff.1 hrest
    refine ⟨[], true, ?_, covers_unreachable _⟩
    simp only [Instr.map, instr.rule, bind_eq_ok_iff, labelTypes_eq_ok_iff, discard_eq_ok_iff,
      expectAll_eq_ok_iff, setUnreachable_eq_ok_iff]
    exact ⟨ts, _, ⟨hts, rfl⟩, (), _, ⟨xs, hxs, mid, hmid, rfl⟩, rfl⟩
  | @brIf depth ts hts =>
    obtain ⟨xs, ys, rfl, hxs, hys⟩ := MatchAll.split hzp
    obtain ⟨x, hx, rfl⟩ := matchAll_singleton hys
    obtain ⟨mid, hmid, hrest⟩ := takes_append_iff.1 hrest
    refine checkable_of_takes hc' ?_ (MatchAll.refl _)
    simp only [Instr.map, instr.rule, bind_eq_ok_iff, labelTypes_eq_ok_iff, discard_eq_ok_iff,
      expect_eq_ok_iff, expectAll_eq_ok_iff, pushTypes, pushAll_eq_ok_iff]
    exact ⟨ts, _, ⟨hts, rfl⟩, (), _, ⟨x, hx, mid, hmid, rfl⟩, (), _, ⟨xs, hxs, rest, hrest, rfl⟩, rfl⟩
  | brTable h ps qs => exact checkable_brTable h hc
  | ret ps qs =>
    obtain ⟨ys, xs, rfl, -, hxs⟩ := MatchAll.split hzp
    obtain ⟨mid, hmid, -⟩ := takes_append_iff.1 hrest
    refine ⟨[], true, ?_, covers_unreachable _⟩
    simp only [Instr.map, instr.rule, bind_eq_ok_iff, discard_eq_ok_iff, expectAll_eq_ok_iff,
      setUnreachable_eq_ok_iff]
    exact ⟨(), _, ⟨xs, hxs, mid, hmid, rfl⟩, rfl⟩
  | @call func f hf =>
    refine checkable_of_takes hc' ?_ (MatchAll.refl _)
    simp only [Instr.map, instr.rule, bind_eq_ok_iff, required_eq_ok_iff, discard_eq_ok_iff,
      expectAll_eq_ok_iff, pushTypes, pushAll_eq_ok_iff]
    exact ⟨f, _, ⟨hf, rfl⟩, (), _, ⟨zs, hzp, rest, hrest, rfl⟩, rfl⟩
  | @callIndirect type sig htable hsig =>
    obtain ⟨xs, ys, rfl, hxs, hys⟩ := MatchAll.split hzp
    obtain ⟨x, hx, rfl⟩ := matchAll_singleton hys
    obtain ⟨mid, hmid, hrest⟩ := takes_append_iff.1 hrest
    have hcond : ¬(c.module.table.isNone = true ∨ 0 ≠ 0) := by
      simpa [Option.isSome_iff_ne_none] using htable
    refine checkable_of_takes hc' ?_ (MatchAll.refl _)
    simp only [Instr.map, instr.rule, throw_bind, ite_throw_eq_ok_iff, bind_eq_ok_iff,
      required_eq_ok_iff, discard_eq_ok_iff, expect_eq_ok_iff, expectAll_eq_ok_iff, pushTypes,
      pushAll_eq_ok_iff]
    exact ⟨hcond, sig, _, ⟨hsig, rfl⟩, (), _, ⟨x, hx, mid, hmid, rfl⟩, (), _,
      ⟨xs, hxs, rest, hrest, rfl⟩, rfl⟩
  | drop ty =>
    obtain ⟨x, hx, rfl⟩ := matchAll_singleton hzp
    refine checkable_of_takes hc' ?_ .nil
    simp only [Instr.map, instr.rule, discard_eq_ok_iff, pop_eq_ok_iff]
    exact ⟨x, rest, hrest, rfl⟩
  | select ty => exact checkable_select hc
  | selectType ty =>
    refine checkable_of_takes hc' ?_ (MatchAll.refl _)
    simp only [Instr.map, instr.rule, bind_eq_ok_iff, discard_eq_ok_iff, expectAll_eq_ok_iff,
      push_eq_ok_iff]
    exact ⟨(), _, ⟨zs, hzp, rest, hrest, rfl⟩, rfl⟩
  | @localGet index ty hty =>
    obtain rfl := List.forall₂_nil_right_iff.1 hzp
    obtain rfl := takes_nil_iff.1 hrest
    refine checkable_of_takes hc' ?_ (MatchAll.refl _)
    simp only [Instr.map, instr.rule, bind_eq_ok_iff, required_eq_ok_iff, push_eq_ok_iff]
    exact ⟨ty, _, ⟨hty, rfl⟩, rfl⟩
  | @localSet index ty hty =>
    obtain ⟨x, hx, rfl⟩ := matchAll_singleton hzp
    refine checkable_of_takes hc' ?_ .nil
    simp only [Instr.map, instr.rule, bind_eq_ok_iff, required_eq_ok_iff, discard_eq_ok_iff,
      expect_eq_ok_iff]
    exact ⟨ty, _, ⟨hty, rfl⟩, x, hx, rest, hrest, rfl⟩
  | @localTee index ty hty =>
    obtain ⟨x, hx, rfl⟩ := matchAll_singleton hzp
    refine checkable_of_takes hc' ?_ (MatchAll.refl _)
    simp only [Instr.map, instr.rule, bind_eq_ok_iff, required_eq_ok_iff, discard_eq_ok_iff,
      expect_eq_ok_iff, push_eq_ok_iff]
    exact ⟨ty, _, ⟨hty, rfl⟩, (), _, ⟨x, hx, rest, hrest, rfl⟩, rfl⟩
  | @globalGet index g hg =>
    obtain rfl := List.forall₂_nil_right_iff.1 hzp
    obtain rfl := takes_nil_iff.1 hrest
    refine checkable_of_takes hc' ?_ (MatchAll.refl _)
    simp only [Instr.map, instr.rule, bind_eq_ok_iff, required_eq_ok_iff, push_eq_ok_iff]
    exact ⟨g, _, ⟨hg, rfl⟩, rfl⟩
  | @globalSet index g hg hmut =>
    obtain ⟨x, hx, rfl⟩ := matchAll_singleton hzp
    refine checkable_of_takes hc' ?_ .nil
    simp only [Instr.map, instr.rule, bind_eq_ok_iff, required_eq_ok_iff, throw_bind,
      ite_else_throw_eq_ok_iff, discard_eq_ok_iff, expect_eq_ok_iff]
    exact ⟨g, _, ⟨hg, rfl⟩, hmut, x, hx, rest, hrest, rfl⟩
  | load hmem halign =>
    obtain ⟨x, hx, rfl⟩ := matchAll_singleton hzp
    refine checkable_of_takes hc' ?_ (MatchAll.refl _)
    simp only [Instr.map, instr.rule, throw_bind, ite_throw_eq_ok_iff, bind_eq_ok_iff,
      discard_eq_ok_iff, expect_eq_ok_iff, push_eq_ok_iff]
    exact ⟨Nat.not_lt.2 halign, (), _, ⟨x, hx, rest, hrest, rfl⟩, rfl⟩
  | store hmem halign =>
    refine checkable_of_takes hc' ?_ .nil
    simp only [Instr.map, instr.rule, throw_bind, ite_throw_eq_ok_iff, discard_eq_ok_iff,
      expectAll_eq_ok_iff]
    exact ⟨Nat.not_lt.2 halign, zs, hzp, rest, hrest, rfl⟩
  | memorySize hmem =>
    obtain rfl := List.forall₂_nil_right_iff.1 hzp
    obtain rfl := takes_nil_iff.1 hrest
    exact checkable_of_takes hc' (push_eq_ok_iff.2 rfl) (MatchAll.refl _)
  | memoryGrow hmem =>
    obtain ⟨x, hx, rfl⟩ := matchAll_singleton hzp
    refine checkable_of_takes hc' ?_ (MatchAll.refl _)
    simp only [Instr.map, instr.rule, bind_eq_ok_iff, discard_eq_ok_iff, expect_eq_ok_iff,
      push_eq_ok_iff]
    exact ⟨(), _, ⟨x, hx, rest, hrest, rfl⟩, rfl⟩
  | memoryCopy hmem =>
    refine checkable_of_takes hc' ?_ .nil
    simp only [Instr.map, instr.rule, discard_eq_ok_iff, expectAll_eq_ok_iff]
    exact ⟨zs, hzp, rest, hrest, rfl⟩
  | memoryFill hmem =>
    refine checkable_of_takes hc' ?_ .nil
    simp only [Instr.map, instr.rule, discard_eq_ok_iff, expectAll_eq_ok_iff]
    exact ⟨zs, hzp, rest, hrest, rfl⟩
  | const v =>
    obtain rfl := List.forall₂_nil_right_iff.1 hzp
    obtain rfl := takes_nil_iff.1 hrest
    exact checkable_of_takes hc' (push_eq_ok_iff.2 rfl) (MatchAll.refl _)
  | numeric op =>
    refine checkable_of_takes hc' ?_ (MatchAll.refl _)
    simp only [Instr.map, instr.rule, bind_eq_ok_iff, discard_eq_ok_iff, expectAll_eq_ok_iff,
      push_eq_ok_iff]
    exact ⟨(), _, ⟨zs, hzp, rest, hrest, rfl⟩, rfl⟩

end Check

end WasmEngine
