import WasmEngine.Proofs.Typing.Trace

/-!
# Proofs/Typing/Code — the checker decides the type system

A run of the checker along code is a derivation of the declarative type system for the operands that
its frames describe: `Passes.exists_hasType`, and from a derivation comes a run:
`exists_passes_of_hasType`.
-/

namespace WasmEngine

variable {c : CodeContext} {w : Window} {p q : Nat} {t t' : Typing} {code : Code}
  {entries : List (Nat × BlockJump)} {labels : LabelTypes} {ts us vs : List OperandType}

/-- Operands that code leaves may be taken for ones that they match. -/
theorem CodeContext.HasType.mono (h : c.HasType labels code ts us) (hm : MatchAll us vs) :
    c.HasType labels code ts vs := by
  induction h with
  | nil h => exact .nil (h.trans hm)
  | plain h₁ hp _ ih => exact .plain h₁ hp (ih hm)
  | block hs hb hp _ _ ih => exact .block hs hb hp (ih hm)
  | loop hs hb hp _ _ ih => exact .loop hs hb hp (ih hm)
  | ifThen hs heq hb hp _ _ ih => exact .ifThen hs heq hb hp (ih hm)
  | ifElse hs hb hb' hp _ _ _ ih => exact .ifElse hs hb hb' hp (ih hm)

/-! ## From a run to a derivation -/

theorem Admits.eq_of_reachable {held : List OperandType} (h : Admits false held ts) :
    ts = held.reverse := by
  obtain ⟨below, rfl, hb⟩ := h
  rw [hb rfl, List.nil_append]

/-- The operands that finish a block are admitted by its frame. -/
theorem Check.Finishes.admits (h : Check.Finishes t) :
    ∃ xs, Admits t.frame.isUnreachable t.frame.operands xs ∧
      MatchAll xs (known t.frame.type.results) := by
  obtain ⟨xs, hxs, htakes⟩ := h
  exact ⟨xs, htakes.admits (admits_self _ []), hxs⟩

/-- A run along the body of a block that finishes it types the body as the block says. -/
theorem Check.Finishes.hasType {params : List ValType} (hf : Check.Finishes t)
    (h : ∀ {us}, Admits t.frame.isUnreachable t.frame.operands us →
      ∃ ts, Admits false (known params).reverse ts ∧ c.HasType labels code ts us) :
    c.HasType labels code (known params) (known t.frame.type.results) := by
  obtain ⟨ys, hys, hres⟩ := hf.admits
  obtain ⟨ts, hts, hbody⟩ := h hys
  obtain rfl : ts = known params := hts.eq_of_reachable.trans (List.reverse_reverse _)
  exact hbody.mono hres

/-- **What a run goes along is well typed**: whatever operands the frame admits at the end come from
operands that it admitted at the beginning. -/
theorem Passes.exists_hasType (hw : w.stop ≤ w.bytes.size) (h : Passes c w p t code q t' entries)
    (hus : Admits t'.frame.isUnreachable t'.frame.operands us) :
    ∃ ts, Admits t.frame.isUnreachable t.frame.operands ts ∧ c.HasType t.labels code ts us := by
  induction h generalizing us with
  | nil => exact ⟨us, hus, .nil (.refl us)⟩
  | plain hi hr hc _ ih =>
    obtain ⟨ts₁, hts₁, hrest⟩ := ih hus
    obtain ⟨held, dead, rfl, hback⟩ := Check.explained_of_rule hi (hr.needsMemory hw) hc
    obtain ⟨_, hts, below, xs, ps, qs, rfl, hm, ha, rfl⟩ := hback ts₁ hts₁
    exact ⟨_, hts, .plain ha hm hrest⟩
  | block hr ho hbody hr' he _ ihb ih =>
    obtain ⟨ts₃, hts₃, hrest⟩ := ih hus
    obtain ⟨held, dead, hb⟩ := hbody.exists_withStack hw
    obtain ⟨sig, xs, rest, hsig, hxs, htakes, rfl, hf, -, -, rfl⟩ := block_of_eq_ok ho hb he
    subst hb
    obtain ⟨below, rfl, hbelow⟩ := hts₃.push
    rw [Check.openingTypes_of_ne .block sig nofun] at hxs
    exact ⟨below ++ xs, htakes.admits hbelow, .block hsig (hf.hasType ihb) hxs hrest⟩
  | loop hr ho hbody hr' he _ ihb ih =>
    obtain ⟨ts₃, hts₃, hrest⟩ := ih hus
    obtain ⟨held, dead, hb⟩ := hbody.exists_withStack hw
    obtain ⟨sig, xs, rest, hsig, hxs, htakes, rfl, hf, -, -, rfl⟩ := block_of_eq_ok ho hb he
    subst hb
    obtain ⟨below, rfl, hbelow⟩ := hts₃.push
    rw [Check.openingTypes_of_ne .loop sig nofun] at hxs
    exact ⟨below ++ xs, htakes.admits hbelow, .loop hsig (hf.hasType ihb) hxs hrest⟩
  | ifThen hr ho hbody hr' he _ ihb ih =>
    obtain ⟨ts₃, hts₃, hrest⟩ := ih hus
    obtain ⟨held, dead, hb⟩ := hbody.exists_withStack hw
    obtain ⟨sig, xs, rest, hsig, hxs, htakes, rfl, hf, heq, -, rfl⟩ := block_of_eq_ok ho hb he
    subst hb
    obtain ⟨below, rfl, hbelow⟩ := hts₃.push
    exact ⟨below ++ xs, htakes.admits hbelow, .ifThen hsig (heq rfl) (hf.hasType ihb) hxs hrest⟩
  | ifElse hr ho hbody hr' hm hbody' hr'' he _ ihb ihb' ih =>
    obtain ⟨ts₅, hts₅, hrest⟩ := ih hus
    obtain ⟨held, dead, hb⟩ := hbody.exists_withStack hw
    obtain ⟨held', dead', hb'⟩ := hbody'.exists_withStack hw
    obtain ⟨sig, xs, rest, hsig, hxs, htakes, rfl, hf, rfl, hf', -, rfl⟩ :=
      ifElse_of_eq_ok ho hb hm hb' he
    subst hb hb'
    obtain ⟨below, rfl, hbelow⟩ := hts₅.push
    exact ⟨below ++ xs, htakes.admits hbelow,
      .ifElse hsig (hf.hasType ihb) (hf'.hasType ihb') hxs hrest⟩

/-! ## From a derivation to a run -/

theorem covers_openingFrame (s : InstrSpan) (kind : BlockKind) (sig : Signature) :
    Covers (Check.openingFrame s kind sig).isUnreachable (Check.openingFrame s kind sig).operands
      (known sig.params) :=
  Admits.covers ⟨[], by simp [Check.openingFrame], fun _ => rfl⟩

/-- A frame that covers the results of its block can be closed. -/
theorem Check.finishes_of_covers (h : Covers t.frame.isUnreachable t.frame.operands
    (known t.frame.type.results)) : Check.Finishes t := by
  obtain ⟨xs, rest, htakes, hxs, hrest⟩ :=
    Covers.takes (List.nil_append (known t.frame.type.results) ▸ h)
  obtain ⟨us, ⟨below, rfl, -⟩, hnil⟩ := hrest
  have hempty := List.forall₂_nil_right_iff.1 hnil
  obtain rfl : rest = [] := List.reverse_eq_nil_iff.1 (List.append_eq_nil_iff.1 hempty).2
  exact ⟨xs, hxs, htakes⟩

theorem HasArrow.hasMemory {i : Instr Empty} {ps qs : List OperandType}
    (h : HasArrow c labels i ps qs) (hm : i.NeedsMemory) : c.module.memory.isSome = true := by
  cases h with
  | load h | store h | memorySize h | memoryGrow h | memoryCopy h | memoryFill h => exact h
  | _ => exact hm.elim

theorem reads_of_encodes {i : Instr BlockType} {bs : List UInt8} (hw : w.stop ≤ w.bytes.size)
    (hs : w.Spells p bs q) (he : i.Encodes bs)
    (hm : i.NeedsMemory → c.module.memory.isSome = true) : c.Reads w p i q :=
  (Instr.accepts_read _ hw).2 ⟨bs, hs, he, hm⟩

theorem openBlock_of_covers {type : BlockType} {sig : Signature} {below xs : List OperandType}
    (s : InstrSpan) (kind : BlockKind) (hsig : c.signature? type = some sig)
    (hc : Covers t.frame.isUnreachable t.frame.operands (below ++ xs))
    (hp : MatchAll xs (Check.openingTypes kind sig)) :
    ∃ rest, Check.openBlock c s kind type t = .ok ((), Check.opened s kind sig t rest) ∧
      Covers t.frame.isUnreachable rest below := by
  obtain ⟨zs, rest, hrest, hz, hc'⟩ := hc.takes
  exact ⟨rest, Check.openBlock_eq_ok_iff.2 ⟨sig, zs, rest, hsig, hz.trans hp, hrest, rfl⟩, hc'⟩

theorem exists_nested {b₁ b₂ b₃ : List UInt8} {mark : Instr BlockType} {b : UInt8}
    (hw : w.stop ≤ w.bytes.size) (hb : mark.Encodes [b]) (hm : ¬mark.NeedsMemory)
    (hs : w.Spells p (b₁ ++ (b₂ ++ (b :: b₃))) q) :
    ∃ p₁ p₂ p₃, w.Spells p b₁ p₁ ∧ w.Spells p₁ b₂ p₂ ∧ c.Reads w p₂ mark p₃ ∧
      w.Spells p₃ b₃ q := by
  obtain ⟨p₁, hs₁, hs⟩ := Window.spells_append.1 hs
  obtain ⟨p₂, hs₂, hs⟩ := Window.spells_append.1 hs
  obtain ⟨hbyte, hs₃⟩ := Window.spells_cons.1 hs
  exact ⟨p₁, p₂, p₂ + 1, hs₁, hs₂,
    reads_of_encodes hw (Window.spells_singleton.2 ⟨hbyte, rfl⟩) hb fun h => absurd h hm, hs₃⟩

/-- **Well-typed code can be gone along** from any frame that covers the operands that it takes. -/
theorem exists_passes_of_hasType (hw : w.stop ≤ w.bytes.size) {bs : List UInt8}
    (h : c.HasType labels code ts us) (he : code.Encodes bs) (hs : w.Spells p bs q)
    (hl : t.labels = labels) (hc : Covers t.frame.isUnreachable t.frame.operands ts) :
    ∃ t' entries, Passes c w p t code q t' entries ∧
      Covers t'.frame.isUnreachable t'.frame.operands us := by
  induction h generalizing t bs p q with
  | nil hm =>
    cases he
    obtain rfl : q = p := hs
    exact ⟨t, [], .nil, hc.mono hm⟩
  | @plain labels i rest xs ts ps qs us ha hp _ ih =>
    subst hl
    cases he with
    | plain hi he₁ he₂ =>
    obtain ⟨p₁, hs₁, hs₂⟩ := Window.spells_append.1 hs
    have hr : c.Reads w p i.embed p₁ := reads_of_encodes hw hs₁ he₁ fun hm =>
      ha.hasMemory (Instr.needsMemory_map.1 hm)
    obtain ⟨held, dead, hrule, hc₁⟩ := Check.checkable_of_stepsTo (s := ⟨p, p₁⟩) hc
      ⟨xs, ts, ps, qs, rfl, hp, ha, rfl⟩
    obtain ⟨t', entries, hrest, hcov⟩ := ih (t := t.withStack held dead) he₂ hs₂ rfl hc₁
    exact ⟨t', entries, .plain hi hr hrule hrest, hcov⟩
  | @block labels type sig body rest xs ts us hsig _ hp _ ihb ih =>
    subst hl
    cases he with
    | block he₁ he₂ he₃ =>
    obtain ⟨p₁, q₁, q₂, hs₁, hs₂, hr', hs₃⟩ := exists_nested (c := c) hw .endMark nofun hs
    have hr : c.Reads w p (.block type) p₁ := reads_of_encodes hw hs₁ he₁ nofun
    rw [← Check.openingTypes_of_ne .block sig nofun] at hp
    obtain ⟨held, ho, hheld⟩ := openBlock_of_covers ⟨p, p₁⟩ .block hsig hc hp
    obtain ⟨t₂, e₁, hbody, hc₂⟩ := ihb (t := Check.opened ⟨p, p₁⟩ .block sig t held) he₂ hs₂ rfl
      (covers_openingFrame ..)
    obtain ⟨held₂, dead₂, rfl⟩ := hbody.exists_withStack hw
    have hend := (Check.endMark_block_eq_ok_iff (s := ⟨q₁, q₂⟩) rfl).2
      ⟨Check.finishes_of_covers hc₂, nofun, rfl, rfl⟩
    obtain ⟨t', e₂, hrest, hcov⟩ := ih
      (t := t.withStack ((known sig.results).reverse ++ held) t.frame.isUnreachable) he₃ hs₃ rfl
      (hheld.push (MatchAll.refl _))
    exact ⟨t', _, .block hr ho hbody hr' hend hrest, hcov⟩
  | @loop labels type sig body rest xs ts us hsig _ hp _ ihb ih =>
    subst hl
    cases he with
    | loop he₁ he₂ he₃ =>
    obtain ⟨p₁, q₁, q₂, hs₁, hs₂, hr', hs₃⟩ := exists_nested (c := c) hw .endMark nofun hs
    have hr : c.Reads w p (.loop type) p₁ := reads_of_encodes hw hs₁ he₁ nofun
    rw [← Check.openingTypes_of_ne .loop sig nofun] at hp
    obtain ⟨held, ho, hheld⟩ := openBlock_of_covers ⟨p, p₁⟩ .loop hsig hc hp
    obtain ⟨t₂, e₁, hbody, hc₂⟩ := ihb (t := Check.opened ⟨p, p₁⟩ .loop sig t held) he₂ hs₂ rfl
      (covers_openingFrame ..)
    obtain ⟨held₂, dead₂, rfl⟩ := hbody.exists_withStack hw
    have hend := (Check.endMark_block_eq_ok_iff (s := ⟨q₁, q₂⟩) rfl).2
      ⟨Check.finishes_of_covers hc₂, nofun, rfl, rfl⟩
    obtain ⟨t', e₂, hrest, hcov⟩ := ih
      (t := t.withStack ((known sig.results).reverse ++ held) t.frame.isUnreachable) he₃ hs₃ rfl
      (hheld.push (MatchAll.refl _))
    exact ⟨t', _, .loop hr ho hbody hr' hend hrest, hcov⟩
  | @ifThen labels type sig body rest xs ts us hsig heq _ hp _ ihb ih =>
    subst hl
    cases he with
    | ifThen he₁ he₂ he₃ =>
    obtain ⟨p₁, q₁, q₂, hs₁, hs₂, hr', hs₃⟩ := exists_nested (c := c) hw .endMark nofun hs
    have hr : c.Reads w p (.ifThen type) p₁ := reads_of_encodes hw hs₁ he₁ nofun
    obtain ⟨held, ho, hheld⟩ := openBlock_of_covers ⟨p, p₁⟩ .ifThen hsig hc hp
    obtain ⟨t₂, e₁, hbody, hc₂⟩ := ihb (t := Check.opened ⟨p, p₁⟩ .ifThen sig t held) he₂ hs₂ rfl
      (covers_openingFrame ..)
    obtain ⟨held₂, dead₂, rfl⟩ := hbody.exists_withStack hw
    have hend := (Check.endMark_block_eq_ok_iff (s := ⟨q₁, q₂⟩) rfl).2
      ⟨Check.finishes_of_covers hc₂, fun _ => heq, rfl, rfl⟩
    obtain ⟨t', e₂, hrest, hcov⟩ := ih
      (t := t.withStack ((known sig.results).reverse ++ held) t.frame.isUnreachable) he₃ hs₃ rfl
      (hheld.push (MatchAll.refl _))
    exact ⟨t', _, .ifThen hr ho hbody hr' hend hrest, hcov⟩
  | @ifElse labels type sig thenBody elseBody rest xs ts us hsig _ _ hp _ ihb ihb' ih =>
    subst hl
    cases he with
    | ifElse he₁ he₂ he₃ he₄ =>
    obtain ⟨p₁, q₁, q₂, hs₁, hs₂, hr', hs⟩ := exists_nested (c := c) hw .elseMark nofun hs
    obtain ⟨q₃, hs₃, hs⟩ := Window.spells_append.1 hs
    obtain ⟨hbyte, hs₄⟩ := Window.spells_cons.1 hs
    have hr : c.Reads w p (.ifThen type) p₁ := reads_of_encodes hw hs₁ he₁ nofun
    have hr'' : c.Reads w q₃ .endMark (q₃ + 1) :=
      reads_of_encodes hw (Window.spells_singleton.2 ⟨hbyte, rfl⟩) .endMark nofun
    obtain ⟨held, ho, hheld⟩ := openBlock_of_covers ⟨p, p₁⟩ .ifThen hsig hc hp
    obtain ⟨t₂, e₁, hbody, hc₂⟩ := ihb (t := Check.opened ⟨p, p₁⟩ .ifThen sig t held) he₂ hs₂ rfl
      (covers_openingFrame ..)
    obtain ⟨held₂, dead₂, rfl⟩ := hbody.exists_withStack hw
    have helse := (Check.elseMark_eq_ok_iff (s := ⟨q₁, q₂⟩)).2
      ⟨rfl, Check.finishes_of_covers hc₂, rfl⟩
    obtain ⟨t₄, e₂, hbody', hc₄⟩ := ihb' (t := Check.divided ⟨p, p₁⟩ sig q₂ t held) he₃ hs₃ rfl
      (covers_openingFrame ⟨p, p₁⟩ .ifElse sig)
    obtain ⟨held₄, dead₄, rfl⟩ := hbody'.exists_withStack hw
    have hend := (Check.endMark_block_eq_ok_iff (s := ⟨q₃, q₃ + 1⟩) rfl).2
      ⟨Check.finishes_of_covers hc₄, nofun, rfl, rfl⟩
    obtain ⟨t', e₃, hrest, hcov⟩ := ih
      (t := t.withStack ((known sig.results).reverse ++ held) t.frame.isUnreachable) he₄ hs₄ rfl
      (hheld.push (MatchAll.refl _))
    exact ⟨t', _, .ifElse hr ho hbody hr' helse hbody' hr'' hend hrest, hcov⟩

/-! ## Functions -/

namespace Module

variable {m : Module} {func : Nat} {f : Function} {table : SideTable}

/-- The state in which the checker starts on a function. -/
def initialTyping (f : Function) : Typing :=
  { frame := { kind := .function, type := { results := f.type.results }
               opcode := f.body.start, body := f.body.start } }

theorem validateFunction_eq_ok_iff (hf : m.functions[func]? = some f) :
    m.validateFunction func = .ok table ↔
      validateCode ⟨m, f⟩ func (f.body.length + 1) (initialTyping f) [] ⟨m.bytes, f.body.stop⟩
        f.body.start = .ok (table, f.body.stop) := by
  rw [validateFunction, hf]
  change (_ >>= fun x : SideTable × Nat => _) = _ ↔ validateCode _ _ _ _ _ _ _ = _
  change (validateCode ⟨m, f⟩ func (f.body.length + 1) (initialTyping f) [] ⟨m.bytes, f.body.stop⟩
    f.body.start >>= _) = _ ↔ _
  rcases validateCode ⟨m, f⟩ func (f.body.length + 1) (initialTyping f) [] ⟨m.bytes, f.body.stop⟩
    f.body.start with e | ⟨table', pos⟩
  · exact ⟨nofun, nofun⟩
  · by_cases hpos : pos = f.body.stop
    · simp [bind, Except.bind, pure, Except.pure, hpos]
    · simp [bind, Except.bind, hpos, throw, throwThe, MonadExceptOf.throw]

/-- **A function that the checker passes**: the run goes along code that encodes its body. -/
theorem exists_passes_of_validateFunction (hf : m.functions[func]? = some f)
    (hstop : f.body.stop ≤ m.bytes.size) (h : m.validateFunction func = .ok table) :
    ∃ code q t entries, Passes ⟨m, f⟩ ⟨m.bytes, f.body.stop⟩ f.body.start (initialTyping f) code q t
        entries ∧
      CodeContext.Reads ⟨m, f⟩ ⟨m.bytes, f.body.stop⟩ q .endMark f.body.stop ∧
      Check.Finishes t ∧ table = SideTable.insertAll [] entries := by
  rw [validateFunction_eq_ok_iff hf] at h
  obtain ⟨code, q, t, entries, left, mark, q', hp, -, hr, hm, hrun⟩ :=
    runsAlong_of_validateCode hstop h
  obtain ⟨held, dead, ht⟩ := hp.exists_withStack hstop
  rcases hm with rfl | rfl
  · have hkind := kind_of_elseMark hr hrun
    rw [ht] at hkind
    exact absurd hkind nofun
  · obtain ⟨closing, t', he, hrun⟩ := endMark_of_validateCode hr hrun
    obtain ⟨hfin, rfl, -⟩ := (Check.endMark_function_eq_ok_iff (by rw [ht]; rfl)).1 he
    obtain ⟨rfl, rfl⟩ := Reader.pure_eq_ok_iff.1 hrun
    exact ⟨code, q, t, entries, hp, hr, hfin, rfl⟩

/-- What the checker goes along up to the last mark is what the body encodes. -/
theorem encodesBody_of_passes (hstart : f.body.start ≤ f.body.stop)
    (hstop : f.body.stop ≤ m.bytes.size)
    (hp : Passes ⟨m, f⟩ ⟨m.bytes, f.body.stop⟩ f.body.start t code q t' entries)
    (hr : CodeContext.Reads ⟨m, f⟩ ⟨m.bytes, f.body.stop⟩ q .endMark f.body.stop) :
    code.EncodesBody (m.bytes.extract f.body.start f.body.stop).toList := by
  obtain ⟨bs, hs, he⟩ := hp.encodes hstop
  obtain ⟨hb, hq⟩ := hr.spells_endMark hstop
  have hs' : Window.Spells ⟨m.bytes, f.body.stop⟩ f.body.start (bs ++ [0x0b]) f.body.stop :=
    Window.spells_append.2 ⟨q, hs, Window.spells_singleton.2 ⟨hb, hq⟩⟩
  obtain ⟨-, -, hextract⟩ := (Window.spells_iff_extract hstop hstart).1 hs'
  exact ⟨bs, he, hextract⟩

/-- **The checker decides the type system**: it passes a function exactly if the bytes of its body
encode code of the type that the function declares. -/
theorem exists_validateFunction_iff (hf : m.functions[func]? = some f)
    (hstart : f.body.start ≤ f.body.stop) (hstop : f.body.stop ≤ m.bytes.size) :
    (∃ table, m.validateFunction func = .ok table) ↔
      ∃ code : Code, code.EncodesBody (m.bytes.extract f.body.start f.body.stop).toList ∧
        CodeContext.HasBody ⟨m, f⟩ code := by
  constructor
  · rintro ⟨table, h⟩
    obtain ⟨code, q, t, entries, hp, hr, hfin, -⟩ := exists_passes_of_validateFunction hf hstop h
    have hencodes := encodesBody_of_passes hstart hstop hp hr
    obtain ⟨held, dead, rfl⟩ := hp.exists_withStack hstop
    obtain ⟨us, hus, hres⟩ := hfin.admits
    obtain ⟨ts, hts, htype⟩ := hp.exists_hasType hstop hus
    obtain rfl : ts = [] := hts.eq_of_reachable
    exact ⟨code, hencodes, htype.mono hres⟩
  · rintro ⟨code, ⟨bs, he, hextract⟩, htype⟩
    have hs := (Window.spells_iff_extract (w := ⟨m.bytes, f.body.stop⟩) hstop hstart).2
      ⟨hstart, Nat.le_refl _, hextract⟩
    obtain ⟨q, hs, hend⟩ := Window.spells_append.1 hs
    obtain ⟨hb, hq⟩ := Window.spells_singleton.1 hend
    have hr : CodeContext.Reads ⟨m, f⟩ ⟨m.bytes, f.body.stop⟩ q .endMark f.body.stop :=
      reads_of_encodes hstop hend .endMark nofun
    obtain ⟨t, entries, hp, hc⟩ := exists_passes_of_hasType (t := initialTyping f) hstop htype he hs
      rfl (Admits.covers ⟨[], rfl, fun _ => rfl⟩)
    obtain ⟨held, dead, rfl⟩ := hp.exists_withStack hstop
    have hle : f.body.stop = q + 1 := hq
    obtain ⟨hpq, hlead⟩ := hp.leadsTo hstop
    obtain ⟨left, hleft, hrun⟩ := hlead (f.body.length + 1) [] (by rw [ByteRange.length]; omega)
    obtain ⟨left, rfl⟩ : ∃ k, left = k + 1 :=
      ⟨left - 1, by rw [ByteRange.length] at hleft; omega⟩
    refine ⟨SideTable.insertAll [] entries, (validateFunction_eq_ok_iff hf).2 (hrun _ ?_)⟩
    refine validateCode_succ_eq_ok_iff.2 ⟨.endMark, f.body.stop, .function,
      ((initialTyping f).withStack held dead).withStack []
        ((initialTyping f).withStack held dead).frame.isUnreachable, hr, ?_, rfl⟩
    exact (Check.endMark_function_eq_ok_iff rfl).2 ⟨Check.finishes_of_covers hc, rfl, rfl⟩

end Module

end WasmEngine
