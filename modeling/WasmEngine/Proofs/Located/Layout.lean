import WasmEngine.Proofs.Located.Table
import WasmEngine.Proofs.Syntax.Unique
import WasmEngine.Proofs.Typing.Code

/-!
# Proofs/Located/Layout — where the blocks of code begin and end

`Code.LaidOut` places code in bytes and lists its blocks: the offset of each opcode, with what lies
behind the block type, behind the `else` and behind the matching `end`.  It is stated on bytes alone
and knows nothing of the checker, and bytes can be laid out in one way only (`Code.LaidOut.unique`).

The jump entries that the checker finds are the blocks of that list (`Passes.laidOut`), so that the
table of a function has an entry for a block, and no other (`Module.find?_validateFunction_iff`).
-/

namespace WasmEngine

/-- `code.LaidOut c w p q entries`: the bytes between the offsets `p` and `q` are those of `code`,
and `entries` are its blocks by the offset of their opcodes, in the order in which they end. -/
inductive Code.LaidOut (c : CodeContext) (w : Window) :
    Code → Nat → Nat → List (Nat × BlockJump) → Prop where
  | nil {p} : LaidOut c w .nil p p []
  | plain {p p₁ q i rest bs entries} (hi : i.IsPlain) (he : i.embed.Encodes bs)
      (hs : w.Spells p bs p₁) (hrest : LaidOut c w rest p₁ q entries) :
      LaidOut c w (.plain i rest) p q entries
  | block {p p₁ q₁ q type sig body rest bs e₁ e₂} (hsig : c.signature? type = some sig)
      (he : (Instr.block type).Encodes bs) (hs : w.Spells p bs p₁)
      (hbody : LaidOut c w body p₁ q₁ e₁) (hend : w.get? q₁ = some 0x0b)
      (hrest : LaidOut c w rest (q₁ + 1) q e₂) :
      LaidOut c w (.block type body rest) p q
        (e₁ ++ (p, ⟨p₁, none, q₁ + 1, sig.params.length, sig.results.length⟩) :: e₂)
  | loop {p p₁ q₁ q type sig body rest bs e₁ e₂} (hsig : c.signature? type = some sig)
      (he : (Instr.loop type).Encodes bs) (hs : w.Spells p bs p₁)
      (hbody : LaidOut c w body p₁ q₁ e₁) (hend : w.get? q₁ = some 0x0b)
      (hrest : LaidOut c w rest (q₁ + 1) q e₂) :
      LaidOut c w (.loop type body rest) p q
        (e₁ ++ (p, ⟨p₁, none, q₁ + 1, sig.params.length, sig.results.length⟩) :: e₂)
  | ifThen {p p₁ q₁ q type sig body rest bs e₁ e₂} (hsig : c.signature? type = some sig)
      (he : (Instr.ifThen type).Encodes bs) (hs : w.Spells p bs p₁)
      (hbody : LaidOut c w body p₁ q₁ e₁) (hend : w.get? q₁ = some 0x0b)
      (hrest : LaidOut c w rest (q₁ + 1) q e₂) :
      LaidOut c w (.ifThen type body rest) p q
        (e₁ ++ (p, ⟨p₁, none, q₁ + 1, sig.params.length, sig.results.length⟩) :: e₂)
  | ifElse {p p₁ q₁ q₂ q type sig thenBody elseBody rest bs e₁ e₂ e₃}
      (hsig : c.signature? type = some sig) (he : (Instr.ifThen type).Encodes bs)
      (hs : w.Spells p bs p₁) (hthen : LaidOut c w thenBody p₁ q₁ e₁)
      (hmark : w.get? q₁ = some 0x05) (helse : LaidOut c w elseBody (q₁ + 1) q₂ e₂)
      (hend : w.get? q₂ = some 0x0b) (hrest : LaidOut c w rest (q₂ + 1) q e₃) :
      LaidOut c w (.ifElse type thenBody elseBody rest) p q
        (e₁ ++ (e₂ ++
          (p, ⟨p₁, some (q₁ + 1), q₂ + 1, sig.params.length, sig.results.length⟩) :: e₃))

variable {c : CodeContext} {w : Window} {p q q' : Nat} {code : Code}
  {entries entries' : List (Nat × BlockJump)}

namespace Code.LaidOut

/-- The bytes of code that is laid out encode it. -/
theorem encodes (h : code.LaidOut c w p q entries) : ∃ bs, w.Spells p bs q ∧ code.Encodes bs := by
  have enclosed {p p₁ q₁ q : Nat} {b₁ b₂ b₃ : List UInt8} (hs₁ : w.Spells p b₁ p₁)
      (hs₂ : w.Spells p₁ b₂ q₁) (hend : w.get? q₁ = some 0x0b) (hs₃ : w.Spells (q₁ + 1) b₃ q) :
      w.Spells p (b₁ ++ (b₂ ++ (0x0b :: b₃))) q :=
    Window.spells_append.2 ⟨_, hs₁, Window.spells_append.2 ⟨_, hs₂,
      Window.spells_cons.2 ⟨hend, hs₃⟩⟩⟩
  induction h with
  | nil => exact ⟨[], rfl, .nil⟩
  | plain hi he hs _ ih =>
    obtain ⟨bs, hs', he'⟩ := ih
    exact ⟨_, Window.spells_append.2 ⟨_, hs, hs'⟩, .plain hi he he'⟩
  | block _ he hs _ hend _ ihb ih =>
    obtain ⟨b₂, hs₂, he₂⟩ := ihb
    obtain ⟨b₃, hs₃, he₃⟩ := ih
    exact ⟨_, enclosed hs hs₂ hend hs₃, .block he he₂ he₃⟩
  | loop _ he hs _ hend _ ihb ih =>
    obtain ⟨b₂, hs₂, he₂⟩ := ihb
    obtain ⟨b₃, hs₃, he₃⟩ := ih
    exact ⟨_, enclosed hs hs₂ hend hs₃, .loop he he₂ he₃⟩
  | ifThen _ he hs _ hend _ ihb ih =>
    obtain ⟨b₂, hs₂, he₂⟩ := ihb
    obtain ⟨b₃, hs₃, he₃⟩ := ih
    exact ⟨_, enclosed hs hs₂ hend hs₃, .ifThen he he₂ he₃⟩
  | ifElse _ he hs _ hmark _ hend _ ihb ihb' ih =>
    obtain ⟨b₂, hs₂, he₂⟩ := ihb
    obtain ⟨b₃, hs₃, he₃⟩ := ihb'
    obtain ⟨b₄, hs₄, he₄⟩ := ih
    have hs₅ := Window.spells_cons.2 ⟨hmark, Window.spells_append.2 ⟨_, hs₃,
      Window.spells_cons.2 ⟨hend, hs₄⟩⟩⟩
    exact ⟨_, Window.spells_append.2 ⟨_, hs, Window.spells_append.2 ⟨_, hs₂, hs₅⟩⟩,
      .ifElse he he₂ he₃ he₄⟩

/-- **Code is laid out from an offset in one way.** -/
theorem unique (hw : w.stop ≤ w.bytes.size) (h : code.LaidOut c w p q entries)
    (h' : code.LaidOut c w p q' entries') : q = q' ∧ entries = entries' := by
  induction h generalizing q' entries' with
  | nil =>
    cases h'
    exact ⟨rfl, rfl⟩
  | plain _ he hs _ ih =>
    cases h' with
    | plain _ he' hs' hrest' =>
    obtain rfl := he.stop_eq hw hs he' hs'
    exact ih hrest'
  | block hsig he hs _ _ _ ihb ih =>
    cases h' with
    | block hsig' he' hs' hbody' _ hrest' =>
    obtain rfl := he.stop_eq hw hs he' hs'
    obtain rfl := Option.some.inj (hsig.symm.trans hsig')
    obtain ⟨rfl, rfl⟩ := ihb hbody'
    obtain ⟨rfl, rfl⟩ := ih hrest'
    exact ⟨rfl, rfl⟩
  | loop hsig he hs _ _ _ ihb ih =>
    cases h' with
    | loop hsig' he' hs' hbody' _ hrest' =>
    obtain rfl := he.stop_eq hw hs he' hs'
    obtain rfl := Option.some.inj (hsig.symm.trans hsig')
    obtain ⟨rfl, rfl⟩ := ihb hbody'
    obtain ⟨rfl, rfl⟩ := ih hrest'
    exact ⟨rfl, rfl⟩
  | ifThen hsig he hs _ _ _ ihb ih =>
    cases h' with
    | ifThen hsig' he' hs' hbody' _ hrest' =>
    obtain rfl := he.stop_eq hw hs he' hs'
    obtain rfl := Option.some.inj (hsig.symm.trans hsig')
    obtain ⟨rfl, rfl⟩ := ihb hbody'
    obtain ⟨rfl, rfl⟩ := ih hrest'
    exact ⟨rfl, rfl⟩
  | ifElse hsig he hs _ _ _ _ _ ihb ihb' ih =>
    cases h' with
    | ifElse hsig' he' hs' hthen' _ helse' _ hrest' =>
    obtain rfl := he.stop_eq hw hs he' hs'
    obtain rfl := Option.some.inj (hsig.symm.trans hsig')
    obtain ⟨rfl, rfl⟩ := ihb hthen'
    obtain ⟨rfl, rfl⟩ := ihb' helse'
    obtain ⟨rfl, rfl⟩ := ih hrest'
    exact ⟨rfl, rfl⟩

end Code.LaidOut

/-! ## The blocks that the checker finds -/

/-- **The checker finds the blocks of the code that it goes along**, each where it is. -/
theorem Passes.laidOut {t t' : Typing} (hw : w.stop ≤ w.bytes.size)
    (h : Passes c w p t code q t' entries) : code.LaidOut c w p q entries := by
  induction h with
  | nil => exact .nil
  | plain hi hr _ _ ih =>
    obtain ⟨bs, hs, he⟩ := hr.encodes hw
    exact .plain hi he hs ih
  | block hr ho hbody hr' he _ ihb ih =>
    obtain ⟨held, dead, hb⟩ := hbody.exists_withStack hw
    obtain ⟨sig, xs, rest, hsig, -, -, -, -, -, heq, -⟩ := block_of_eq_ok ho hb he
    cases heq
    obtain ⟨bs, hs, henc⟩ := hr.encodes hw
    obtain ⟨hend, rfl⟩ := hr'.spells_endMark hw
    exact .block hsig henc hs ihb hend ih
  | loop hr ho hbody hr' he _ ihb ih =>
    obtain ⟨held, dead, hb⟩ := hbody.exists_withStack hw
    obtain ⟨sig, xs, rest, hsig, -, -, -, -, -, heq, -⟩ := block_of_eq_ok ho hb he
    cases heq
    obtain ⟨bs, hs, henc⟩ := hr.encodes hw
    obtain ⟨hend, rfl⟩ := hr'.spells_endMark hw
    exact .loop hsig henc hs ihb hend ih
  | ifThen hr ho hbody hr' he _ ihb ih =>
    obtain ⟨held, dead, hb⟩ := hbody.exists_withStack hw
    obtain ⟨sig, xs, rest, hsig, -, -, -, -, -, heq, -⟩ := block_of_eq_ok ho hb he
    cases heq
    obtain ⟨bs, hs, henc⟩ := hr.encodes hw
    obtain ⟨hend, rfl⟩ := hr'.spells_endMark hw
    exact .ifThen hsig henc hs ihb hend ih
  | ifElse hr ho hbody hr' hm hbody' hr'' he _ ihb ihb' ih =>
    obtain ⟨held, dead, hb⟩ := hbody.exists_withStack hw
    obtain ⟨held', dead', hb'⟩ := hbody'.exists_withStack hw
    obtain ⟨sig, xs, rest, hsig, -, -, -, -, -, -, heq, -⟩ := ifElse_of_eq_ok ho hb hm hb' he
    cases heq
    obtain ⟨bs, hs, henc⟩ := hr.encodes hw
    obtain ⟨hmark, rfl⟩ := hr'.spells_elseMark hw
    obtain ⟨hend, rfl⟩ := hr''.spells_endMark hw
    exact .ifElse hsig henc hs ihb hmark ihb' hend ih

/-- A table made of entries for different offsets holds these and no others. -/
theorem SideTable.find?_insertAll_nil_iff (h : (entries.map Prod.fst).Nodup) {jump : BlockJump} :
    (insertAll [] entries).find? p = some jump ↔ (p, jump) ∈ entries := by
  refine ⟨fun hfind => ?_, find?_insertAll_of_mem h⟩
  obtain ⟨e, he, rfl⟩ := List.mem_map.1 (mem_of_find?_insertAll_nil hfind)
  rw [find?_insertAll_of_mem h he] at hfind
  exact Option.some.inj hfind ▸ he

namespace Module

variable {m : Module} {func : Nat} {f : Function} {table : SideTable} {jump : BlockJump}

/-- Whether the function at an index has a body with a `block`, `loop` or `if` at the offset `p`, in
reachable code or not.  `jump` tells where its parts are and how many operands it takes and leaves. -/
def HasBlock (m : Module) (func p : Nat) (jump : BlockJump) : Prop :=
  ∃ f code stop entries, m.functions[func]? = some f ∧ f.imported = none ∧
    Code.LaidOut ⟨m, f⟩ ⟨m.bytes, f.body.stop⟩ code f.body.start stop entries ∧
    Window.get? ⟨m.bytes, f.body.stop⟩ stop = some 0x0b ∧ f.body.stop = stop + 1 ∧
    (p, jump) ∈ entries

/-- **The table of a function is exact.**  Its entries are the blocks of the body. -/
theorem find?_validateFunction_iff (hf : m.functions[func]? = some f) (hl : f.imported = none)
    (hstop : f.body.stop ≤ m.bytes.size) (h : m.validateFunction func = .ok table) :
    table.find? p = some jump ↔ m.HasBlock func p jump := by
  obtain ⟨code, q, t, entries, hp, hr, -, rfl⟩ := exists_passes_of_validateFunction hf hstop h
  obtain ⟨hend, hq⟩ := hr.spells_endMark hstop
  have hlaid := hp.laidOut hstop
  rw [SideTable.find?_insertAll_nil_iff (hp.keysIn hstop).2.nodup]
  constructor
  · exact fun hmem => ⟨f, code, q, entries, hf, hl, hlaid, hend, hq, hmem⟩
  · rintro ⟨f', code', q', entries', hf', -, hlaid', hend', hq', hmem⟩
    obtain rfl := Option.some.inj (hf.symm.trans hf')
    -- Both ways of laying out the body are ways of encoding it.
    obtain ⟨bs, hs, he⟩ := hlaid.encodes
    obtain ⟨bs', hs', he'⟩ := hlaid'.encodes
    have hmark := markAt_endMark hstop (Window.spells_singleton.2 ⟨hend, rfl⟩)
    have hmark' := markAt_endMark hstop (Window.spells_singleton.2 ⟨hend', rfl⟩)
    obtain ⟨rfl, -⟩ := Code.Encodes.unique hstop he hs hmark he' hs' hmark'
    obtain ⟨-, rfl⟩ := hlaid.unique hstop hlaid'
    exact hmem

end Module

end WasmEngine
