import WasmEngine.Instr.Fetch
import WasmEngine.Proofs.Syntax.Fetching
import WasmEngine.Proofs.Typing.Trace

/-!
# Proofs/Located/Code — where code lies in the bytes of a module

The machine has no syntax tree: it fetches instructions by offset and jumps through the side table.
`Code.Lies` says that code lies between two offsets, and that its blocks have the jump entries that
lead behind them.  What the checker goes along lies where it was read, once the table holds the
entries that it has found: `Passes.lies`.
-/

namespace WasmEngine

/-- `code.Lies c table p q`: the instructions of `code` are those between the offsets `p` and `q`. -/
inductive Code.Lies (c : CodeContext) (table : SideTable) : Code → Nat → Nat → Prop where
  | nil {p} : Lies c table .nil p p
  | plain {p p₁ q i rest} (h : Instr.fetch c.module.bytes table p = some (i.embed, p₁))
      (hrest : Lies c table rest p₁ q) : Lies c table (.plain i rest) p q
  | block {p p₁ q₁ q₂ q type sig body rest} (hs : c.signature? type = some sig)
      (h : Instr.fetch c.module.bytes table p =
        some (.block ⟨p₁, none, q₂, sig.params.length, sig.results.length⟩, p₁))
      (hbody : Lies c table body p₁ q₁)
      (hend : Instr.fetch c.module.bytes table q₁ = some (.endMark, q₂))
      (hrest : Lies c table rest q₂ q) : Lies c table (.block type body rest) p q
  | loop {p p₁ q₁ q₂ q type sig body rest} (hs : c.signature? type = some sig)
      (h : Instr.fetch c.module.bytes table p =
        some (.loop ⟨p₁, none, q₂, sig.params.length, sig.results.length⟩, p₁))
      (hbody : Lies c table body p₁ q₁)
      (hend : Instr.fetch c.module.bytes table q₁ = some (.endMark, q₂))
      (hrest : Lies c table rest q₂ q) : Lies c table (.loop type body rest) p q
  | ifThen {p p₁ q₁ q₂ q type sig body rest} (hs : c.signature? type = some sig)
      (h : Instr.fetch c.module.bytes table p =
        some (.ifThen ⟨p₁, none, q₂, sig.params.length, sig.results.length⟩, p₁))
      (hbody : Lies c table body p₁ q₁)
      (hend : Instr.fetch c.module.bytes table q₁ = some (.endMark, q₂))
      (hrest : Lies c table rest q₂ q) : Lies c table (.ifThen type body rest) p q
  | ifElse {p p₁ q₁ q₂ q₃ q₄ q type sig thenBody elseBody rest} (hs : c.signature? type = some sig)
      (h : Instr.fetch c.module.bytes table p =
        some (.ifThen ⟨p₁, some q₂, q₄, sig.params.length, sig.results.length⟩, p₁))
      (hthen : Lies c table thenBody p₁ q₁)
      (hmark : Instr.fetch c.module.bytes table q₁ = some (.elseMark, q₂))
      (helse : Lies c table elseBody q₂ q₃)
      (hend : Instr.fetch c.module.bytes table q₃ = some (.endMark, q₄))
      (hrest : Lies c table rest q₄ q) : Lies c table (.ifElse type thenBody elseBody rest) p q

variable {c : CodeContext} {w : Window} {p q : Nat} {t t' : Typing} {code : Code}
  {entries : List (Nat × BlockJump)} {table : SideTable}

/-! ## The entries that the checker finds -/

/-- Jump entries of different opcodes between two offsets. -/
structure KeysIn (entries : List (Nat × BlockJump)) (p q : Nat) : Prop where
  bounds : ∀ e ∈ entries, p ≤ e.1 ∧ e.1 < q
  nodup : (entries.map Prod.fst).Nodup

theorem KeysIn.nil : KeysIn [] p q := ⟨nofun, List.nodup_nil⟩

theorem KeysIn.mono {p' q' : Nat} (h : KeysIn entries p q) (hp : p' ≤ p) (hq : q ≤ q') :
    KeysIn entries p' q' :=
  ⟨fun e he => ⟨Nat.le_trans hp (h.bounds e he).1, Nat.lt_of_lt_of_le (h.bounds e he).2 hq⟩,
    h.nodup⟩

theorem KeysIn.append {e₁ e₂ : List (Nat × BlockJump)} {m : Nat} (h₁ : KeysIn e₁ p m)
    (h₂ : KeysIn e₂ m q) (hp : p ≤ m) (hq : m ≤ q) : KeysIn (e₁ ++ e₂) p q where
  bounds := List.forall_mem_append.2
    ⟨(h₁.mono (Nat.le_refl _) hq).bounds, (h₂.mono hp (Nat.le_refl _)).bounds⟩
  nodup := by
    rw [List.map_append, List.nodup_append]
    refine ⟨h₁.nodup, h₂.nodup, fun a ha b hb => ?_⟩
    obtain ⟨x, hx, rfl⟩ := List.mem_map.1 ha
    obtain ⟨y, hy, rfl⟩ := List.mem_map.1 hb
    have := (h₁.bounds x hx).2
    have := (h₂.bounds y hy).1
    omega

/-- The entry of a block stands between those of its body and those behind it. -/
theorem KeysIn.block {e₁ e₂ : List (Nat × BlockJump)} {jump : BlockJump} {p₁ q₁ : Nat}
    (h₁ : KeysIn e₁ p₁ q₁) (h₂ : KeysIn e₂ q₁ q) (hp : p < p₁) (h : p₁ ≤ q₁) (hq : q₁ ≤ q) :
    KeysIn (e₁ ++ (p, jump) :: e₂) p q where
  bounds := by
    have h := (h₁.append h₂ h hq).bounds
    simp only [List.mem_append, List.mem_cons]
    rintro e (he | rfl | he)
    · have := h e (List.mem_append_left _ he); omega
    · omega
    · have := h e (List.mem_append_right _ he); omega
  nodup := by
    have hrest := h₁.append h₂ h hq
    rw [List.map_append, List.map_cons, List.perm_middle.nodup_iff, ← List.map_append, List.nodup_cons]
    refine ⟨fun hmem => ?_, hrest.nodup⟩
    obtain ⟨e, he, rfl⟩ := List.mem_map.1 hmem
    have := (hrest.bounds e he).1
    omega

/-- **The checker finds one entry for each block that it goes over.** -/
theorem Passes.keysIn (hw : w.stop ≤ w.bytes.size) (h : Passes c w p t code q t' entries) :
    p ≤ q ∧ KeysIn entries p q := by
  induction h with
  | nil => exact ⟨Nat.le_refl _, .nil⟩
  | plain hi hr hc _ ih =>
    have hlt := Nat.le_of_lt (hr.lt hw)
    exact ⟨Nat.le_trans hlt ih.1, ih.2.mono hlt (Nat.le_refl _)⟩
  | block hr ho hbody hr' he _ ihb ih | loop hr ho hbody hr' he _ ihb ih
  | ifThen hr ho hbody hr' he _ ihb ih =>
    obtain ⟨held, dead, hb⟩ := hbody.exists_withStack hw
    obtain ⟨sig, xs, rest, -, -, -, -, -, -, heq, -⟩ := block_of_eq_ok ho hb he
    cases heq
    have hlt := hr.lt hw
    have hlt' := Nat.le_of_lt (hr'.lt hw)
    exact ⟨by omega, (ihb.2.mono (Nat.le_refl _) hlt').block ih.2 hlt (by omega) ih.1⟩
  | ifElse hr ho hbody hr' hm hbody' hr'' he _ ihb ihb' ih =>
    obtain ⟨held, dead, hb⟩ := hbody.exists_withStack hw
    obtain ⟨held', dead', hb'⟩ := hbody'.exists_withStack hw
    obtain ⟨sig, xs, rest, -, -, -, -, -, -, -, heq, -⟩ := ifElse_of_eq_ok ho hb hm hb' he
    cases heq
    have hlt := hr.lt hw
    have hlt' := Nat.le_of_lt (hr'.lt hw)
    have hlt'' := Nat.le_of_lt (hr''.lt hw)
    have hbodies := (ihb.2.mono (Nat.le_refl _) hlt').append ihb'.2 (by omega) ihb'.1
    refine ⟨by omega, ?_⟩
    rw [← List.append_assoc]
    exact (hbodies.mono (Nat.le_refl _) hlt'').block ih.2 hlt (by omega) ih.1

/-! ## Code in its place -/

theorem fetch_of_reads {i : Instr BlockType} {jump : BlockJump} (hw : w.stop ≤ w.bytes.size)
    (hbytes : w.bytes = c.module.bytes) (hr : c.Reads w p i q)
    (hjump : i.OpensBlock → table.find? p = some jump ∧ jump.body = q) :
    Instr.fetch c.module.bytes table p = some (i.map fun _ => jump, q) :=
  hbytes ▸ Instr.fetch_of_read hw hr hjump

theorem fetch_of_reads_embed {i : Instr Empty} (hw : w.stop ≤ w.bytes.size)
    (hbytes : w.bytes = c.module.bytes) (hr : c.Reads w p i.embed q) :
    Instr.fetch c.module.bytes table p = some (i.embed, q) := by
  have hi : ¬(i.embed : Instr BlockType).OpensBlock := by
    cases i with
    | block b | loop b | ifThen b => exact b.elim
    | _ => exact id
  have h : Instr.fetch c.module.bytes table p = some (i.embed.map fun _ => ⟨0, none, 0, 0, 0⟩, q) :=
    fetch_of_reads hw hbytes hr fun h => absurd h hi
  rwa [Instr.map_embed] at h

/-- **What the checker goes along lies where it was read**, if the table has the entries found. -/
theorem Passes.lies (hw : w.stop ≤ w.bytes.size) (hbytes : w.bytes = c.module.bytes)
    (h : Passes c w p t code q t' entries)
    (hfind : ∀ e ∈ entries, table.find? e.1 = some e.2) : code.Lies c table p q := by
  induction h with
  | nil => exact .nil
  | plain hi hr hc _ ih => exact .plain (fetch_of_reads_embed hw hbytes hr) (ih hfind)
  | block hr ho hbody hr' he _ ihb ih =>
    obtain ⟨held, dead, hb⟩ := hbody.exists_withStack hw
    obtain ⟨sig, xs, rest, hsig, -, -, -, -, -, heq, -⟩ := block_of_eq_ok ho hb he
    cases heq
    simp only [List.mem_append, List.mem_cons] at hfind
    exact .block hsig (fetch_of_reads hw hbytes hr fun _ => ⟨hfind _ (.inr (.inl rfl)), rfl⟩)
      (ihb fun e he => hfind e (.inl he)) (fetch_of_reads_embed (i := .endMark) hw hbytes hr')
      (ih fun e he => hfind e (.inr (.inr he)))
  | loop hr ho hbody hr' he _ ihb ih =>
    obtain ⟨held, dead, hb⟩ := hbody.exists_withStack hw
    obtain ⟨sig, xs, rest, hsig, -, -, -, -, -, heq, -⟩ := block_of_eq_ok ho hb he
    cases heq
    simp only [List.mem_append, List.mem_cons] at hfind
    exact .loop hsig (fetch_of_reads hw hbytes hr fun _ => ⟨hfind _ (.inr (.inl rfl)), rfl⟩)
      (ihb fun e he => hfind e (.inl he)) (fetch_of_reads_embed (i := .endMark) hw hbytes hr')
      (ih fun e he => hfind e (.inr (.inr he)))
  | ifThen hr ho hbody hr' he _ ihb ih =>
    obtain ⟨held, dead, hb⟩ := hbody.exists_withStack hw
    obtain ⟨sig, xs, rest, hsig, -, -, -, -, -, heq, -⟩ := block_of_eq_ok ho hb he
    cases heq
    simp only [List.mem_append, List.mem_cons] at hfind
    exact .ifThen hsig (fetch_of_reads hw hbytes hr fun _ => ⟨hfind _ (.inr (.inl rfl)), rfl⟩)
      (ihb fun e he => hfind e (.inl he)) (fetch_of_reads_embed (i := .endMark) hw hbytes hr')
      (ih fun e he => hfind e (.inr (.inr he)))
  | ifElse hr ho hbody hr' hm hbody' hr'' he _ ihb ihb' ih =>
    obtain ⟨held, dead, hb⟩ := hbody.exists_withStack hw
    obtain ⟨held', dead', hb'⟩ := hbody'.exists_withStack hw
    obtain ⟨sig, xs, rest, hsig, -, -, -, -, -, -, heq, -⟩ := ifElse_of_eq_ok ho hb hm hb' he
    cases heq
    simp only [List.mem_append, List.mem_cons] at hfind
    exact .ifElse hsig
      (fetch_of_reads hw hbytes hr fun _ => ⟨hfind _ (.inr (.inr (.inl rfl))), rfl⟩)
      (ihb fun e he => hfind e (.inl he)) (fetch_of_reads_embed (i := .elseMark) hw hbytes hr')
      (ihb' fun e he => hfind e (.inr (.inl he)))
      (fetch_of_reads_embed (i := .endMark) hw hbytes hr'')
      (ih fun e he => hfind e (.inr (.inr (.inr he))))

end WasmEngine
