import WasmEngine.Proofs.Typing.Declarative

/-!
# Proofs/Typing/Stack — what the operations on the abstract stack do

Each operation of `Check` changes at most the operands of the innermost frame and whether it is
unreachable.  `Takes` says which operands an operation takes off a frame; an unreachable frame gives
unknown ones where it has none.

A frame describes all operand lists that it *admits*: below the operands that it holds, an
unreachable frame admits anything.  It *covers* what those lists match.
-/

namespace WasmEngine

/-- `Takes dead held xs rest`: the operands `xs`, the last one topmost, come off the operands `held`
of a frame and leave `rest`; `dead` tells whether the frame is unreachable.  The operands of a frame
are listed top first. -/
def Takes (dead : Bool) (held xs rest : List OperandType) : Prop :=
  held = xs.reverse ++ rest ∨
    dead = true ∧ rest = [] ∧ ∃ k, xs = List.replicate k none ++ held.reverse

/-- Whether a frame with the operands `held` describes operands of types `ts`. -/
def Admits (dead : Bool) (held ts : List OperandType) : Prop :=
  ∃ below, ts = below ++ held.reverse ∧ (dead = false → below = [])

/-- Whether a frame with the operands `held` describes operands that match the types `ts`. -/
def Covers (dead : Bool) (held ts : List OperandType) : Prop :=
  ∃ us, Admits dead held us ∧ MatchAll us ts

section Lists

variable {dead : Bool} {held rest xs ys ts : List OperandType}

/-- What was pushed last can be taken. -/
theorem Takes.exact (dead : Bool) (xs rest : List OperandType) :
    Takes dead (xs.reverse ++ rest) xs rest :=
  .inl rfl

/-- Operands that have just been pushed are the ones that are taken. -/
theorem Takes.eq_of_push (h : Takes dead (xs.reverse ++ held) ys rest)
    (hl : ys.length = xs.length) : ys = xs ∧ rest = held := by
  rcases h with h | ⟨-, rfl, k, rfl⟩
  · obtain ⟨hxy, rfl⟩ := List.append_inj h (by simpa using hl.symm)
    exact ⟨List.reverse_inj.1 hxy.symm, rfl⟩
  · simp only [List.length_append, List.length_replicate, List.length_reverse] at hl
    obtain rfl : k = 0 := by omega
    obtain rfl : held = [] := List.length_eq_zero_iff.1 (by omega)
    simp

/-- Whoever takes nothing leaves all. -/
theorem takes_nil_iff : Takes dead held [] rest ↔ rest = held := by
  constructor
  · rintro (h | ⟨-, rfl, k, hk⟩)
    · simpa using h.symm
    · simpa using (List.append_eq_nil_iff.1 hk.symm).2.symm
  · rintro rfl
    exact .inl rfl

/-- Taking operands one group after the other takes them all. -/
theorem takes_append_iff :
    Takes dead held (xs ++ ys) rest ↔ ∃ mid, Takes dead held ys mid ∧ Takes dead mid xs rest := by
  constructor
  · rintro (rfl | ⟨hd, rfl, k, hk⟩)
    · exact ⟨xs.reverse ++ rest, .inl (by simp), .inl rfl⟩
    · rcases Nat.le_total k xs.length with hle | hle
      · -- The upper group is held in full.
        refine ⟨(xs.drop k).reverse, .inl ?_, .inr ⟨hd, rfl, k, ?_⟩⟩
        · have hy := congrArg (List.drop k) hk
          rw [List.drop_append_of_le_length hle, List.drop_left' (by simp)] at hy
          simpa using congrArg List.reverse hy.symm
        · have hx := congrArg (List.take k) hk
          rw [List.take_append_of_le_length hle, List.take_left' (by simp)] at hx
          rw [← hx, List.reverse_reverse, List.take_append_drop]
      · refine ⟨[], .inr ⟨hd, rfl, k - xs.length, ?_⟩, .inr ⟨hd, rfl, xs.length, ?_⟩⟩
        · have hy := congrArg (List.drop xs.length) hk
          rw [List.drop_left' rfl, List.drop_append_of_le_length (by simpa using hle)] at hy
          simpa using hy
        · have hx := congrArg (List.take xs.length) hk
          rw [List.take_left' rfl, List.take_append_of_le_length (by simpa using hle)] at hx
          simpa [hle] using hx
  · rintro ⟨mid, rfl | ⟨hd, rfl, k, rfl⟩, hx⟩
    · rcases hx with rfl | ⟨hd, rfl, j, rfl⟩
      · exact .inl (by simp)
      · exact .inr ⟨hd, rfl, j, by simp⟩
    · rcases hx with hx | ⟨-, rfl, j, rfl⟩
      · obtain ⟨hxs, rfl⟩ := List.append_eq_nil_iff.1 hx.symm
        rw [List.reverse_eq_nil_iff.1 hxs]
        exact .inr ⟨hd, rfl, k, rfl⟩
      · refine .inr ⟨hd, rfl, j + k, ?_⟩
        rw [List.reverse_nil, List.append_nil, ← List.append_assoc,
          List.replicate_append_replicate]

/-- Taken operands may be added below what the rest describes. -/
theorem Takes.admits (h : Takes dead held xs rest) (ha : Admits dead rest ts) :
    Admits dead held (ts ++ xs) := by
  obtain ⟨below, rfl, hb⟩ := ha
  rcases h with rfl | ⟨hd, rfl, k, rfl⟩
  · exact ⟨below, by simp, hb⟩
  · exact ⟨below ++ List.replicate k none, by simp, fun h => absurd hd (by simp [h])⟩

/-- Operands that were pushed stand on top in every reading of the stack. -/
theorem Admits.push (h : Admits dead (xs.reverse ++ held) ts) :
    ∃ us, ts = us ++ xs ∧ Admits dead held us := by
  obtain ⟨below, rfl, hb⟩ := h
  exact ⟨below ++ held.reverse, by simp, below, rfl, hb⟩

/-- A stack may be taken as what it holds. -/
theorem admits_self (dead : Bool) (held : List OperandType) : Admits dead held held.reverse :=
  ⟨[], rfl, fun _ => rfl⟩

/-- In unreachable code an empty stack may be taken as anything. -/
theorem admits_unreachable (ts : List OperandType) : Admits true [] ts :=
  ⟨ts, (List.append_nil ts).symm, nofun⟩

/-- Types match themselves. -/
theorem Admits.covers (h : Admits dead held ts) : Covers dead held ts :=
  ⟨ts, h, MatchAll.refl ts⟩

/-- What covers types covers types that they match. -/
theorem Covers.mono {us : List OperandType} (h : Covers dead held ts) (hm : MatchAll ts us) :
    Covers dead held us := by
  obtain ⟨vs, ha, hv⟩ := h
  exact ⟨vs, ha, hv.trans hm⟩

/-- Operands of unknown type match all types. -/
theorem matchAll_replicate_none (ts : List OperandType) :
    MatchAll (List.replicate ts.length none) ts := by
  induction ts with
  | nil => exact .nil
  | cons t ts ih => exact .cons (.inl rfl) ih

/-- A frame that covers operands yields the topmost of them. -/
theorem Covers.takes (h : Covers dead held (ts ++ ys)) :
    ∃ xs rest, Takes dead held xs rest ∧ MatchAll xs ys ∧ Covers dead rest ts := by
  obtain ⟨all, ⟨below, hall, hb⟩, hm⟩ := h
  obtain ⟨us, xs, rfl, hu, hx⟩ : ∃ us xs, all = us ++ xs ∧ MatchAll us ts ∧ MatchAll xs ys :=
    ⟨all.take ts.length, all.drop ts.length, (List.take_append_drop ..).symm,
      List.forall₂_take_append _ _ _ hm, List.forall₂_drop_append _ _ _ hm⟩
  rcases List.append_eq_append_iff.1 hall with ⟨mid, rfl, rfl⟩ | ⟨mid, rfl, hheld⟩
  · -- The frame holds only a part of the operands that are taken.
    cases dead with
    | false =>
      obtain ⟨rfl, rfl⟩ := List.append_eq_nil_iff.1 (hb rfl)
      exact ⟨held.reverse, [], .inl (by simp), hx, [], ⟨[], rfl, fun _ => rfl⟩, hu⟩
    | true =>
      refine ⟨_, [], .inr ⟨rfl, rfl, mid.length, rfl⟩, ?_, ts, admits_unreachable ts, MatchAll.refl ts⟩
      exact MatchAll.trans (List.rel_append (matchAll_replicate_none mid) (MatchAll.refl _)) hx
  · have hheld : held = xs.reverse ++ mid.reverse := by simpa using congrArg List.reverse hheld
    exact ⟨xs, mid.reverse, .inl hheld, hx, _, ⟨below, by simp, hb⟩, hu⟩

/-- Operands that match may be pushed on top of what covers the rest. -/
theorem Covers.push (h : Covers dead held ts) (hm : MatchAll xs ys) :
    Covers dead (xs.reverse ++ held) (ts ++ ys) := by
  obtain ⟨us, ⟨below, rfl, hb⟩, hu⟩ := h
  exact ⟨below ++ held.reverse ++ xs, ⟨below, by simp, hb⟩, List.rel_append hu hm⟩

/-- In unreachable code an empty stack covers everything. -/
theorem covers_unreachable (ts : List OperandType) : Covers true [] ts :=
  (admits_unreachable ts).covers

end Lists

/-! ## The operations -/

/-- Changes the operands of the innermost frame and whether it is unreachable. -/
def Typing.withStack (t : Typing) (held : List OperandType) (dead : Bool) : Typing :=
  { t with frame := { t.frame with operands := held, isUnreachable := dead } }

section WithStack

variable (t : Typing) (held held' : List OperandType) (dead dead' : Bool)

@[simp] theorem Typing.operands_withStack : (t.withStack held dead).frame.operands = held := rfl

@[simp] theorem Typing.isUnreachable_withStack :
    (t.withStack held dead).frame.isUnreachable = dead := rfl

@[simp] theorem Typing.withStack_withStack :
    (t.withStack held dead).withStack held' dead' = t.withStack held' dead' := rfl

end WithStack

/-- The types that a branch to each open block carries. -/
def Typing.labels (t : Typing) : LabelTypes := (t.frame :: t.outer).map ControlFrame.labelTypes

@[simp] theorem Typing.labels_withStack (t : Typing) (held : List OperandType) (dead : Bool) :
    (t.withStack held dead).labels = t.labels :=
  rfl

namespace Check

variable {α β : Type} {t t' : Typing}

/-- A check that goes on with another one passes if both do. -/
theorem bind_eq_ok_iff {x : Check α} {f : α → Check β} {b : β} :
    (x >>= f) t = .ok (b, t') ↔ ∃ a mid, x t = .ok (a, mid) ∧ f a mid = .ok (b, t') := by
  change (x t >>= fun p => f p.1 p.2) = _ ↔ _
  rcases x t with e | ⟨a, mid⟩
  · simp [bind, Except.bind]
  · constructor
    · exact fun h => ⟨a, mid, rfl, h⟩
    · rintro ⟨_, _, ⟨rfl, rfl⟩, h⟩
      exact h

theorem get_bind {f : Typing → Check β} : (get >>= f) t = f t t := rfl

theorem get_eq_ok_iff {a : Typing} : (get : Check Typing) t = .ok (a, t') ↔ t = a ∧ t = t' := by
  change Except.ok (t, t) = _ ↔ _
  simp

theorem set_eq_ok_iff {a : Typing} {u : PUnit} :
    (set a : Check PUnit) t = .ok (u, t') ↔ a = t' := by
  change Except.ok (PUnit.unit, a) = _ ↔ _
  simp

theorem pure_eq_ok_iff {a b : α} : (pure a : Check α) t = .ok (b, t') ↔ a = b ∧ t = t' := by
  change Except.ok (a, t) = _ ↔ _
  simp

/-- A result that is not needed is one all the same. -/
theorem discard_eq_ok_iff {x : Check α} {u : Unit} :
    discard x t = .ok (u, t') ↔ ∃ a, x t = .ok (a, t') := by
  have hmap : discard x = (fun _ => ()) <$> x := rfl
  rw [hmap, map_eq_pure_bind, bind_eq_ok_iff]
  simp [pure_eq_ok_iff]

theorem throw_ne_ok {cause : Violation} {x : α × Typing} :
    (throw cause : Check α) t ≠ .ok x := nofun

theorem throw_bind {cause : Violation} {f : α → Check β} : (throw cause >>= f) = throw cause := rfl

theorem ite_throw_eq_ok_iff {p : Prop} [Decidable p] {cause : Violation} {x : Check α}
    {r : α × Typing} : (if p then throw cause else x) t = .ok r ↔ ¬p ∧ x t = .ok r := by
  split
  · next h => exact ⟨fun h' => absurd h' throw_ne_ok, fun h' => absurd h h'.1⟩
  · next h => exact ⟨fun h' => ⟨h, h'⟩, And.right⟩

theorem ite_else_throw_eq_ok_iff {p : Prop} [Decidable p] {cause : Violation} {x : Check α}
    {r : α × Typing} : (if p then x else throw cause) t = .ok r ↔ p ∧ x t = .ok r := by
  split
  · next h => exact ⟨fun h' => ⟨h, h'⟩, And.right⟩
  · next h => exact ⟨fun h' => absurd h' throw_ne_ok, fun h' => absurd h'.1 h⟩

/-- What is required must be there, and nothing else changes. -/
theorem required_eq_ok_iff {v : Violation} {o : Option α} {a : α} :
    required v o t = .ok (a, t') ↔ o = some a ∧ t = t' := by
  cases o with
  | none => exact ⟨fun h => absurd h throw_ne_ok, fun h => absurd h.1 nofun⟩
  | some b => simp [required, pure_eq_ok_iff]

/-- Pushing changes the operands of the innermost frame alone. -/
theorem pushAll_eq_ok_iff {xs : List OperandType} {u : Unit} :
    pushAll xs t = .ok (u, t') ↔
      t' = t.withStack (xs.reverse ++ t.frame.operands) t.frame.isUnreachable := by
  change Except.ok ((), _) = _ ↔ _
  simp [Typing.withStack, eq_comm]

theorem push_eq_ok_iff {x : OperandType} {u : Unit} :
    push x t = .ok (u, t') ↔
      t' = t.withStack ([x].reverse ++ t.frame.operands) t.frame.isUnreachable := by
  change Except.ok ((), _) = _ ↔ _
  simp [Typing.withStack, eq_comm]

/-- Behind a jump the frame has no operands, and may be taken to have any. -/
theorem setUnreachable_eq_ok_iff {u : Unit} :
    setUnreachable t = .ok (u, t') ↔ t' = t.withStack [] true := by
  change Except.ok ((), _) = _ ↔ _
  simp [Typing.withStack, eq_comm]

/-- Labels are counted from the innermost frame outwards. -/
theorem labelTypes_eq_ok_iff {depth : Nat} {ts : List ValType} :
    labelTypes depth t = .ok (ts, t') ↔ t.labels[depth]? = some ts ∧ t = t' := by
  rw [labelTypes, get_bind, Typing.labels, List.getElem?_map]
  cases (t.frame :: t.outer)[depth]? with
  | none => exact ⟨fun h => absurd h throw_ne_ok, fun h => absurd h.1 nofun⟩
  | some f => simp [pure_eq_ok_iff]

/-- **Taking one operand.** -/
theorem pop_eq_ok_iff {x : OperandType} :
    pop t = .ok (x, t') ↔
      ∃ rest, Takes t.frame.isUnreachable t.frame.operands [x] rest ∧
        t' = t.withStack rest t.frame.isUnreachable := by
  have hpush : ∀ rest, modifyFrame ({ · with operands := rest }) t
      = .ok ((), t.withStack rest t.frame.isUnreachable) := fun _ => rfl
  rw [pop, get_bind]
  cases hops : t.frame.operands with
  | cons y ys =>
    simp only [bind_eq_ok_iff, hpush, pure_eq_ok_iff, Except.ok.injEq, Prod.mk.injEq]
    constructor
    · rintro ⟨_, _, ⟨-, rfl⟩, rfl, rfl⟩
      exact ⟨ys, .inl rfl, rfl⟩
    · rintro ⟨rest, h | ⟨hd, rfl, k, hk⟩, rfl⟩
      · obtain ⟨rfl, rfl⟩ : y = x ∧ ys = rest := by simpa using h
        exact ⟨(), _, ⟨trivial, rfl⟩, rfl, rfl⟩
      · -- The one operand that is taken is the one that is held.
        have hlen := congrArg List.length hk
        simp only [List.length_append, List.length_replicate, List.length_reverse,
          List.length_cons, List.length_nil] at hlen
        obtain rfl : ys = [] := List.length_eq_zero_iff.1 (by omega)
        obtain rfl : k = 0 := by omega
        obtain rfl : x = y := by simpa using hk
        exact ⟨(), _, ⟨trivial, rfl⟩, rfl, rfl⟩
  | nil =>
    have hstay : t = t.withStack [] t.frame.isUnreachable := by
      rw [← hops]
      rfl
    cases hd : t.frame.isUnreachable with
    | false =>
      refine ⟨fun h => absurd h throw_ne_ok, ?_⟩
      rintro ⟨rest, h | ⟨hd', -⟩, -⟩
      · simp at h
      · exact absurd hd' nofun
    | true =>
      rw [hd] at hstay
      simp only [if_true, pure_eq_ok_iff]
      constructor
      · rintro ⟨rfl, rfl⟩
        exact ⟨[], .inr ⟨rfl, rfl, 1, rfl⟩, hstay⟩
      · rintro ⟨rest, h | ⟨-, rfl, k, hk⟩, rfl⟩
        · simp at h
        · refine ⟨?_, hstay⟩
          have hx : x ∈ List.replicate k none ++ ([] : List OperandType).reverse :=
            hk ▸ List.mem_singleton_self x
          exact (List.eq_of_mem_replicate (by simpa using hx)).symm

/-- An operand that is expected is taken, and matches the type. -/
theorem expect_eq_ok_iff {ty : ValType} {x : OperandType} :
    expect ty t = .ok (x, t') ↔
      OperandType.Matches x (some ty) ∧
        ∃ rest, Takes t.frame.isUnreachable t.frame.operands [x] rest ∧
          t' = t.withStack rest t.frame.isUnreachable := by
  rw [expect, bind_eq_ok_iff, ← pop_eq_ok_iff]
  constructor
  · rintro ⟨y, mid, hpop, h⟩
    cases y with
    | none =>
      obtain ⟨rfl, rfl⟩ := pure_eq_ok_iff.1 h
      exact ⟨.inl rfl, hpop⟩
    | some actual =>
      simp only at h
      split at h
      · next heq =>
        obtain ⟨rfl, rfl⟩ := pure_eq_ok_iff.1 h
        exact ⟨.inr (congrArg some heq), hpop⟩
      · exact absurd h throw_ne_ok
  · rintro ⟨rfl | rfl, hpop⟩
    · exact ⟨none, t', hpop, rfl⟩
    · exact ⟨some ty, t', hpop, by simp [pure_eq_ok_iff]⟩

/-- **Taking operands of given types**: they match, and the rest of the frame stays. -/
theorem expectAll_eq_ok_iff {tys : List ValType} {xs : List OperandType} :
    expectAll tys t = .ok (xs, t') ↔
      MatchAll xs (known tys) ∧
        ∃ rest, Takes t.frame.isUnreachable t.frame.operands xs rest ∧
          t' = t.withStack rest t.frame.isUnreachable := by
  induction tys generalizing t t' xs with
  | nil =>
    rw [expectAll, pure_eq_ok_iff, known, List.map_nil, MatchAll, List.forall₂_nil_right_iff]
    constructor
    · rintro ⟨rfl, rfl⟩
      exact ⟨rfl, _, takes_nil_iff.2 rfl, rfl⟩
    · rintro ⟨rfl, rest, hx, rfl⟩
      obtain rfl := takes_nil_iff.1 hx
      exact ⟨rfl, rfl⟩
  | cons ty tys ih =>
    simp only [expectAll, bind_eq_ok_iff, pure_eq_ok_iff, ih, expect_eq_ok_iff]
    constructor
    · rintro ⟨xs, _, ⟨hxs, mid, hmid, rfl⟩, x, _, ⟨hx, rest, hrest, rfl⟩, rfl, rfl⟩
      exact ⟨.cons hx hxs, rest, takes_append_iff.2 ⟨mid, hmid, hrest⟩, rfl⟩
    · rintro ⟨hm, rest, hrest, rfl⟩
      cases hm with
      | @cons x _ xs _ hx hxs =>
        rw [← List.singleton_append, takes_append_iff] at hrest
        obtain ⟨mid, hmid, hrest⟩ := hrest
        exact ⟨xs, _, ⟨hxs, mid, hmid, rfl⟩, x, _, ⟨hx, rest, hrest, rfl⟩, rfl, rfl⟩

end Check

end WasmEngine
