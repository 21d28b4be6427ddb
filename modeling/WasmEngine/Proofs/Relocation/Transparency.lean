import WasmEngine.Proofs.Framing.Accounting
import WasmEngine.Proofs.Relocation.Code
import WasmEngine.Proofs.Typing.Validity

/-!
# Proofs/Relocation/Transparency — custom sections may be inserted anywhere

A custom section put between two sections of a module changes nothing but where things are: the module
decodes and compiles exactly if it did before, to the relocated module with one more custom section
(`Module.insert_custom`).  Up to the insertion both decode the same sections (`Draft.rest_before`);
behind it the one decodes what the other does, further on (`Draft.rest_behind`).
-/

namespace WasmEngine

/-! ## Two windows -/

/-- The bytes of `v` are those of `w` with others inserted. -/
structure Insertion.Splits (i : Insertion) (w v : Window) : Prop where
  stop_le : w.stop ≤ w.bytes.size
  stop_le_size : v.stop ≤ v.bytes.size
  cut_le : i.cut ≤ w.stop
  stop_eq : v.stop = w.stop + i.count
  before : ∀ p < i.cut, v.get? p = w.get? p
  behind : ∀ p, i.cut ≤ p → v.get? (p + i.count) = w.get? p

namespace Insertion.Splits

variable {i : Insertion} {w v : Window} {pos stop : Nat}

/-- Nothing moves before the insertion. -/
theorem moves_before (h : i.Splits w v) (hpos : pos ≤ stop) (hstop : stop ≤ i.cut) :
    i.Moves 0 { w with stop } { v with stop } pos where
  pos_le := hpos
  stop_le := Nat.le_trans hstop (Nat.le_trans h.cut_le h.stop_le)
  stop_eq := rfl
  stop_le_size := by
    have := h.stop_eq
    have := h.cut_le
    have := h.stop_le_size
    dsimp only
    omega
  get?_eq p _ := by
    rw [Nat.add_zero, Window.get?, Window.get?]
    dsimp only
    split
    · next hlt =>
      have hget := h.before p (Nat.lt_of_lt_of_le hlt hstop)
      have := h.stop_eq
      have := h.cut_le
      rwa [Window.get?, Window.get?, if_pos (by omega), if_pos (by omega)] at hget
    · rfl
  shift_eq _ _ hp := Insertion.shift_of_le (Nat.le_trans hp hstop)

/-- Everything moves behind it. -/
theorem moves_behind (h : i.Splits w v) (hlt : i.cut < pos) (hpos : pos ≤ w.stop) :
    i.Moves i.count w v pos where
  pos_le := hpos
  stop_le := h.stop_le
  stop_eq := h.stop_eq
  stop_le_size := h.stop_le_size
  get?_eq p hp := h.behind p (Nat.le_of_lt (Nat.lt_of_lt_of_le hlt hp))
  shift_eq _ hp _ := Insertion.shift_of_lt (Nat.lt_of_lt_of_le hlt hp)

/-- A part of the window that the insertion does not tear apart is found where its ends are shifted. -/
theorem exists_moves (h : i.Splits w v) (hpos : pos ≤ stop) (hstop : stop ≤ w.stop)
    (hapart : stop ≤ i.cut ∨ i.cut < pos) :
    ∃ k, i.Moves k { w with stop } { v with stop := i.shift stop } pos := by
  obtain hbefore | hbehind := hapart
  · refine ⟨0, ?_⟩
    rw [Insertion.shift_of_le hbefore]
    exact h.moves_before hpos hbefore
  · refine ⟨i.count, ?_⟩
    rw [Insertion.shift_of_lt (Nat.lt_of_lt_of_le hbehind hpos)]
    exact (h.moves_behind hbehind (Nat.le_trans hpos hstop)).cut hpos hstop

end Insertion.Splits

/-- Up to the insertion no custom section has been added. -/
def Relocation.before (ρ : Relocation) : Relocation :=
  { ρ with customs := List.map (CustomSection.shift ρ.toInsertion) }

/-- What becomes of a list of custom sections is decided by the first `n`. -/
def Relocation.SettledAt (ρ : Relocation) (n : Nat) : Prop :=
  ∀ customs c, n ≤ customs.length →
    ρ.customs (customs ++ [c]) = ρ.customs customs ++ [c.shift ρ.toInsertion]

namespace Draft

variable {w v : Window} {pos next n : Nat} {d : Draft} {id : UInt8}
  {todo after : List (UInt8 × (Draft → Reader Draft))} {read content : Draft → Reader Draft}
  {ρ : Relocation}

/-! ## One section -/

/-- A section reaches no further than its length says. -/
theorem Upcoming.cut {b : Sized} (h : Upcoming todo id read after) (hw : w.stop ≤ w.bytes.size)
    (hs : w.Spells pos b.bytes next) : read d w pos = read d { w with stop := next } pos := by
  obtain ⟨-, -, rfl, hnext⟩ := Sized.spells_payload hs
  have hs' := hs.within (Nat.le_refl _)
  have hw' := Nat.le_trans hnext hw
  cases h with
  | custom =>
    rw [customContent, length_bind hw hs, length_bind (w := ⟨w.bytes, _⟩) hw' hs']
    rfl
  | known =>
    rw [sectionContent, length_bind hw hs, length_bind (w := ⟨w.bytes, _⟩) hw' hs']
    refine bind_congr (m := Except Error) fun x => ?_
    change (if _ then _ else _ : Reader Draft) w x.2 = (if _ then _ else _ : Reader Draft) _ x.2
    split <;> rfl

/-- A section ends where its length says. -/
theorem Upcoming.ends {b : Sized} (h : Upcoming todo id read after) (hw : w.stop ≤ w.bytes.size)
    (hs : w.Spells pos b.bytes next) : (read d).Ensures w pos fun _ stop => stop = next := by
  obtain ⟨-, -, rfl, hnext⟩ := Sized.spells_payload hs
  intro d' stop hread
  cases h with
  | custom =>
    rw [customContent, length_bind hw hs] at hread
    obtain ⟨x, _, -, hread⟩ := Reader.bind_eq_ok_iff.1 hread
    obtain ⟨_, _, hseek, hread⟩ := Reader.bind_eq_ok_iff.1 hread
    cases hseek
    exact (Reader.pure_eq_ok_iff.1 hread).2.symm
  | known =>
    rw [sectionContent, length_bind hw hs] at hread
    obtain ⟨d₁, _, -, hread⟩ := Reader.bind_eq_ok_iff.1 hread
    obtain ⟨_, _, hposition, hread⟩ := Reader.bind_eq_ok_iff.1 hread
    obtain ⟨rfl, rfl⟩ := Reader.position_eq_ok_iff.1 hposition
    split at hread
    · exact absurd hread (by rw [Reader.bind_of_eq_error rfl]; simp)
    · next hend =>
      obtain ⟨-, rfl⟩ := Reader.pure_eq_ok_iff.1 hread
      exact Decidable.not_not.1 hend

/-- A custom section is added to those before it, and a known one adds none. -/
theorem Upcoming.length_customSections (h : Upcoming todo id read after) (htodo : todo ⊆ knownSections)
    (d : Draft) : (read d).Ensures w pos fun d' _ =>
      d'.customSections.length = d.customSections.length + if id = 0 then 1 else 0 := by
  cases h with
  | custom =>
    simp only [customContent, Reader.ensures_bind, Reader.ensures_position, Reader.ensures_require,
      Reader.ensures_within, Reader.ensures_seek, Reader.ensures_pure]
    exact Reader.ensures_of_forall fun _ _ _ => Reader.ensures_of_forall fun _ _ =>
      List.length_append
  | known hid _ =>
    have hmem := htodo (List.mem_append_right _ List.mem_cons_self)
    simp only [sectionContent, Reader.ensures_bind, Reader.ensures_position, Reader.ensures_require,
      Reader.ensures_within, Reader.ensures_ite, Reader.ensures_malformed, Reader.ensures_pure,
      implies_true, true_and, if_neg hid, Nat.add_zero]
    exact Reader.ensures_of_forall fun _ _ _ => (customSections_of_mem hmem).mono fun _ _ heq _ =>
      congrArg List.length heq

/-- **A section is read** the same at its new place. -/
theorem Upcoming.relocates (h : Upcoming todo id read after) (htodo : todo ⊆ knownSections)
    (hsettled : ρ.SettledAt n) (hn : n ≤ d.customSections.length) :
    Reader.Relocates ρ.toInsertion (relocate ρ) (read d) (read (d.relocate ρ)) w pos := by
  cases h with
  | custom => exact relocates_customContent fun c => hsettled _ c hn
  | known =>
    exact relocates_sectionContent
      (relocatable_of_mem (htodo (List.mem_append_right _ List.mem_cons_self))) d w pos

/-- Behind a section come sections that might have come instead. -/
theorem Upcoming.subset (h : Upcoming todo id read after) : after ⊆ todo := by
  cases h with
  | custom => exact List.Subset.refl _
  | known => exact fun x hx => List.mem_append_right _ (List.mem_cons_of_mem _ hx)

/-! ## Behind the insertion -/

/-- **What is left behind an insertion** is decoded the same, further on. -/
theorem rest_behind (hsplit : ρ.Splits w v) (hsettled : ρ.SettledAt n) (htodo : todo ⊆ knownSections)
    (hn : n ≤ d.customSections.length) (hpos : ρ.cut ≤ pos) :
    rest todo (d.relocate ρ) v (pos + ρ.count) =
      ρ.outcome (Prod.map (Module.relocate ρ) (· + ρ.count)) (rest todo d w pos) := by
  induction hleft : w.stop - pos using Nat.strong_induction_on generalizing todo d pos with
  | _ left ih =>
    have hget : v.get? (pos + ρ.count) = w.get? pos := hsplit.behind pos hpos
    obtain ⟨id, read, after, hid, hup⟩ | ⟨h0, habsent⟩ := upcoming_or_absent todo (w.get? pos)
    · have hlt := (Window.get?_eq_some_iff.1 hid).1
      rw [rest_of_upcoming hsplit.stop_le hid hup,
        rest_of_upcoming hsplit.stop_le_size (hget.trans hid) hup, Nat.add_right_comm]
      obtain ⟨hmoves, hread⟩ := hup.relocates (w := w) htodo hsettled hn
        (hsplit.moves_behind (Nat.lt_succ_of_le hpos) hlt)
      refine Insertion.outcome_bind hread fun x hx => ?_
      have hnext := (hmoves hx).1
      have hlength := hup.length_customSections htodo d hx
      exact ih (w.stop - x.2) (by omega) (fun s hs => htodo (hup.subset hs)) (by omega) (by omega) rfl
    · rw [rest_of_absent h0 habsent, rest_of_absent (hget.symm ▸ h0) (hget.symm ▸ habsent)]
      exact finish_relocate hget

/-! ## Up to the insertion -/

/-- The result of a reader, without the place where it ends. -/
theorem map_fst_outcome {α β : Type} {i : Insertion} {f : α → β} {k : Nat}
    {x : Except Error (α × Nat)} : (i.outcome (Prod.map f (· + k)) x).map Prod.fst =
      i.outcome f (x.map Prod.fst) := by
  cases x <;> rfl

/-- A section before the insertion is spelled by both. -/
theorem spells_before {bs : List UInt8} (hsplit : ρ.Splits w v) (hs : w.Spells pos bs next)
    (hpos : pos ≤ next) (hnext : next ≤ ρ.cut) : v.Spells pos bs next := by
  have hv := (hsplit.moves_before hpos hnext).spells (hs.within (Nat.le_refl next))
  have hle : next ≤ v.stop := by
    rw [hsplit.stop_eq]
    exact Nat.le_trans hnext (Nat.le_trans hsplit.cut_le (Nat.le_add_right ..))
  exact hv.mono fun p b hb => Window.get?_of_cut hle hb

/-- A section that may not come is refused. -/
theorem finish_of_some (hget : w.get? pos = some id) : d.finish w pos =
    .error (.malformed (if id ≤ 12 then .sectionOutOfOrder else .invalidSectionId)) := by
  have hpeek : Reader.peek? w pos = .ok (some id, pos) := by rw [Reader.peek?, hget]
  rw [finish, Reader.bind_of_eq_ok hpeek]
  rfl

/-- **Up to an insertion** the same sections are decoded, and then the inserted one. -/
theorem rest_before {c : RawSection} {name : String} {data : List UInt8} {pre : List RawSection}
    (hsplit : ρ.Splits w v) (hc : c.IsCustom name data)
    (hv : v.Spells ρ.cut c.bytes (ρ.cut + ρ.count)) (hsettled : ρ.SettledAt n)
    (hcustoms : ∀ customs, customs.length = n → ρ.customs customs =
      customs.map (CustomSection.shift ρ.toInsertion) ++
        [⟨name, ⟨ρ.cut + ρ.count - data.length, ρ.cut + ρ.count⟩⟩])
    (hpre : w.Spells pos (pre.flatMap RawSection.bytes) ρ.cut) (htodo : todo ⊆ knownSections)
    (hn : d.customSections.length + (pre.filter (·.id = 0)).length = n) :
    (rest todo (d.relocate ρ.before) v pos).map Prod.fst =
      ρ.outcome (Module.relocate ρ) ((rest todo d w pos).map Prod.fst) := by
  induction pre generalizing pos todo d with
  | nil =>
    obtain rfl : ρ.cut = pos := hpre
    have hid : v.get? ρ.cut = some 0 := hc.1 ▸ hv.1
    have hlength : d.customSections.length = n := hn
    have hcontent := (customContent_eq_ok_iff (d := d.relocate ρ.before) hsplit.stop_le_size hid).2
      ⟨c, name, data, hc, hv, rfl⟩
    have hadd : (d.relocate ρ.before).addCustoms
        [⟨name, ⟨ρ.cut + ρ.count - data.length, ρ.cut + ρ.count⟩⟩] = d.relocate ρ :=
      congrArg (fun customSections => { d.relocate ρ with customSections })
        (hcustoms _ hlength).symm
    rw [rest_of_custom hsplit.stop_le_size hid, Reader.bind_of_eq_ok hcontent, hadd,
      rest_behind hsplit hsettled htodo (Nat.le_of_eq hlength.symm) (Nat.le_refl _), map_fst_outcome]
  | cons s pre ih =>
    obtain ⟨next, hs, hpre⟩ := Window.spells_append.1 hpre
    have hlt : pos < next := RawSection.pos_lt hs
    have hnext : next ≤ ρ.cut := hpre.stop_eq ▸ Nat.le_add_right ..
    have hsv := spells_before hsplit hs (Nat.le_of_lt hlt) hnext
    obtain ⟨_, read, after, ⟨⟩, hup⟩ | ⟨h0, habsent⟩ := upcoming_or_absent todo (some s.id)
    · rw [rest_of_upcoming hsplit.stop_le hs.1 hup, rest_of_upcoming hsplit.stop_le_size hsv.1 hup]
      have hread := (hup.relocates (d := d) (ρ := ρ.before) (n := 0) htodo
        (fun _ _ _ => List.map_append) (Nat.zero_le _) (hsplit.moves_before hlt hnext)).2
      rw [Nat.add_zero, ← hup.cut hsplit.stop_le hs.2, ← hup.cut hsplit.stop_le_size hsv.2] at hread
      cases hrun : read d w (pos + 1) with
      | error e =>
        rw [hrun] at hread
        rw [Reader.bind_of_eq_error hrun, Reader.bind_of_eq_error hread]
        rfl
      | ok x =>
        obtain ⟨d', stop⟩ := x
        obtain rfl := hup.ends hsplit.stop_le hs.2 hrun
        have hlength := hup.length_customSections htodo d hrun
        rw [hrun] at hread
        rw [Reader.bind_of_eq_ok hrun, Reader.bind_of_eq_ok hread]
        refine ih hpre (fun x hx => htodo (hup.subset hx)) ?_
        by_cases hid : s.id = 0
        · rw [List.filter_cons_of_pos (by simpa using hid), List.length_cons] at hn
          rw [hlength, if_pos hid]
          omega
        · rw [List.filter_cons_of_neg (by simpa using hid)] at hn
          rw [hlength, if_neg hid, Nat.add_zero, hn]
    · have hne (u : Window) (hu : u.get? pos = some s.id) :
          u.get? pos ≠ some 0 ∧ ∀ x ∈ todo, u.get? pos ≠ some x.1 := hu ▸ ⟨h0, habsent⟩
      rw [rest_of_absent (hne w hs.1).1 (hne w hs.1).2, rest_of_absent (hne v hsv.1).1 (hne v hsv.1).2,
        finish_of_some hs.1, finish_of_some hsv.1]
      rfl

end Draft

/-! ## Modules with a section inserted -/

/-- The bytes of a module with the given sections, and whatever comes behind them. -/
def Module.image (sections : List RawSection) (rest : List UInt8) : ByteArray :=
  ⟨(magic ++ version ++ (sections.flatMap RawSection.bytes ++ rest)).toArray⟩

/-- A section `c` is inserted behind the sections `pre`. -/
def RawSection.insertion (pre : List RawSection) (c : RawSection) : Insertion :=
  ⟨8 + (pre.flatMap RawSection.bytes).length, c.bytes.length⟩

/-- What inserting a custom section between `pre` and `rest` does to a module: there is an entry for it
behind those of the custom sections of `pre`. -/
def RawSection.relocation (pre : List RawSection) (c : RawSection) (name : String)
    (data rest : List UInt8) : Relocation :=
  let i := c.insertion pre
  { i with
    bytes := Module.image (pre ++ [c]) rest
    customs := fun customs =>
      let n := (pre.filter (·.id = 0)).length
      (customs.take n).map (CustomSection.shift i) ++
        ⟨name, ⟨i.cut + i.count - data.length, i.cut + i.count⟩⟩ ::
          (customs.drop n).map (CustomSection.shift i) }

section Image

variable {pre first second : List RawSection} {c s : RawSection} {name : String}
  {data rest : List UInt8} {w : Window} {pos cut stop next next' : Nat}

theorem Window.get?_ofBytes (bs : List UInt8) (p : Nat) :
    (Window.ofBytes ⟨bs.toArray⟩).get? p = bs[p]? := by
  have hget : (⟨bs.toArray⟩ : ByteArray)[p]? = bs[p]? := by
    rw [getElem?_eq_head?_drop, List.head?_drop]
  rw [get?, ofBytes, hget]
  split
  · rfl
  · next hle => exact (List.getElem?_eq_none (by simpa [ByteArray.size] using hle)).symm

theorem Module.spells_image :
    (Window.ofBytes (image pre rest)).Spells 0 (magic ++ version) 8 ∧
      (Window.ofBytes (image pre rest)).Spells 8 (pre.flatMap RawSection.bytes)
        (8 + (pre.flatMap RawSection.bytes).length) :=
  ⟨@Window.spells_ofBytes [] (magic ++ version) _, @Window.spells_ofBytes (magic ++ version) _ rest⟩

/-- Bytes inserted between others split them. -/
theorem Insertion.splits_append (xs bs ys : List UInt8) :
    Splits ⟨xs.length, bs.length⟩ (.ofBytes ⟨(xs ++ ys).toArray⟩)
      (.ofBytes ⟨(xs ++ (bs ++ ys)).toArray⟩) where
  stop_le := Nat.le_refl _
  stop_le_size := Nat.le_refl _
  cut_le := by simp [Window.ofBytes, ByteArray.size]
  stop_eq := by
    simp only [Window.ofBytes, ByteArray.size, List.size_toArray, List.length_append]
    omega
  before p hp := by
    rw [Window.get?_ofBytes, Window.get?_ofBytes, List.getElem?_append_left hp,
      List.getElem?_append_left hp]
  behind p hp := by
    change xs.length ≤ p at hp
    change (Window.ofBytes _).get? (p + bs.length) = _
    have hindex : p + bs.length - xs.length - bs.length = p - xs.length := by omega
    rw [Window.get?_ofBytes, Window.get?_ofBytes, List.getElem?_append_right hp,
      List.getElem?_append_right (by omega), List.getElem?_append_right (by omega), hindex]

theorem RawSection.splits : (c.insertion pre).Splits (.ofBytes (Module.image pre rest))
    (.ofBytes (Module.image (pre ++ [c]) rest)) := by
  have hpre : Module.image pre rest =
      ⟨(Module.magic ++ Module.version ++ pre.flatMap bytes ++ rest).toArray⟩ := by
    rw [Module.image, List.append_assoc (Module.magic ++ Module.version)]
  have hall : Module.image (pre ++ [c]) rest =
      ⟨(Module.magic ++ Module.version ++ pre.flatMap bytes ++ (c.bytes ++ rest)).toArray⟩ := by
    simp [Module.image]
  have hinsertion : c.insertion pre =
      ⟨(Module.magic ++ Module.version ++ pre.flatMap bytes).length, c.bytes.length⟩ := by
    rw [insertion, List.length_append]
    rfl
  rw [hpre, hall, hinsertion]
  exact Insertion.splits_append _ _ _

/-- The inserted section stands where it has been put. -/
theorem RawSection.spells_inserted : (Window.ofBytes (Module.image (pre ++ [c]) rest)).Spells
    (c.insertion pre).cut c.bytes ((c.insertion pre).cut + (c.insertion pre).count) := by
  have hall : (Window.ofBytes (Module.image (pre ++ [c]) rest)).Spells 8
      ((pre ++ [c]).flatMap RawSection.bytes) _ := Module.spells_image.2
  rw [List.flatMap_append, List.flatMap_singleton, List.length_append, ← Nat.add_assoc] at hall
  obtain ⟨mid, hpre, hc⟩ := Window.spells_append.1 hall
  obtain rfl := hpre.stop_eq
  exact hc

/-- What becomes of the custom sections is decided by those of `pre`. -/
theorem RawSection.relocation_settledAt :
    (c.relocation pre name data rest).SettledAt (pre.filter (·.id = 0)).length := by
  intro customs x hle
  change List.map _ (List.take _ _) ++ _ :: List.map _ (List.drop _ _) = _
  rw [List.take_append_of_le_length hle, List.drop_append_of_le_length hle, List.map_append,
    ← List.cons_append, ← List.append_assoc]
  rfl

/-- Behind the custom sections of `pre` comes the inserted one. -/
theorem RawSection.relocation_customs {customs : List CustomSection}
    (h : customs.length = (pre.filter (·.id = 0)).length) :
    (c.relocation pre name data rest).customs customs =
      customs.map (CustomSection.shift (c.insertion pre)) ++
        [⟨name, ⟨(c.insertion pre).cut + (c.insertion pre).count - data.length,
          (c.insertion pre).cut + (c.insertion pre).count⟩⟩] := by
  change List.map _ (List.take _ _) ++ _ :: List.map _ (List.drop _ _) = _
  rw [List.take_of_length_le (Nat.le_of_eq h), List.drop_of_length_le (Nat.le_of_eq h)]
  rfl

/-- Sections that start at one place end at one place. -/
theorem RawSection.end_unique {s' : RawSection} (hw : w.stop ≤ w.bytes.size)
    (h : w.Spells pos s.bytes next) (h' : w.Spells pos s'.bytes next') : next = next' := by
  obtain ⟨hlength, -, rfl, -⟩ := Sized.spells_payload h.2
  obtain ⟨hlength', -, rfl, -⟩ := Sized.spells_payload h'.2
  have hread := (Reader.accepts_u32 hw).2 ⟨_, hlength, s.encodes⟩
  have hread' := (Reader.accepts_u32 hw).2 ⟨_, hlength', s'.encodes⟩
  obtain ⟨hpayload, hstart⟩ := Prod.mk.inj (Except.ok.inj (hread.symm.trans hread'))
  rw [hpayload, hstart]

/-- Where some sections end is between the sections that there are. -/
theorem RawSection.boundary (hw : w.stop ≤ w.bytes.size)
    (hpre : w.Spells pos (pre.flatMap bytes) cut)
    (hall : w.Spells pos ((first ++ s :: second).flatMap bytes) stop) :
    cut ≤ pos + (first.flatMap bytes).length ∨
      pos + (first.flatMap bytes).length + s.bytes.length ≤ cut := by
  induction first generalizing pos pre with
  | nil =>
    cases pre with
    | nil =>
      obtain rfl : cut = pos := hpre
      exact .inl (Nat.le_add_right ..)
    | cons x pre =>
      obtain ⟨next, hx, hpre⟩ := Window.spells_append.1 hpre
      obtain ⟨next', hs, -⟩ := Window.spells_append.1 hall
      obtain rfl := end_unique hw hx hs
      obtain rfl := hs.stop_eq
      exact .inr (hpre.stop_eq ▸ Nat.le_add_right ..)
  | cons y first ih =>
    cases pre with
    | nil =>
      obtain rfl : cut = pos := hpre
      exact .inl (Nat.le_add_right ..)
    | cons x pre =>
      obtain ⟨next, hx, hpre⟩ := Window.spells_append.1 hpre
      obtain ⟨next', hy, hall⟩ := Window.spells_append.1 hall
      obtain rfl := end_unique hw hx hy
      obtain rfl := hy.stop_eq
      rw [List.flatMap_cons, List.length_append, ← Nat.add_assoc]
      exact ih hpre hall

end Image

namespace Module

variable {pre : List RawSection} {c : RawSection} {name : String} {data rest : List UInt8} {m : Module}

/-- **A decoded module with a custom section inserted** is the relocated module. -/
theorem decode_image (hc : c.IsCustom name data) :
    let ρ := c.relocation pre name data rest
    decode (image (pre ++ [c]) rest) = ρ.outcome (relocate ρ) (decode (image pre rest)) := by
  intro ρ
  have hsplit : ρ.Splits (.ofBytes (image pre rest)) (.ofBytes (image (pre ++ [c]) rest)) :=
    RawSection.splits
  have hheader (sections : List RawSection) :
      header (.ofBytes (image sections rest)) 0 = .ok ((), 8) :=
    (header_eq_ok_iff (Nat.le_refl _)).2 ⟨spells_image.1, rfl⟩
  have hdraft : ({ bytes := image pre rest } : Draft).relocate ρ.before =
      { bytes := image (pre ++ [c]) rest } := by
    simp [Draft.relocate, relocate, Relocation.before, ρ, RawSection.relocation]
  rw [decode_eq, decode_eq, Reader.bind_of_eq_ok (hheader _), Reader.bind_of_eq_ok (hheader _),
    ← hdraft]
  exact Draft.rest_before hsplit hc RawSection.spells_inserted RawSection.relocation_settledAt
    (fun _ => RawSection.relocation_customs) spells_image.2 (List.Subset.refl _) (Nat.zero_add _)

/-- Every body is in front of the inserted section or behind it. -/
theorem body_apart (hm : decode (image pre rest) = .ok m) {func : Nat} {f : Function}
    (hf : m.functions[func]? = some f) (hfunc : m.importedCount ≤ func) :
    f.body.start ≤ f.body.stop ∧ f.body.stop ≤ (image pre rest).size ∧
      (f.body.stop ≤ (c.insertion pre).cut ∨ (c.insertion pre).cut < f.body.start) := by
  have hw : (Window.ofBytes (image pre rest)).stop ≤ (Window.ofBytes (image pre rest)).bytes.size :=
    Nat.le_refl _
  have hlt := (Array.getElem?_eq_some_iff.1 hf).1
  obtain ⟨sections, d, -, htiles, rfl, hcount⟩ := decode_tiles hm
  obtain ⟨-, hsize⟩ | ⟨first, s, second, count, bodies, rfl, -, -, hpayload, hsize, hhave⟩ :=
    htiles.code hw rfl hcount
  · omega
  · obtain ⟨hstart, hle, hstop⟩ := hhave.within hf hfunc (by omega)
    have hboundary := RawSection.boundary hw spells_image.2 htiles.spells
    have hend := htiles.spells.stop_eq
    have hlength : s.bytes.length = 1 + (s.length.length + s.payload.length) := by
      rw [RawSection.bytes, List.length_cons, Sized.bytes, List.length_append, Nat.add_comm]
    rw [List.flatMap_append, List.flatMap_cons, List.length_append, List.length_append] at hend
    rw [hpayload, List.length_append] at hlength
    simp only [RawSection.payloadAt, Sized.payloadAt] at hstart hstop
    simp only [RawSection.insertion]
    omega

/-- **Custom sections are transparent.**  With a custom section between `pre` and `rest` the bytes decode
and compile as they do without it: to the relocated module, or to the same failure at the relocated
instruction. -/
theorem insert_custom (pre : List RawSection) (rest : List UInt8) (hc : c.IsCustom name data) :
    let ρ := c.relocation pre name data rest
    decode (image (pre ++ [c]) rest) = ρ.outcome (relocate ρ) (decode (image pre rest)) ∧
      compile (image (pre ++ [c]) rest) = ρ.outcome (relocate ρ) (compile (image pre rest)) := by
  intro ρ
  refine ⟨decode_image hc, Insertion.outcome_bind (decode_image hc) fun m hm => ?_⟩
  refine validate_relocate fun func hfunc hlt => ?_
  have hf := Array.getElem?_eq_getElem hlt
  obtain ⟨hle, hstop, hapart⟩ := body_apart (c := c) hm hf hfunc
  have hbytes : m.bytes = image pre rest := (decode_sound hm).2.1
  have hsplit : ρ.Splits (.ofBytes (image pre rest)) (.ofBytes (image (pre ++ [c]) rest)) :=
    RawSection.splits
  rw [← hbytes] at hsplit hstop
  obtain ⟨k, hmoves⟩ := hsplit.exists_moves hle hstop hapart
  exact validateFunction_relocate hf hmoves

/-- The types of `sampleBytes`. -/
def sampleTypes : RawSection where
  id := 1
  length := [6]
  payload := [0x01, 0x60, 0x01, 0x7f, 0x01, 0x7f]
  encodes := ⟨show (6 : Nat) < 128 by decide, by decide, by decide, by decide⟩

/-- What comes behind the types in `sampleBytes`. -/
def sampleRest : List UInt8 := sampleBytes.data.toList.drop 16

/-- A custom section named `a` with one byte of data. -/
def noteA : RawSection where
  id := 0
  length := [3]
  payload := [0x01, 0x61, 0xff]
  encodes := ⟨show (3 : Nat) < 128 by decide, by decide, by decide, by decide⟩

/-- A custom section named `b` with nothing in it. -/
def noteB : RawSection where
  id := 0
  length := [2]
  payload := [0x01, 0x62]
  encodes := ⟨show (2 : Nat) < 128 by decide, by decide, by decide, by decide⟩

theorem noteA_isCustom : noteA.IsCustom "a" [0xff] :=
  ⟨rfl, [0x01, 0x61],
    ⟨[0x01], [0x61], rfl, ⟨show (1 : Nat) < 128 by decide, by decide, by decide, by decide⟩,
      by decide⟩, rfl⟩

theorem noteB_isCustom : noteB.IsCustom "b" [] :=
  ⟨rfl, [0x01, 0x62],
    ⟨[0x01], [0x62], rfl, ⟨show (1 : Nat) < 128 by decide, by decide, by decide, by decide⟩,
      by decide⟩, rfl⟩

/-- The sample with a custom section behind its types: the body and the block in it are five bytes
further on. -/
theorem insert_custom_sample : noteA.IsCustom "a" [0xff] ∧
    image [sampleTypes] sampleRest = sampleBytes ∧
    compile (image ([sampleTypes] ++ [noteA]) sampleRest) = .ok { compiledSample with
      bytes := image ([sampleTypes] ++ [noteA]) sampleRest
      functions := sample.functions.map fun f => { f with body := ⟨37, 47⟩ }
      customSections := [⟨"a", ⟨20, 21⟩⟩]
      sideTable := some
        [(39, { body := 41, elseBody := some 44, stop := 46, paramCount := 0, resultCount := 1 })] } := by
  have himage : image [sampleTypes] sampleRest = sampleBytes := rfl
  refine ⟨noteA_isCustom, himage, ?_⟩
  rw [(insert_custom [sampleTypes] sampleRest noteA_isCustom).2, himage, compile_sampleBytes]
  cbv

/-- **What ends where a custom section is inserted stays as it is**: its end is not behind the insertion,
though it is at it. -/
theorem end_at_cut_stays : noteB.IsCustom "b" [] ∧ ∃ m m', decode (image [noteA] []) = .ok m ∧
    decode (image ([noteA] ++ [noteB]) []) = .ok m' ∧
    (noteB.insertion [noteA]).cut = 13 ∧ noteB.bytes.length = 4 ∧
    m.customSections = [⟨"a", ⟨12, 13⟩⟩] ∧
    m'.customSections = [⟨"a", ⟨12, 13⟩⟩, ⟨"b", ⟨17, 17⟩⟩] ∧
    ⟨"a", ⟨12, 13 + noteB.bytes.length⟩⟩ ∉ m'.customSections := by
  refine ⟨noteB_isCustom, { bytes := image [noteA] [], customSections := [⟨"a", ⟨12, 13⟩⟩] },
    { bytes := image ([noteA] ++ [noteB]) [],
      customSections := [⟨"a", ⟨12, 13⟩⟩, ⟨"b", ⟨17, 17⟩⟩] }, ?_, ?_, rfl, rfl, rfl, rfl, by decide⟩
  · decide +kernel
  · decide +kernel

end Module

end WasmEngine
