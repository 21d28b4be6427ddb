import Mathlib.Data.Nat.Init
import WasmEngine.Proofs.Encoding.Stages

/-!
# Proofs/Encoding/RoundTrip — decoding undoes encoding

The bytes of a valid module are read section after section (`Source.IsValid.read_sections`), so that
decoding gives the module back, with all parts in their order: `Source.IsValid.decode_encode`.  What
it records as places are the places at which the bytes of those parts stand
(`Source.RecordsPlaces`).
-/

namespace WasmEngine

/-- What a reader leaves is all that the next one knows of it. -/
theorem Reader.bind_eq_of_eq {α β γ : Type} {r : Reader α} {f : α → Reader β} {q : Reader β}
    {g : β → Reader γ} {w : Window} {pos pos' : Nat} (h : (r >>= f) w pos = q w pos') :
    (r >>= fun a => f a >>= g) w pos = (q >>= g) w pos' := by
  rw [← bind_assoc]
  change ((r >>= f) w pos >>= fun x => g x.1 w x.2) = (q w pos' >>= fun x => g x.1 w x.2)
  rw [h]

theorem Window.stop_ofBytes_le (bytes : ByteArray) :
    (Window.ofBytes bytes).stop ≤ (Window.ofBytes bytes).bytes.size := Nat.le_refl _

/-- A segment of bytes is spelled where it stands. -/
theorem Window.spells_ofBytes {xs bs ys : List UInt8} :
    (Window.ofBytes ⟨(xs ++ (bs ++ ys)).toArray⟩).Spells xs.length bs (xs.length + bs.length) := by
  have hstop : (Window.ofBytes ⟨(xs ++ (bs ++ ys)).toArray⟩).stop =
      xs.length + (bs.length + ys.length) := by
    simp [Window.ofBytes, ByteArray.size]
  refine (Window.spells_iff_extract (Window.stop_ofBytes_le _) (by omega)).2
    ⟨Nat.le_add_right .., by omega, ?_⟩
  rw [toList_extract_eq]
  simp [Window.ofBytes]

namespace Source

open Encoding

variable {M : Source}

/-! ## Where the sections stand -/

/-- The bytes of a module. -/
abbrev window (M : Source) : Window := .ofBytes M.encode

/-- The last gap ends the bytes. -/
theorem stop_window : M.window.stop = M.offset 12 := by
  simp [window, Window.ofBytes, encode, offset, ByteArray.size]

/-- More sections stand behind fewer ones. -/
theorem upTo_append {k n : Nat} (h : k ≤ n) : ∃ rest, M.upTo n = M.upTo k ++ rest := by
  induction n, h using Nat.le_induction with
  | base => exact ⟨[], (List.append_nil _).symm⟩
  | succ n _ ih =>
    obtain ⟨rest, hrest⟩ := ih
    exact ⟨rest ++ (M.sectionBytes n ++ M.gapBytes (n + 1)), by
      rw [upTo, hrest, List.append_assoc]⟩

/-- A gap ends where it has started and its bytes go on. -/
theorem offset_succ (k : Nat) :
    M.offset (k + 1) = M.gapStart (k + 1) + (M.gapBytes (k + 1)).length := by
  rw [offset, upTo, List.length_append, List.length_append, gapStart, offset, Nat.add_assoc]

/-- **A section and the custom sections behind it stand in their places.** -/
theorem spells_section {k : Nat} (hk : k < 12) :
    M.window.Spells (M.offset k) (M.sectionBytes k) (M.gapStart (k + 1)) ∧
      M.window.Spells (M.gapStart (k + 1)) (M.gapBytes (k + 1)) (M.offset (k + 1)) := by
  obtain ⟨rest, hrest⟩ := upTo_append (M := M) (Nat.succ_le_of_lt hk)
  have hboth : M.window.Spells (M.offset k) (M.sectionBytes k ++ M.gapBytes (k + 1))
      (M.offset k + (M.sectionBytes k ++ M.gapBytes (k + 1)).length) := by
    rw [window, encode, hrest, upTo, List.append_assoc]
    exact Window.spells_ofBytes
  obtain ⟨mid, hsection, hgap⟩ := Window.spells_append.1 hboth
  obtain rfl : mid = M.gapStart (k + 1) := hsection.stop_eq
  have hnext := hgap.stop_eq
  rw [← offset_succ] at hnext
  exact ⟨hsection, hnext ▸ hgap⟩

/-- Magic number and version come first, and then the first gap. -/
theorem spells_header : M.window.Spells 0 (Module.magic ++ Module.version) (M.gapStart 0) ∧
    M.window.Spells (M.gapStart 0) (M.gapBytes 0) (M.offset 0) := by
  obtain ⟨rest, hrest⟩ := upTo_append (M := M) (Nat.zero_le 12)
  have hboth : M.window.Spells 0 (M.upTo 0) (0 + (M.upTo 0).length) := by
    rw [window, encode, hrest]
    exact @Window.spells_ofBytes [] (M.upTo 0) rest
  obtain ⟨mid, hheader, hgap⟩ := Window.spells_append.1 hboth
  obtain rfl : mid = M.gapStart 0 := hheader.stop_eq
  rw [Nat.zero_add] at hgap
  exact ⟨hheader, hgap⟩

/-- A section that is there is spelled as its identifier, its size and its content. -/
theorem sectionBytes_of_some {k : Nat} {id : UInt8} {content : List UInt8}
    (hid : ids[k]? = some id) (h : M.payload k = some content) :
    M.sectionBytes k = id :: sized content := by
  rw [sectionBytes, h, List.getD_eq_getElem?_getD, hid]
  rfl

/-- A section that is not there takes no bytes. -/
theorem gapStart_of_none {k : Nat} (h : M.payload k = none) : M.gapStart (k + 1) = M.offset k := by
  rw [gapStart, sectionBytes, h]
  rfl

/-- The ids are all different, and none of them is that of custom sections. -/
theorem ids_ne {k : Nat} (hk : k < 12) : ∃ id, ids[k]? = some id ∧ id ≠ 0 ∧
    ∀ i < k, ids[i]? ≠ some id := by
  revert k
  decide

/-! ## Reading the sections -/

/-- The custom sections in front of a section are skipped. -/
theorem IsValid.skip_gap (h : M.IsValid) {k : Nat} (hk : k ≤ 12) (d : Draft) :
    Draft.skipCustomSections d M.window (M.gapStart k) = Draft.skipCustomSections
      (d.addCustoms (place Custom.bytes Custom.record (M.gapStart k) (M.customs k)))
      M.window (M.offset k) := by
  refine Draft.skip_customs (Window.stop_ofBytes_le _) ?_ (h.customLength_lt k hk)
  cases k with
  | zero => exact spells_header.2
  | succ k => exact (spells_section hk).2

/-- What follows custom sections is neither another one nor a section whose place is over. -/
theorem IsValid.exists_skip (h : M.IsValid) {k : Nat} (hk : k ≤ 12) (d : Draft) :
    ∃ d' pos, Draft.skipCustomSections d M.window (M.offset k) = .ok (d', pos) ∧
      M.window.get? pos ≠ some 0 ∧ ∀ i < k, ∀ id ∈ ids[i]?, M.window.get? pos ≠ some id := by
  induction hk using Nat.decreasingInduction generalizing d with
  | self =>
    have hend : M.window.get? (M.offset 12) = none := by
      rw [Window.get?, if_neg (by rw [stop_window]; exact Nat.lt_irrefl _)]
    refine ⟨d, M.offset 12, Draft.skipCustomSections_of_ne (by simp [hend]), ?_, ?_⟩ <;> simp [hend]
  | of_succ k hk ih =>
    cases hpayload : M.payload k with
    | some content =>
      obtain ⟨id, hid, h0, hne⟩ := ids_ne hk
      have hs := (spells_section (M := M) hk).1
      rw [sectionBytes_of_some hid hpayload] at hs
      replace h0 : M.window.get? (M.offset k) ≠ some 0 := by
        rw [hs.1]
        exact fun heq => h0 (Option.some.inj heq)
      refine ⟨d, M.offset k, Draft.skipCustomSections_of_ne h0, h0, fun i hi id' hid' => ?_⟩
      rw [hs.1]
      exact fun heq => hne i hi (heq ▸ hid')
    | none =>
      rw [← gapStart_of_none hpayload, h.skip_gap hk]
      obtain ⟨d', pos, hskip, h0, hne⟩ := ih _
      exact ⟨d', pos, hskip, h0, fun i hi => hne i (Nat.lt_succ_of_lt hi)⟩

/-- **A section and the custom sections behind it** lead from one draft to the next. -/
theorem IsValid.read_section (h : M.IsValid) {k : Nat} {id : UInt8} {content : Draft → Reader Draft}
    (hk : Draft.knownSections[k]? = some (id, content)) :
    (Draft.skipCustomSections (M.draft k (M.customSections k)) >>= Draft.knownSection id content)
        M.window (M.gapStart k) =
      Draft.skipCustomSections (M.draft (k + 1) (M.customSections (k + 1))) M.window
        (M.gapStart (k + 1)) := by
  obtain ⟨hstage, hid⟩ := h.stage hk
  have hlt : k < 12 := (List.getElem?_eq_some_iff.1 hk).1
  let customs := M.customSections (k + 1)
  -- The custom sections in front of the section belong to the draft.
  have hgap : Draft.skipCustomSections (M.draft k (M.customSections k)) M.window (M.gapStart k) =
      Draft.skipCustomSections (M.draft k customs) M.window (M.offset k) :=
    h.skip_gap (Nat.le_of_lt hlt) _
  cases hpayload : M.payload k with
  | some content =>
    have hs := (spells_section (M := M) hlt).1
    rw [sectionBytes_of_some hid hpayload] at hs
    have h0 : M.window.get? (M.offset k) ≠ some 0 := by
      rw [hs.1]
      rintro ⟨⟩
      exact absurd (List.mem_of_getElem? hid) (by decide)
    have hstart : M.contentStart k = Draft.contentAt (M.offset k) content.length := by
      rw [contentStart, hpayload]
      rfl
    have hread := hstage.present content hpayload customs
      { M.window with stop := M.gapStart (k + 1) }
    rw [Reader.bind_of_eq_ok (hgap.trans (Draft.skipCustomSections_of_ne h0)),
      Draft.knownSection_of_spells (Window.stop_ofBytes_le _) hs (h.length_lt k content hpayload)
        (hstart ▸ hread)]
  | none =>
    have hempty := gapStart_of_none hpayload
    obtain ⟨d, pos, hskip, h0, hne⟩ := h.exists_skip (Nat.succ_le_of_lt hlt)
      ((M.draft k customs).addCustoms
        (place Custom.bytes Custom.record (M.gapStart (k + 1)) (M.customs (k + 1))))
    rw [← h.skip_gap (Nat.succ_le_of_lt hlt), hempty] at hskip
    rw [Reader.bind_of_eq_ok (hgap.trans hskip), hstage.absent hpayload, hempty,
      Draft.knownSection_of_absent (hne k (Nat.lt_succ_self k) id hid), hskip]
    exact Draft.skipCustomSections_of_ne h0

/-- **All sections are read**, one after the other. -/
theorem IsValid.read_sections (h : M.IsValid) {k : Nat} (hk : k ≤ 12) :
    (Draft.skipCustomSections (M.draft k (M.customSections k)) >>=
      (Draft.knownSections.drop k).foldlM fun d (id, content) => Draft.knownSection id content d)
        M.window (M.gapStart k) = .ok (M.draft 12 (M.customSections 13), M.offset 12) := by
  induction hk using Nat.decreasingInduction with
  | self =>
    have hend : M.window.get? (M.offset 12) = none := by
      rw [Window.get?, if_neg (by rw [stop_window]; exact Nat.lt_irrefl _)]
    have hskip : Draft.skipCustomSections (M.draft 12 (M.customSections 12)) M.window
        (M.gapStart 12) = .ok (M.draft 12 (M.customSections 13), M.offset 12) :=
      (h.skip_gap (Nat.le_refl _) _).trans (Draft.skipCustomSections_of_ne (by simp [hend]))
    rw [Reader.bind_of_eq_ok hskip]
    rfl
  | of_succ k hk ih =>
    obtain ⟨⟨id, content⟩, hget⟩ : ∃ s, Draft.knownSections[k]? = some s :=
      ⟨_, List.getElem?_eq_getElem hk⟩
    have hdrop : Draft.knownSections.drop k = (id, content) :: Draft.knownSections.drop (k + 1) := by
      rw [List.drop_eq_getElem_cons hk]
      congr 1
      exact Option.some.inj ((List.getElem?_eq_getElem hk).symm.trans hget)
    rw [hdrop]
    refine Eq.trans ?_ ih
    exact Reader.bind_eq_of_eq (h.read_section hget)

/-! ## The whole module -/

/-- Magic number and version are read. -/
theorem read_header : Module.header M.window 0 = .ok ((), 8) := by
  have hs := (spells_header (M := M)).1
  have hstop : 8 ≤ M.window.stop := hs.stop_le (Nat.zero_le _)
  obtain ⟨mid, hmagic, hversion⟩ := Window.spells_append.1 hs
  obtain rfl : mid = 4 := hmagic.stop_eq
  have hmagic := ((Window.spells_iff_extract (Window.stop_ofBytes_le _) (Nat.zero_le _)).1 hmagic).2.2
  have hversion := ((Window.spells_iff_extract (w := M.window) (Window.stop_ofBytes_le _)
    (by omega)).1 hversion).2.2
  have hwindow : (read : Reader Window) M.window 0 = .ok (M.window, 0) := rfl
  have hrequire {n : Nat} (hn : n ≤ 8) : Reader.require n M.window 0 = .ok ((), 0) :=
    if_pos (by omega)
  rw [Module.header, Reader.bind_of_eq_ok hwindow, Reader.bind_of_eq_ok (hrequire (by decide)),
    if_neg (fun hne => hne hmagic)]
  refine (Reader.bind_of_eq_ok (hrequire (Nat.le_refl 8))).trans ?_
  rw [if_neg (fun hne => hne hversion)]
  rfl

/-- Behind the last gap no byte is left, and all that was announced has come. -/
theorem read_finish :
    (M.draft 12 (M.customSections 13)).finish M.window (M.offset 12) =
      .ok (M.toModule, M.offset 12) := by
  have hend : M.window.get? (M.offset 12) = none := by
    rw [Window.get?, if_neg (by rw [stop_window]; exact Nat.lt_irrefl _)]
  have hpeek : Reader.peek? M.window (M.offset 12) = .ok (none, M.offset 12) := by
    rw [Reader.peek?, hend]
  have hmodule : (M.draft 12 (M.customSections 13)).toModule = M.toModule := by
    simp [draft, toModule]
  have hcount : (M.draft 12 (M.customSections 13)).importedCount = M.importedFunctions.length := by
    refine Draft.importedCount_of_functions M.definedFunctions ?_
      (fun f hf => isSome_imported hf) fun f hf => ?_
    · rw [hmodule]
      rfl
    · have himported : f.imported ∈ M.definedFunctions.map Function.imported :=
        List.mem_map_of_mem hf
      rw [definedFunctions, map_place (k := fun _ => none) (by intros; rfl)] at himported
      obtain ⟨-, -, hnone⟩ := List.mem_map.1 himported
      exact hnone.symm
  have hbodies : (M.draft 12 (M.customSections 13)).functions.size -
      (M.draft 12 (M.customSections 13)).importedCount =
        (M.draft 12 (M.customSections 13)).bodyCount := by
    rw [hcount]
    simp [draft, definedFunctions]
  have hdata : (M.draft 12 (M.customSections 13)).dataCount.getD
      (M.draft 12 (M.customSections 13)).dataSegments.length =
        (M.draft 12 (M.customSections 13)).dataSegments.length := by
    simp only [draft]
    split <;> simp
  rw [Draft.finish, Reader.bind_of_eq_ok hpeek]
  simp only [hbodies, hdata, ne_eq, not_true, if_false]
  rw [hmodule]
  rfl

theorem IsValid.decode_eq (h : M.IsValid) : Module.decode M.encode = .ok M.toModule := by
  have hstart : M.draft 0 (M.customSections 0) = { bytes := M.encode } := rfl
  have hsections : Draft.sections { bytes := M.encode } M.window 8 =
      .ok (M.draft 12 (M.customSections 13), M.offset 12) := hstart ▸ h.read_sections (Nat.zero_le 12)
  have hread : (do
      Module.header
      let d ← Draft.sections { bytes := M.encode }
      d.finish : Reader Module) M.window 0 = .ok (M.toModule, M.offset 12) := by
    rw [Reader.bind_of_eq_ok read_header, Reader.bind_of_eq_ok hsections, read_finish]
  rw [Module.decode]
  simp only [Reader.runAt]
  rw [hread]

/-! ## Places -/

/-- The bytes stand at a position of the encoding. -/
def StandAt (M : Source) (bs : List UInt8) (pos : Nat) : Prop :=
  M.window.Spells pos bs (pos + bs.length)

theorem standAt_of_spells {bs : List UInt8} {pos next : Nat} (h : M.window.Spells pos bs next) :
    M.StandAt bs pos := by
  rw [StandAt, ← h.stop_eq]
  exact h

/-- **The records of items tell where they stand.** -/
theorem forall₂_place {α β : Type} {f : α → List UInt8} {record : Nat → α → β} {as : List α}
    {pos : Nat} (h : M.StandAt (as.flatMap f) pos) :
    List.Forall₂ (fun a b => ∃ p, b = record p a ∧ M.StandAt (f a) p) as
      (place f record pos as) := by
  induction as generalizing pos with
  | nil => exact .nil
  | cons a as ih =>
    obtain ⟨mid, ha, has⟩ := Window.spells_append.1 h
    obtain rfl := ha.stop_eq
    refine .cons ⟨pos, rfl, ha⟩ (ih ?_)
    rw [List.flatMap_cons, List.length_append, ← Nat.add_assoc] at has
    exact has

/-- What stands in two parts stands one behind the other. -/
theorem standAt_append {as bs : List UInt8} {pos : Nat} :
    M.StandAt (as ++ bs) pos ↔ M.StandAt as pos ∧ M.StandAt bs (pos + as.length) := by
  rw [StandAt, StandAt, StandAt, List.length_append, ← Nat.add_assoc, Window.spells_append]
  constructor
  · rintro ⟨mid, ha, hb⟩
    obtain rfl := ha.stop_eq
    exact ⟨ha, hb⟩
  · exact fun ⟨ha, hb⟩ => ⟨_, ha, hb⟩

/-- The items of a section stand behind their number. -/
theorem standAt_items {α : Type} {f : α → List UInt8} {as : List α} {k : Nat} (hk : k < 12)
    (hpayload : M.payload k = content? f as) :
    M.StandAt (as.flatMap f) (M.itemsStart k as.length) ∨ as = [] := by
  cases as with
  | nil => exact .inr rfl
  | cons a as =>
    replace hpayload : M.payload k = some (vec f (a :: as)) := hpayload
    obtain ⟨id, hid, -⟩ := ids_ne hk
    have hs := (spells_section (M := M) hk).1
    rw [sectionBytes_of_some hid hpayload] at hs
    obtain ⟨-, -, hcontent, -, -⟩ := Draft.spells_content hs
    have hstart : M.contentStart k =
        Draft.contentAt (M.offset k) (vec f (a :: as)).length := by
      rw [contentStart, hpayload]
      rfl
    have hall : M.StandAt (vec f (a :: as)) (M.contentStart k) := by
      rw [hstart]
      exact standAt_of_spells hcontent
    exact .inl (standAt_append.1 hall).2

/-- The items of a section stand where they are recorded, one by one. -/
theorem forall₂_items {α β : Type} {f : α → List UInt8} {record : Nat → α → β} {as : List α}
    {k : Nat} (hk : k < 12) (hpayload : M.payload k = content? f as) {R : α → β → Prop}
    (h : ∀ a p, M.StandAt (f a) p → R a (record p a)) :
    List.Forall₂ R as (place f record (M.itemsStart k as.length) as) := by
  obtain hstand | rfl := standAt_items hk hpayload
  · refine (forall₂_place hstand).imp ?_
    rintro a _ ⟨p, rfl, hp⟩
    exact h a p hp
  · exact .nil

/-- The offset of an active segment stands where its mode says. -/
def StandsFor (M : Source) (offset : ConstExpr.Term) (mode : SegmentMode) : Prop :=
  ∃ pos, mode = .active pos ∧ M.StandAt offset.bytes pos

/-- What a decoded module records as places are the places of the bytes of its parts. -/
structure RecordsPlaces (M : Source) (m : Module) : Prop where
  /-- The bodies of the functions hold their instructions. -/
  bodies : List.Forall₂ (fun f g => M.window.Spells g.body.start f.code g.body.stop) M.functions
    (m.functions.toList.drop M.importedFunctions.length)
  initialisers : List.Forall₂ (fun g g' => M.StandAt g.init.bytes g'.init) M.globals
    (m.globals.toList.drop M.importedGlobals.length)
  elements : List.Forall₂ (fun e s => ∀ isExplicit offset, e.mode = .active isExplicit offset →
    M.StandsFor offset s.mode) M.elements m.elements
  dataSegments : List.Forall₂ (fun e s => M.window.Spells s.range.start e.payload s.range.stop ∧
    ∀ isExplicit offset, e.mode = .active isExplicit offset → M.StandsFor offset s.mode)
    M.dataSegments m.dataSegments
  customSections : List.Forall₂ (fun c s => M.window.Spells s.range.start c.payload s.range.stop)
    ((List.range 13).flatMap M.customs) m.customSections

/-- The code of a body stands behind its size and its runs of locals. -/
theorem Func.spells_code {f : Func} {p : Nat} (h : M.StandAt f.bytes p) :
    M.StandAt f.code (f.start p) := by
  have hcode := (standAt_append.1 (standAt_append.1 h).2).2
  rwa [Func.start]

/-- The offset of an active segment stands behind its flags and the index of its table. -/
theorem Element.standsFor {e : Element} {p : Nat} (h : M.StandAt e.bytes p) {isExplicit : Bool}
    {offset : ConstExpr.Term} (hmode : e.mode = .active isExplicit offset) :
    M.StandsFor offset (e.record p).mode := by
  have hbytes := (standAt_append.1 (standAt_append.1 h).2).1
  rw [hmode] at hbytes
  refine ⟨_, ?_, (standAt_append.1 hbytes).2⟩
  rw [Element.record, hmode]
  rfl

/-- The offset of an active segment stands behind its flag and the index of its memory. -/
theorem Data.standsFor {s : Data} {p : Nat} (h : M.StandAt s.bytes p) {isExplicit : Bool}
    {offset : ConstExpr.Term} (hmode : s.mode = .active isExplicit offset) :
    M.StandsFor offset (s.record p).mode := by
  have hbytes := (standAt_append.1 (standAt_append.1 h).2).1
  rw [hmode] at hbytes
  refine ⟨_, ?_, (standAt_append.1 hbytes).2⟩
  rw [Data.record, hmode]
  rfl

theorem Data.standAt_payload {s : Data} {p : Nat} (h : M.StandAt s.bytes p) :
    M.StandAt s.payload (s.start p) :=
  (standAt_append.1 (standAt_append.1 (standAt_append.1 h).2).2).2

theorem Custom.standAt_payload {c : Custom} {p : Nat} (h : M.StandAt c.bytes p) :
    M.StandAt c.payload (c.start p) := by
  have hsized := ((@standAt_append M [0x00] _ _).1 h).2
  have hcontent := (standAt_append.1 hsized).2
  exact (standAt_append.1 hcontent).2

/-- The custom sections of the first gaps stand where they are recorded. -/
theorem forall₂_customs {k : Nat} (hk : k ≤ 13) :
    List.Forall₂ (fun c s => M.window.Spells s.range.start c.payload s.range.stop)
      ((List.range k).flatMap M.customs) (M.customSections k) := by
  induction k with
  | zero => exact .nil
  | succ k ih =>
    have hgap : M.StandAt (M.gapBytes k) (M.gapStart k) := by
      cases k with
      | zero => exact standAt_of_spells spells_header.2
      | succ k => exact standAt_of_spells (spells_section (by omega)).2
    rw [List.range_succ, List.flatMap_append, List.flatMap_singleton, customSections]
    refine List.rel_append (ih (by omega)) ((forall₂_place hgap).imp ?_)
    rintro c _ ⟨p, rfl, hp⟩
    exact Custom.standAt_payload hp

/-- Each section has its parts where they are recorded. -/
theorem recordsPlaces : M.RecordsPlaces M.toModule where
  bodies := by
    have hdrop : M.toModule.functions.toList.drop M.importedFunctions.length =
        M.definedFunctions := by simp [toModule]
    rw [hdrop]
    exact forall₂_items (by decide) rfl fun f p hp => Func.spells_code hp
  initialisers := by
    have hdrop : M.toModule.globals.toList.drop M.importedGlobals.length = M.definedGlobals := by
      simp [toModule]
    rw [hdrop]
    exact forall₂_items (by decide) rfl fun g p hp => ((@standAt_append M [_, _] _ _).1 hp).2
  elements := forall₂_items (by decide) rfl fun e p hp _ _ hmode => e.standsFor hp hmode
  dataSegments := forall₂_items (by decide) rfl fun s p hp =>
    ⟨s.standAt_payload hp, fun _ _ hmode => s.standsFor hp hmode⟩
  customSections := forall₂_customs (Nat.le_refl 13)

/-- **Decoding undoes encoding.**  The bytes of a valid module decode to it, with all its parts in
their order, and what is recorded of bodies, payloads and expressions is where their bytes stand. -/
theorem IsValid.decode_encode (h : M.IsValid) :
    Module.decode M.encode = .ok M.toModule ∧ M.RecordsPlaces M.toModule :=
  ⟨h.decode_eq, recordsPlaces⟩

end Source

/-! ## A module with parts of many kinds -/

/-- A module that imports a function and defines another, which has two runs of locals, with segments of
four kinds for its table and of three kinds for its memory. -/
def Module.variedBytes : ByteArray :=
  ⟨#[0x00, 0x61, 0x73, 0x6d, 0x01, 0x00, 0x00, 0x00,
    -- types and imports: `m.f` of type `() -> ()`
    0x01, 0x09, 0x02, 0x60, 0x00, 0x00, 0x60, 0x01, 0x7f, 0x01, 0x7e,
    0x02, 0x07, 0x01, 0x01, 0x6d, 0x01, 0x66, 0x00, 0x00,
    -- a function of type `(i32) -> (i64)`, a table of three slots, a memory of one or two pages
    0x03, 0x02, 0x01, 0x01,
    0x04, 0x04, 0x01, 0x70, 0x00, 0x03,
    0x05, 0x04, 0x01, 0x01, 0x01, 0x02,
    -- globals `2` and `global.get 0 + 1`, of which the second is exported as `g`
    0x06, 0x0e, 0x02, 0x7f, 0x00, 0x41, 0x02, 0x0b, 0x7f, 0x01, 0x23, 0x00, 0x41, 0x01, 0x6a, 0x0b,
    0x07, 0x05, 0x01, 0x01, 0x67, 0x03, 0x01,
    -- element segments with the flags 0, 5, 2 and 3
    0x09, 0x1d, 0x04, 0x00, 0x23, 0x00, 0x0b, 0x01, 0x01,
    0x05, 0x70, 0x02, 0xd2, 0x00, 0x0b, 0xd0, 0x70, 0x0b,
    0x02, 0x00, 0x41, 0x00, 0x0b, 0x00, 0x02, 0x00, 0x01,
    0x03, 0x00, 0x01, 0x00,
    0x0c, 0x01, 0x03,
    -- two locals of type `i64`, one of type `f32`, and `local.get 1`
    0x0a, 0x0a, 0x01, 0x08, 0x02, 0x02, 0x7e, 0x01, 0x7d, 0x20, 0x01, 0x0b,
    -- data segments with the flags 0, 1 and 2
    0x0b, 0x12, 0x03, 0x00, 0x41, 0x00, 0x0b, 0x02, 0x01, 0x02, 0x01, 0x01, 0x03,
    0x02, 0x00, 0x41, 0x01, 0x0b, 0x01, 0x04,
    0x00, 0x03, 0x01, 0x63, 0x05]⟩

/-- What `variedBytes` decode to. -/
def Module.varied : Module :=
  let ref : ImportName := { module := "m", name := "f" }
  let type : Signature := { params := [.i32], results := [.i64] }
  { bytes := variedBytes, types := #[{}, type], imports := [⟨ref, .func⟩]
    functions := #[{ typeIndex := 0, type := {}, imported := some ref },
      { typeIndex := 1, type, locals := [.i32, .i64, .i64, .f32], body := ⟨110, 113⟩ }]
    table := some { min := 3, max := none }, memory := some { min := 1, max := some 2 }
    globals := #[{ type := .i32, isMutable := false, init := 49 },
      { type := .i32, isMutable := true, init := 54 }]
    exports := [⟨"g", .global, 1⟩]
    elements := [⟨.active 71, [some 1]⟩, ⟨.passive, [some 0, none]⟩,
      ⟨.active 87, [some 0, some 1]⟩, ⟨.declarative, [some 0]⟩]
    dataCount := some 3
    dataSegments := [⟨.active 117, ⟨121, 123⟩⟩, ⟨.passive, ⟨125, 126⟩⟩, ⟨.active 128, ⟨132, 133⟩⟩]
    customSections := [⟨"c", ⟨137, 138⟩⟩] }

namespace Source

/-- The module of `Module.variedBytes` in abstract syntax. -/
def varied : Source where
  types := [{}, { params := [.i32], results := [.i64] }]
  imports := [⟨⟨"m", "f"⟩, .func 0⟩]
  functions := [⟨1, [(2, .i64), (1, .f32)], [0x20, 0x01, 0x0b]⟩]
  table := some ⟨3, none⟩
  memory := some ⟨1, some 2⟩
  globals := [⟨.i32, false, .value (.i32 2)⟩,
    ⟨.i32, true, .arith .w32 .add (.global 0) (.value (.i32 1))⟩]
  exports := [⟨"g", .global, 1⟩]
  elements := [⟨.active false (.global 0), .funcs [1]⟩, ⟨.passive, .exprs [some 0, none]⟩,
    ⟨.active true (.value (.i32 0)), .funcs [0, 1]⟩, ⟨.declarative, .funcs [0]⟩]
  announcesData := true
  dataSegments := [⟨.active false (.value (.i32 0)), [1, 2]⟩, ⟨.passive, [3]⟩,
    ⟨.active true (.value (.i32 1)), [4]⟩]
  customs := fun k => if k = 12 then [⟨"c", [5]⟩] else []

theorem encode_varied : varied.encode = Module.variedBytes := by decide +kernel

theorem toModule_varied : varied.toModule = Module.varied := by decide +kernel

/-- The first global is a constant for all that come behind it. -/
theorem global_varied {n : Nat} (h : 0 < n) :
    (ConstExpr.Term.global 0).HasType (varied.scope n) .i32 := by
  obtain ⟨n, rfl⟩ := Nat.exists_eq_add_of_le' h
  exact .global (g := { type := .i32, isMutable := false }) rfl rfl

theorem isConstant_value (globals : Array Global) (v : UInt32) :
    IsConstant globals .i32 (.value (.i32 v)) := ⟨trivial, .value _⟩

/-- The module keeps to all rules. -/
theorem isValid_varied : varied.IsValid where
  length_lt := by
    have hall : ∀ k < 12, (varied.payload k).all (fun content => content.length < 2 ^ 32) := by
      decide
    intro k content h
    obtain hk | hk := Nat.lt_or_ge k 12
    · simpa [h] using hall k hk
    · obtain ⟨n, rfl⟩ := Nat.exists_eq_add_of_le' hk
      cases h
  customLength_lt := by decide
  importTypes := by
    rintro i hi k hk
    obtain rfl := List.mem_singleton.1 hi
    cases hk
    decide
  functionTypes := by decide
  locals := by decide
  oneTable := by decide
  tableBounds := by
    rintro e he
    obtain rfl := List.mem_singleton.1 he
    exact ⟨by decide, nofun⟩
  oneMemory := by decide
  memoryBounds := by
    rintro e he
    obtain rfl := List.mem_singleton.1 he
    refine ⟨by decide, fun max hmax => ?_⟩
    obtain rfl := Option.some.inj hmax
    decide
  initialisers := by
    rintro i g hg
    match i, hg with
    | 0, rfl => exact ⟨trivial, .value _⟩
    | 1, rfl => exact ⟨⟨.inl rfl, trivial, trivial⟩,
      .arith (w := .w32) (global_varied (by decide)) (.value _)⟩
  exportNames := by decide
  exports := by
    rintro e he
    obtain rfl := List.mem_singleton.1 he
    exact (by decide : 1 < varied.globalCount)
  start := by decide
  activeElements := by
    suffices h : ∀ s ∈ varied.elements, ∀ b offset, s.mode = .active b offset →
        IsConstant (varied.scope 2) .i32 offset from
      fun s hs b offset hmode => ⟨by decide, h s hs b offset hmode⟩
    simp only [varied, List.forall_mem_cons]
    refine ⟨?_, nofun, ?_, nofun, nofun⟩
    · rintro b offset ⟨⟩
      exact ⟨trivial, global_varied (by decide)⟩
    · rintro b offset ⟨⟩
      exact isConstant_value ..
  elementFunctions := by
    have hall : ∀ s ∈ varied.elements, ∀ r ∈ s.references.funcs?, ∀ k ∈ r, k < varied.functionCount := by
      decide
    exact fun s hs k hk => hall s hs _ hk k rfl
  activeData := by
    suffices h : ∀ s ∈ varied.dataSegments, ∀ b offset, s.mode = .active b offset →
        IsConstant (varied.scope 2) .i32 offset from
      fun s hs b offset hmode => ⟨by decide, h s hs b offset hmode⟩
    simp only [varied, List.forall_mem_cons]
    refine ⟨?_, nofun, ?_, nofun⟩
    · rintro b offset ⟨⟩
      exact isConstant_value ..
    · rintro b offset ⟨⟩
      exact isConstant_value ..

/-- The bytes of the module decode to it. -/
theorem decode_varied : Module.decode Module.variedBytes = .ok Module.varied ∧
    varied.RecordsPlaces Module.varied := by
  rw [← encode_varied, ← toModule_varied]
  exact isValid_varied.decode_encode

end Source

end WasmEngine
