import WasmEngine.Proofs.Decode.Consistent
import WasmEngine.Proofs.Framing.Contents
import WasmEngine.Proofs.Guarded.Decode

/-!
# Proofs/Framing/Accounting — decoding accounts for every byte

The bytes of a decoded module are the header and sections one behind the other, with nothing between or
behind them: `Module.IsFramed`.  The known sections come once at most and in their order, the reader of
each takes its payload to the last byte, the bodies tile the code section, and what is kept of custom
sections are all of these.  `Draft.Tiles` says that reading goes from section to section, each where
the one before it ended, and `Module.decode_framed` that it does in every decoded module.
-/

namespace WasmEngine

open Encoding

/-- Sections with the positions at which they start, from `pos` on. -/
def RawSection.placed (pos : Nat) (sections : List RawSection) : List (Nat × RawSection) :=
  place RawSection.bytes Prod.mk pos sections

/-- The record of a custom section that starts at a position. -/
def CustomSection.IsOf (c : CustomSection) (x : Nat × RawSection) : Prop :=
  ∃ data, x.2.IsCustom c.name data ∧
    c.range = ⟨x.1 + x.2.bytes.length - data.length, x.1 + x.2.bytes.length⟩

namespace Draft

/-! ## From section to section -/

/-- Reading takes a draft from `pos` to `stop` and to another draft, section by section.  A custom
section is kept with its name and the place of its data; the content of a known one is read on its
payload and ends where that does.  Of the known sections, those of `todo` may come, in their order. -/
inductive Tiles (w : Window) :
    List (UInt8 × (Draft → Reader Draft)) → Draft → Nat → List RawSection → Draft → Nat → Prop where
  | nil {todo d pos} : Tiles w todo d pos [] d pos
  | custom {todo d pos s name data next sections d' stop} (hc : s.IsCustom name data)
      (hs : w.Spells pos s.bytes next)
      (hrest : Tiles w todo (d.addCustoms [⟨name, ⟨next - data.length, next⟩⟩]) next sections d'
        stop) :
      Tiles w todo d pos (s :: sections) d' stop
  | absent {x todo d pos sections d' stop} (hrest : Tiles w todo d pos sections d' stop) :
      Tiles w (x :: todo) d pos sections d' stop
  | known {s content todo d d₁ pos next sections d' stop} (hid : s.id ≠ 0)
      (hs : w.Spells pos s.bytes next)
      (hcontent : content d { w with stop := next } (s.payloadAt pos) = .ok (d₁, next))
      (hrest : Tiles w todo d₁ next sections d' stop) :
      Tiles w ((s.id, content) :: todo) d pos (s :: sections) d' stop

variable {w : Window} {todo before after : List (UInt8 × (Draft → Reader Draft))} {d d' : Draft}
  {pos stop : Nat} {sections : List RawSection} {m : Module}

/-- A module is finished where the bytes end, if each function that is not imported has its body. -/
theorem ensures_finish : Reader.Ensures d.finish w pos fun m next => next = pos ∧ m = d.toModule ∧
    w.get? pos = none ∧ d.functions.size - d.importedCount = d.bodyCount := by
  simp only [finish, Reader.ensures_bind, Reader.ensures_peek?]
  cases w.get? pos with
  | some id => exact Reader.ensures_malformed
  | none =>
    simp only [Reader.ensures_ite, Reader.ensures_bind, Reader.ensures_malformed,
      Reader.ensures_pure, implies_true, true_and]
    exact fun hcount _ => Decidable.not_not.1 hcount

theorem Tiles.absent_append (h : Tiles w todo d pos sections d' stop) :
    Tiles w (before ++ todo) d pos sections d' stop := by
  induction before with
  | nil => exact h
  | cons x before ih => exact .absent ih

theorem Tiles.append {d₁ : Draft} {mid : Nat} {first second : List RawSection}
    (h : Tiles w before d pos first d₁ mid) (h' : Tiles w after d₁ mid second d' stop) :
    Tiles w (before ++ after) d pos (first ++ second) d' stop := by
  induction h with
  | nil => exact h'.absent_append
  | custom hc hs _ ih => exact .custom hc hs (ih h')
  | absent _ ih => exact .absent (ih h')
  | known hid hs hcontent _ ih => exact .known hid hs hcontent (ih h')

/-- **What is left of a module is read section by section**, up to the end. -/
theorem tiles_of_rest (hw : w.stop ≤ w.bytes.size) (h : rest todo d w pos = .ok (m, stop)) :
    ∃ sections d', Tiles w todo d pos sections d' stop ∧ d'.finish w stop = .ok (m, stop) := by
  -- Each section starts behind the one before it.
  induction hleft : w.stop - pos using Nat.strong_induction_on generalizing todo d pos with
  | _ left ih =>
    obtain ⟨id, read, after, hget, hup⟩ | ⟨h0, habsent⟩ := upcoming_or_absent todo (w.get? pos)
    · have hlt := (Window.get?_eq_some_iff.1 hget).1
      rw [rest_of_upcoming hw hget hup] at h
      obtain ⟨d₁, next, hread, hrest⟩ := Reader.bind_eq_ok_iff.1 h
      cases hup with
      | custom =>
        obtain ⟨s, name, data, hc, hs, rfl⟩ := (customContent_eq_ok_iff hw hget).1 hread
        have hnext : pos < next := RawSection.pos_lt hs
        obtain ⟨sections, d', htiles, hend⟩ := ih (w.stop - next) (by omega) hrest rfl
        exact ⟨s :: sections, d', .custom hc hs htiles, hend⟩
      | known hid _ =>
        obtain ⟨s, rfl, hs, hcontent⟩ := (sectionContent_eq_ok_iff hw hget).1 hread
        have hnext : pos < next := RawSection.pos_lt hs
        obtain ⟨sections, d', htiles, hend⟩ := ih (w.stop - next) (by omega) hrest rfl
        exact ⟨s :: sections, d', (Tiles.known hid hs hcontent htiles).absent_append, hend⟩
    · rw [rest_of_absent h0 habsent] at h
      obtain rfl := (ensures_finish h).1
      exact ⟨[], d, .nil, h⟩

/-- **Sections that may come next are read**, one behind the other, and some of the known ones are
left. -/
theorem exists_rest_of_tiles (before after : List (UInt8 × (Draft → Reader Draft)))
    (hw : w.stop ≤ w.bytes.size) (h : Tiles w todo d pos sections d' stop)
    (hids : ((before ++ todo ++ after).map Prod.fst).Nodup) :
    ∃ left, left.Sublist (before ++ todo) ∧
      rest (before ++ todo ++ after) d w pos = rest (left ++ after) d' w stop := by
  induction h generalizing before with
  | nil => exact ⟨_, List.Sublist.refl _, rfl⟩
  | custom hc hs _ ih =>
    have hid := hc.1 ▸ hs.1
    rw [rest_of_custom hw hid,
      Reader.bind_of_eq_ok ((customContent_eq_ok_iff hw hid).2 ⟨_, _, _, hc, hs, rfl⟩)]
    exact ih _ hids
  | @absent x todo _ _ _ _ _ _ ih =>
    have hassoc : before ++ x :: todo = (before ++ [x]) ++ todo := by simp
    rw [hassoc] at hids ⊢
    exact ih _ hids
  | @known s content todo _ _ _ _ _ _ _ hid hs hcontent _ ih =>
    rw [List.append_assoc, List.cons_append, List.map_append, List.nodup_append] at hids
    obtain ⟨-, hids, hapart⟩ := hids
    have hbefore (x : UInt8 × (Draft → Reader Draft)) (hx : x ∈ before) : x.1 ≠ s.id :=
      hapart x.1 (List.mem_map_of_mem hx) s.id List.mem_cons_self
    obtain ⟨left, hleft, hrest⟩ := ih [] hids.of_cons
    refine ⟨left, hleft.trans ((List.sublist_cons_self ..).trans (List.sublist_append_right ..)), ?_⟩
    rw [List.append_assoc, List.cons_append, rest_of_known hs.1 hid hbefore,
      Reader.bind_of_eq_ok ((sectionContent_eq_ok_iff hw hs.1).2 ⟨s, rfl, hs, hcontent⟩)]
    exact hrest

/-- Sections that may come next are a module, if it can be finished behind them. -/
theorem rest_of_tiles (hw : w.stop ≤ w.bytes.size) (h : Tiles w todo d pos sections d' stop)
    (hend : d'.finish w stop = .ok (m, stop)) (hids : (todo.map Prod.fst).Nodup) :
    rest todo d w pos = .ok (m, stop) := by
  have hnone := (ensures_finish hend).2.2.1
  obtain ⟨left, -, hrest⟩ := exists_rest_of_tiles [] [] hw h (by simpa)
  rw [List.nil_append, List.append_nil, List.append_nil] at hrest
  rw [hrest, rest_of_absent (by rw [hnone]; exact nofun) (by rw [hnone]; exact fun _ _ => nofun),
    hend]

/-- Behind sections that may come, another known one is read as if it came first. -/
theorem rest_of_tiles_known {id : UInt8} {content : Draft → Reader Draft}
    (hw : w.stop ≤ w.bytes.size) (h : Tiles w todo d pos sections d' stop)
    (hget : w.get? stop = some id) (hid : id ≠ 0)
    (hids : ((todo ++ (id, content) :: after).map Prod.fst).Nodup) :
    rest (todo ++ (id, content) :: after) d w pos =
      (sectionContent content d' >>= rest after) w (stop + 1) := by
  obtain ⟨left, hleft, hrest⟩ := exists_rest_of_tiles [] _ hw h hids
  refine hrest.trans (rest_of_known hget hid fun s hs heq => ?_)
  rw [List.map_append, List.nodup_append] at hids
  exact hids.2.2 s.1 (List.mem_map_of_mem (hleft.mem hs)) id List.mem_cons_self heq

/-! ## What reading section by section leaves -/

namespace Tiles

/-- The sections stand one behind the other. -/
theorem spells (h : Tiles w todo d pos sections d' stop) :
    w.Spells pos (sections.flatMap RawSection.bytes) stop := by
  induction h with
  | nil => rfl
  | absent _ ih => exact ih
  | custom _ hs _ ih | known _ hs _ _ ih => exact Window.spells_append.2 ⟨_, hs, ih⟩

/-- **The known sections come once at most**, and in their order. -/
theorem ids (h : Tiles w todo d pos sections d' stop) :
    ((sections.filter (·.id ≠ 0)).map (·.id)).Sublist (todo.map Prod.fst) := by
  induction h with
  | nil => exact List.nil_sublist _
  | custom hc _ _ ih => simpa [hc.1] using ih
  | absent _ ih => exact ih.cons _
  | known hid _ _ _ ih => simpa [hid] using ih

/-- **Every custom section is kept**, and nothing else. -/
theorem customs (h : Tiles w todo d pos sections d' stop)
    (htodo : ∀ s ∈ todo, ∀ d v p,
      (s.2 d).Ensures v p fun d' _ => d'.customSections = d.customSections) :
    ∃ customs, d'.customSections = d.customSections ++ customs ∧
      List.Forall₂ CustomSection.IsOf customs
        ((RawSection.placed pos sections).filter (·.2.id = 0)) := by
  induction h with
  | nil => exact ⟨[], (List.append_nil _).symm, .nil⟩
  | @custom _ _ pos s name data next sections _ _ hc hs _ ih =>
    obtain ⟨customs, heq, hall⟩ := ih htodo
    obtain rfl := hs.stop_eq
    refine ⟨_ :: customs, heq.trans (List.append_assoc ..), ?_⟩
    have hfilter : (RawSection.placed pos (s :: sections)).filter (·.2.id = 0) =
        (pos, s) :: (RawSection.placed (pos + s.bytes.length) sections).filter (·.2.id = 0) :=
      List.filter_cons_of_pos (by simpa using hc.1)
    rw [hfilter]
    exact .cons ⟨data, hc, rfl⟩ hall
  | absent _ ih => exact ih fun s hs => htodo s (List.mem_cons_of_mem _ hs)
  | @known s content _ _ _ pos next sections _ _ hid hs hcontent _ ih =>
    obtain ⟨customs, heq, hall⟩ := ih fun s hs => htodo s (List.mem_cons_of_mem _ hs)
    obtain rfl := hs.stop_eq
    refine ⟨customs, by rw [heq, htodo _ List.mem_cons_self _ _ _ hcontent], ?_⟩
    have hfilter : (RawSection.placed pos (s :: sections)).filter (·.2.id = 0) =
        (RawSection.placed (pos + s.bytes.length) sections).filter (·.2.id = 0) :=
      List.filter_cons_of_neg (by simpa using hid)
    rw [hfilter]
    exact hall

/-- What no section changes is the same at the end. -/
theorem keeps {α : Type} {g : Draft → α} (h : Tiles w todo d pos sections d' stop)
    (hcustom : ∀ d customs, g (d.addCustoms customs) = g d)
    (htodo : ∀ s ∈ todo, ∀ d v p, (s.2 d).Ensures v p fun d' _ => g d' = g d) : g d' = g d := by
  induction h with
  | nil => rfl
  | custom _ _ _ ih => exact (ih htodo).trans (hcustom _ _)
  | absent _ ih => exact ih fun s hs => htodo s (List.mem_cons_of_mem _ hs)
  | known _ _ hcontent _ ih =>
    exact (ih fun s hs => htodo s (List.mem_cons_of_mem _ hs)).trans
      (htodo _ List.mem_cons_self _ _ _ hcontent)

/-- One of the known sections does not come, or it does, and then the others come before or behind
it. -/
theorem absent_or_known {id : UInt8} {content : Draft → Reader Draft}
    (h : Tiles w (before ++ (id, content) :: after) d pos sections d' stop) :
    Tiles w (before ++ after) d pos sections d' stop ∨
      ∃ first s second d₁ d₂ mid next, sections = first ++ s :: second ∧ s.id = id ∧
        Tiles w before d pos first d₁ mid ∧ w.Spells mid s.bytes next ∧
        content d₁ { w with stop := next } (s.payloadAt mid) = .ok (d₂, next) ∧
        Tiles w after d₂ next second d' stop := by
  generalize htodo : before ++ (id, content) :: after = todo at h
  induction h generalizing before with
  | nil => exact .inl .nil
  | custom hc hs _ ih =>
    obtain hrest | ⟨first, s, second, d₁, d₂, mid, next, rfl, hid, hfirst, hspells, hcontent,
      hsecond⟩ := ih htodo
    · exact .inl (.custom hc hs hrest)
    · exact .inr ⟨_ :: first, s, second, d₁, d₂, mid, next, rfl, hid, .custom hc hs hfirst, hspells,
        hcontent, hsecond⟩
  | absent hrest ih =>
    cases before with
    | nil =>
      obtain ⟨-, rfl⟩ := List.cons.inj htodo
      exact .inl hrest
    | cons x before =>
      obtain ⟨rfl, rfl⟩ := List.cons.inj htodo
      obtain hrest | ⟨first, s, second, d₁, d₂, mid, next, rfl, hid, hfirst, hspells⟩ := ih rfl
      · exact .inl hrest.absent
      · exact .inr ⟨first, s, second, d₁, d₂, mid, next, rfl, hid, hfirst.absent, hspells⟩
  | known hid hs hcontent hrest ih =>
    cases before with
    | nil =>
      obtain ⟨heq, rfl⟩ := List.cons.inj htodo
      obtain ⟨rfl, rfl⟩ := Prod.mk.inj heq
      exact .inr ⟨[], _, _, _, _, _, _, rfl, rfl, .nil, hs, hcontent, hrest⟩
    | cons x before =>
      obtain ⟨rfl, rfl⟩ := List.cons.inj htodo
      obtain hrest | ⟨first, s, second, d₁, d₂, mid, next, rfl, hid', hfirst, hspells⟩ := ih rfl
      · exact .inl (.known hid hs hcontent hrest)
      · exact .inr ⟨_ :: first, s, second, d₁, d₂, mid, next, rfl, hid',
          .known hid hs hcontent hfirst, hspells⟩

end Tiles

/-- **Where the code section comes**: there is none and no function to give a body, or it is read between
the others, which leave alone how many functions are imported and what their bodies are. -/
theorem Tiles.exists_code (h : Tiles w knownSections d pos sections d' stop) (hcount : d.bodyCount = 0)
    (hend : d'.functions.size - d'.importedCount = d'.bodyCount) :
    (∀ s ∈ sections, s.id ≠ 10) ∧ d'.functions.size = d'.importedCount ∨
      ∃ first s second d₁ d₂ mid next, sections = first ++ s :: second ∧ s.id = 10 ∧
        Tiles w beforeCode d pos first d₁ mid ∧ w.Spells mid s.bytes next ∧
        codeSection d₁ { w with stop := next } (s.payloadAt mid) = .ok (d₂, next) ∧
        Tiles w [(11, dataSection)] d₂ next second d' stop ∧
        d₁.bodyCount = 0 ∧ d'.functions = d₂.functions ∧ d'.bodyCount = d₂.bodyCount := by
  have hle : d'.importedCount ≤ d'.functions.size := Guarded.importedCount_le d'.toModule
  have hknown : Tiles w (beforeCode ++ (10, codeSection) :: [(11, dataSection)]) d pos sections d' stop :=
    h
  obtain h | ⟨first, s, second, d₁, d₂, mid, next, rfl, hid, hfirst, hs, hcontent, hsecond⟩ :=
    absent_or_known hknown
  · left
    have hkept : d'.bodyCount = d.bodyCount := h.keeps (fun _ _ => rfl) fun s hs d v p => by
      obtain hs | hs := List.mem_append.1 hs
      · exact (margin_of_mem hs).mono fun _ _ h => congrArg Prod.snd h
      · obtain rfl := List.mem_singleton.1 hs
        exact dataSection_core.mono fun _ _ h => congrArg ModuleCore.bodyCount h
    refine ⟨fun s hs hid => ?_, by omega⟩
    have hmem : s.id ∈ (beforeCode ++ [(11, dataSection)]).map Prod.fst :=
      h.ids.mem (List.mem_map_of_mem (List.mem_filter.2 ⟨hs, by simp [hid]⟩))
    rw [hid] at hmem
    exact absurd hmem (by decide)
  · right
    have hbefore : d₁.bodyCount = d.bodyCount := hfirst.keeps (fun _ _ => rfl) fun s hs d v p =>
      (margin_of_mem hs).mono fun _ _ h => congrArg Prod.snd h
    have hcore : d'.core = d₂.core := hsecond.keeps (fun _ _ => rfl) fun s hs d v p => by
      obtain rfl := List.mem_singleton.1 hs
      exact dataSection_core
    exact ⟨first, s, second, d₁, d₂, mid, next, rfl, hid, hfirst, hs, hcontent, hsecond,
      hbefore.trans hcount, congrArg ModuleCore.functions hcore, congrArg ModuleCore.bodyCount hcore⟩

/-- **Where the code of a module comes from**: there is no code section and no function of its own, or
there is one and its payload is tiled by the bodies of these. -/
theorem Tiles.code (hw : w.stop ≤ w.bytes.size) (h : Tiles w knownSections d pos sections d' stop)
    (hcount : d.bodyCount = 0) (hend : d'.functions.size - d'.importedCount = d'.bodyCount) :
    (∀ s ∈ sections, s.id ≠ 10) ∧ d'.functions.size = d'.importedCount ∨
      ∃ first s second count bodies, sections = first ++ s :: second ∧ s.id = 10 ∧
        EncodesU32 bodies.length count ∧ s.payload = count ++ bodies.flatMap Sized.bytes ∧
        d'.functions.size = d'.importedCount + bodies.length ∧
        HaveBodies d'.functions d'.importedCount
          (s.payloadAt (pos + (first.flatMap RawSection.bytes).length) + count.length) bodies := by
  have hle : d'.importedCount ≤ d'.functions.size := Guarded.importedCount_le d'.toModule
  obtain hnone | ⟨first, s, second, d₁, d₂, mid, next, rfl, hid, hfirst, hs, hcontent, -, hcount₁,
    hfunctions, hbodyCount⟩ := h.exists_code hcount hend
  · exact .inl hnone
  · right
    obtain ⟨hpayload, -, hnext⟩ := RawSection.spells_payload hs
    obtain ⟨count, bodies, hencodes, hbytes, -, hcount₂, hsize, hhave⟩ :=
      codeSection_bodies (w := ⟨w.bytes, next⟩) (Nat.le_trans hnext hw) hcount₁ hcontent
    have hwindow := hbytes.mono fun p b hb => Window.get?_of_cut hnext hb
    -- The functions that came before the bodies are those that come before them in the end.
    rw [← hfunctions] at hsize hhave
    obtain himported : d₁.importedCount = d'.importedCount := by omega
    rw [himported] at hsize hhave
    obtain rfl := hfirst.spells.stop_eq
    exact ⟨first, s, second, count, bodies, rfl, hid, hencodes, hpayload.unique hwindow, hsize, hhave⟩

/-- Every known section keeps the custom sections found so far. -/
theorem customSections_of_mem {x : UInt8 × (Draft → Reader Draft)} (h : x ∈ knownSections) :
    (x.2 d).Ensures w pos fun d' _ => d'.customSections = d.customSections := by
  rw [knownSections_eq, List.mem_append, List.mem_cons, List.mem_singleton] at h
  obtain h | rfl | rfl := h
  · exact (margin_of_mem h).mono fun _ _ h => congrArg Prod.fst h
  · exact codeSection_customSections
  · exact (entries_margin fun _ _ => dataEntry_margin).mono fun _ _ h => congrArg Prod.fst h

end Draft

/-! ## Decoded modules -/

namespace Module

/-- The bytes of a module are the header and `sections`, and the module is what they hold. -/
structure IsFramed (bytes : ByteArray) (m : Module) (sections : List RawSection) : Prop where
  bytes_eq : bytes.toList = magic ++ version ++ sections.flatMap RawSection.bytes
  /-- The known sections come once at most, in their order. -/
  ids : ((sections.filter (·.id ≠ 0)).map (·.id)).Sublist [1, 2, 3, 4, 5, 6, 7, 8, 9, 12, 10, 11]
  /-- The module is read from section to section, and what is in each fills its payload. -/
  reads : ∃ d, Draft.Tiles (.ofBytes bytes) Draft.knownSections { bytes } 8 sections d bytes.size ∧
    m = d.toModule
  /-- The functions that the module defines come behind the imported ones. -/
  imported : ∀ (i : Nat) f, m.functions[i]? = some f → (f.imported.isSome ↔ i < m.importedCount)
  /-- There are as many bodies as functions that the module defines, and they tile the payload of the
  code section behind their number. -/
  code : (∀ s ∈ sections, s.id ≠ 10) ∧ m.functions.size = m.importedCount ∨
    ∃ first s second count bodies, sections = first ++ s :: second ∧ s.id = 10 ∧
      EncodesU32 bodies.length count ∧ s.payload = count ++ bodies.flatMap Sized.bytes ∧
      m.functions.size = m.importedCount + bodies.length ∧
      Draft.HaveBodies m.functions m.importedCount
        (s.payloadAt (8 + (first.flatMap RawSection.bytes).length) + count.length) bodies
  /-- The custom sections are those with the id zero, in their order. -/
  customs : List.Forall₂ CustomSection.IsOf m.customSections
    ((RawSection.placed 8 sections).filter (·.2.id = 0))

variable {bytes : ByteArray} {m : Module}

/-- Decoding goes from section to section, up to the end of the bytes, and finishes there. -/
theorem decode_finish (h : decode bytes = .ok m) : ∃ sections d,
    (Window.ofBytes bytes).Spells 0 (magic ++ version) 8 ∧
      Draft.Tiles (.ofBytes bytes) Draft.knownSections { bytes } 8 sections d bytes.size ∧
      d.finish (.ofBytes bytes) bytes.size = .ok (m, bytes.size) := by
  have hw : (Window.ofBytes bytes).stop ≤ (Window.ofBytes bytes).bytes.size := Nat.le_refl _
  obtain ⟨stop, h⟩ := exists_run_of_decode h
  obtain ⟨_, _, hheader, hrest⟩ := Reader.bind_eq_ok_iff.1 h
  obtain ⟨hmagic, rfl⟩ := (header_eq_ok_iff hw).1 hheader
  obtain ⟨sections, d, htiles, hfinish⟩ := Draft.tiles_of_rest hw hrest
  obtain ⟨-, -, hend, -⟩ := Draft.ensures_finish hfinish
  have hstop : stop ≤ bytes.size := htiles.spells.stop_le (hmagic.stop_le (Nat.zero_le _))
  have hall : bytes.size ≤ stop := Nat.le_of_not_lt fun hlt => by
    simp [Window.get?, Window.ofBytes, hlt] at hend
  obtain rfl : stop = bytes.size := Nat.le_antisymm hstop hall
  exact ⟨sections, d, hmagic, htiles, hfinish⟩

/-- Decoding goes from section to section, up to the end of the bytes. -/
theorem decode_tiles (h : decode bytes = .ok m) : ∃ sections d,
    (Window.ofBytes bytes).Spells 0 (magic ++ version) 8 ∧
      Draft.Tiles (.ofBytes bytes) Draft.knownSections { bytes } 8 sections d bytes.size ∧
      m = d.toModule ∧ d.functions.size - d.importedCount = d.bodyCount := by
  obtain ⟨sections, d, hmagic, htiles, hfinish⟩ := decode_finish h
  obtain ⟨-, hm, -, hcount⟩ := Draft.ensures_finish hfinish
  exact ⟨sections, d, hmagic, htiles, hm, hcount⟩

/-- **Decoding accounts for every byte**: the bytes of a decoded module are the header and sections,
each filled by what is read of it. -/
theorem decode_framed (h : decode bytes = .ok m) : ∃ sections, m.IsFramed bytes sections := by
  have hw : (Window.ofBytes bytes).stop ≤ (Window.ofBytes bytes).bytes.size := Nat.le_refl _
  have himported := (decode_sound h).1.imported
  obtain ⟨sections, d, hmagic, htiles, rfl, hcount⟩ := decode_tiles h
  have hspells := Window.spells_append.2 ⟨8, hmagic, htiles.spells⟩
  obtain ⟨-, -, hextract⟩ := (Window.spells_iff_extract hw (Nat.zero_le _)).1 hspells
  obtain ⟨customs, hcustoms, hcustom⟩ :=
    htiles.customs fun x hx _ _ _ => Draft.customSections_of_mem hx
  refine ⟨sections, ?_, htiles.ids, ⟨d, htiles, rfl⟩, himported, htiles.code hw rfl hcount, ?_⟩
  · rw [← hextract]
    exact congrArg ByteArray.toList ByteArray.extract_zero_size.symm
  · exact hcustoms ▸ hcustom

/-- The module with everything in it is framed. -/
theorem populated_framed : ∃ sections, populated.IsFramed populatedBytes sections :=
  decode_framed decode_populatedBytes

end Module

end WasmEngine
