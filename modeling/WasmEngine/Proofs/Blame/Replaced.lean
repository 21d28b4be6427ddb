import WasmEngine.Proofs.Relocation.Transparency
import WasmEngine.Proofs.Syntax.Reading

/-!
# Proofs/Blame/Replaced — other code in the place of a body

A module that decodes still does when other bytes stand where the code of one of its functions was, and
to the same module but for its bytes (`Module.decode_replaced`): what stands before the code says how
long it is, and nothing that decoding reads is in it.
-/

namespace WasmEngine

/-- The bytes of `v` are those of `w`, but for those in a range. -/
structure Window.AgreesOutside (r : ByteRange) (w v : Window) : Prop where
  stop_eq : v.stop = w.stop
  stop_le : w.stop ≤ w.bytes.size
  stop_le_size : v.stop ≤ v.bytes.size
  get?_eq : ∀ p, p < r.start ∨ r.stop ≤ p → v.get? p = w.get? p

/-- Other bytes in the place of bytes, with nothing moved. -/
def Relocation.inPlace (bytes : ByteArray) : Relocation := { cut := 0, count := 0, bytes, customs := id }

/-- A draft over other bytes. -/
def Draft.over (d : Draft) (bytes : ByteArray) : Draft :=
  { d with toModule := { d.toModule with bytes } }

namespace Relocation

variable {bytes : ByteArray}

theorem shift_inPlace (p : Nat) : (inPlace bytes).shift p = p := ite_self _

theorem range_shift_inPlace (r : ByteRange) : r.shift (inPlace bytes).toInsertion = r := by
  simp only [ByteRange.shift, shift_inPlace]

theorem mode_shift_inPlace (mode : SegmentMode) :
    mode.shift (inPlace bytes).toInsertion = mode := by
  cases mode <;> simp [SegmentMode.shift, shift_inPlace]

/-- **Where nothing moves**, only the bytes are others. -/
theorem relocate_inPlace (d : Draft) : d.relocate (inPlace bytes) = d.over bytes := by
  have hfunction : Function.shift (inPlace bytes).toInsertion = id := funext fun f => by
    simp [Function.shift, range_shift_inPlace]
  have hglobal : Global.shift (inPlace bytes).toInsertion = id := funext fun g => by
    simp [Global.shift, shift_inPlace]
  have helement : ElementSegment.shift (inPlace bytes).toInsertion = id := funext fun s => by
    simp [ElementSegment.shift, mode_shift_inPlace]
  have hdata : DataSegment.shift (inPlace bytes).toInsertion = id := funext fun s => by
    simp [DataSegment.shift, mode_shift_inPlace, range_shift_inPlace]
  have hshift : (inPlace bytes).shift = id := funext shift_inPlace
  have hjump (j : BlockJump) : j.shift (inPlace bytes).toInsertion = j := by
    simp [BlockJump.shift, hshift]
  have htable : SideTable.shift (inPlace bytes).toInsertion = id := funext fun t => by
    simp [SideTable.shift, shift_inPlace, hjump]
  simp only [Draft.relocate, Module.relocate, Draft.over, hfunction, hglobal, helement, hdata, htable,
    Array.map_id, List.map_id, Option.map_id, id_eq]
  rfl

end Relocation

namespace Window.AgreesOutside

variable {r : ByteRange} {w v : Window} {pos next : Nat} {bs : List UInt8}

/-- Bytes that are all before the range or behind it have not moved. -/
theorem moves (h : w.AgreesOutside r v) (hpos : pos ≤ next) (hnext : next ≤ w.stop)
    (hapart : next ≤ r.start ∨ r.stop ≤ pos) :
    (Relocation.inPlace v.bytes).Moves 0 { w with stop := next } { v with stop := next } pos where
  pos_le := hpos
  stop_le := Nat.le_trans hnext h.stop_le
  stop_eq := rfl
  stop_le_size := Nat.le_trans hnext (h.stop_eq ▸ h.stop_le_size)
  get?_eq p hp := by
    have hstop := h.stop_eq
    by_cases hlt : p < next
    · have hget := h.get?_eq p (by omega)
      rw [Window.get?, Window.get?, if_pos (by omega), if_pos (by omega)] at hget
      rw [Nat.add_zero, Window.get?, Window.get?, if_pos hlt, if_pos hlt, hget]
    · rw [Nat.add_zero, Window.get?, Window.get?, if_neg hlt, if_neg hlt]
  shift_eq p _ _ := Relocation.shift_inPlace p

theorem spells (h : w.AgreesOutside r v) (hs : w.Spells pos bs next) (hpos : pos ≤ next)
    (hnext : next ≤ w.stop) (hapart : next ≤ r.start ∨ r.stop ≤ pos) : v.Spells pos bs next :=
  ((h.moves hpos hnext hapart).spells (hs.within (Nat.le_refl next))).mono fun _ _ hb =>
    get?_of_cut (h.stop_eq ▸ hnext) hb

/-- Parts of both windows agree like the windows. -/
theorem cut (h : w.AgreesOutside r v) (hnext : next ≤ w.stop) :
    ({ w with stop := next } : Window).AgreesOutside r { v with stop := next } where
  stop_eq := rfl
  stop_le := Nat.le_trans hnext h.stop_le
  stop_le_size := Nat.le_trans hnext (h.stop_eq ▸ h.stop_le_size)
  get?_eq p hp := by
    have hstop := h.stop_eq
    have hget := h.get?_eq p hp
    by_cases hlt : p < next
    · rw [Window.get?, Window.get?, if_pos (by omega), if_pos (by omega)] at hget
      rw [Window.get?, Window.get?, if_pos hlt, if_pos hlt, hget]
    · rw [Window.get?, Window.get?, if_neg hlt, if_neg hlt]

/-- What is read of a run of bytes before the range or behind it is read again. -/
theorem accepted {α : Type} {reader : Reader α} {F : α → List UInt8 → Prop} {a : α}
    (h : w.AgreesOutside r v) (hr : reader.Accepts F) (ha : reader w pos = .ok (a, next))
    (hnext : next ≤ w.stop) (hapart : next ≤ r.start ∨ r.stop ≤ pos) :
    reader v pos = .ok (a, next) := by
  obtain ⟨bs, hs, hF⟩ := (hr h.stop_le).1 ha
  exact (hr h.stop_le_size).2 ⟨bs, h.spells hs (hs.stop_eq ▸ Nat.le_add_right ..) hnext hapart, hF⟩

end Window.AgreesOutside

namespace Reader

variable {α β : Type}

theorem exists_accepts_bind {r : Reader α} {f : α → Reader β} (hr : ∃ F, r.Accepts F)
    (hf : ∀ a, ∃ G, (f a).Accepts G) : ∃ F, (r >>= f).Accepts F := by
  obtain ⟨F, hF⟩ := hr
  choose G hG using hf
  exact ⟨_, hF.bind hG⟩

theorem exists_accepts_malformed (cause : Malformation) :
    ∃ F, (malformed cause : Reader α).Accepts F :=
  ⟨fun _ _ => False, fun _ _ _ _ _ => ⟨fun h => absurd h malformed_ne_ok, fun ⟨_, _, h⟩ => h.elim⟩⟩

end Reader

namespace Draft

variable {r : ByteRange} {w v : Window} {d d' : Draft} {pos next stop first n func : Nat}
  {sections : List RawSection} {todo : List (UInt8 × (Draft → Reader Draft))} {f : Function}

/-! ## Sections apart from the code -/

/-- A section lies before the range or behind it, if it and those that follow do. -/
theorem section_apart {s : RawSection} (hs : w.Spells pos s.bytes next)
    (hrest : Tiles w todo d next sections d' stop) (hstop : stop ≤ w.stop)
    (hapart : stop ≤ r.start ∨ r.stop ≤ pos) :
    pos < next ∧ next ≤ w.stop ∧ (next ≤ r.start ∨ r.stop ≤ pos) ∧ (stop ≤ r.start ∨ r.stop ≤ next) := by
  have hlt := RawSection.pos_lt hs
  have hle := hrest.spells.stop_eq
  omega

/-- **Sections before the range or behind it** are read as before. -/
theorem Tiles.replaced (h : Tiles w todo d pos sections d' stop) (hv : w.AgreesOutside r v)
    (htodo : todo ⊆ knownSections) (hstop : stop ≤ w.stop) (hapart : stop ≤ r.start ∨ r.stop ≤ pos) :
    Tiles v todo (d.over v.bytes) pos sections (d'.over v.bytes) stop := by
  induction h with
  | nil => exact .nil
  | custom hc hs hrest ih =>
    obtain ⟨hlt, hle, hsection, hrest⟩ := section_apart hs hrest hstop hapart
    exact .custom hc (hv.spells hs (Nat.le_of_lt hlt) hle hsection) (ih htodo hstop hrest)
  | absent _ ih => exact .absent (ih (fun x hx => htodo (List.mem_cons_of_mem _ hx)) hstop hapart)
  | @known s content todo d d₁ pos next _ _ _ hid hs hcontent hrest ih =>
    obtain ⟨hlt, hle, hsection, hrest⟩ := section_apart hs hrest hstop hapart
    obtain ⟨-, hend, -⟩ := RawSection.spells_payload hs
    have hpayload : pos ≤ s.payloadAt pos := Nat.le_trans (Nat.le_succ pos) (Nat.le_add_right ..)
    have hmoves : (Relocation.inPlace v.bytes).Moves 0 { w with stop := next }
        { v with stop := next } (s.payloadAt pos) :=
      hv.moves (by omega) hle (hsection.imp_right (Nat.le_trans · hpayload))
    have hcontent' : content (d.over v.bytes) { v with stop := next } (s.payloadAt pos) =
        .ok (d₁.over v.bytes, next) := by
      have hread := (relocatable_of_mem (htodo List.mem_cons_self) d _ _ hmoves).2
      simp only [Relocation.relocate_inPlace] at hread
      refine hread.trans ?_
      rw [hcontent, ← Relocation.relocate_inPlace]
      rfl
    exact .known hid (hv.spells hs (Nat.le_of_lt hlt) hle hsection) hcontent'
      (ih (fun x hx => htodo (List.mem_cons_of_mem _ hx)) hstop hrest)

/-! ## Bodies -/

/-- The declarations of locals are a run of bytes. -/
theorem exists_accepts_locals (params : Array ValType) :
    ∃ F, (do Reader.iterate (← Reader.u32) localsEntry params).Accepts F := by
  have hentry (locals : Array ValType) : ∃ F, (localsEntry locals).Accepts F := by
    refine Reader.exists_accepts_bind ⟨_, Reader.accepts_u32⟩ fun n => Reader.exists_accepts_bind
      ⟨_, Reader.accepts_valType⟩ fun type => ?_
    split
    · exact Reader.exists_accepts_bind (Reader.exists_accepts_malformed _) fun _ =>
        ⟨_, Reader.accepts_pure _⟩
    · exact ⟨_, Reader.accepts_pure _⟩
  refine Reader.exists_accepts_bind ⟨_, Reader.accepts_u32⟩ fun n => ?_
  induction n generalizing params with
  | zero => exact ⟨_, Reader.accepts_pure _⟩
  | succ n ih => exact Reader.exists_accepts_bind (hentry params) ih

/-- The locals of a body are read as before, and its code starts where it did. -/
theorem locals_replaced {params : Array ValType} {locals : List ValType} {code : Nat}
    (hv : w.AgreesOutside r v) (hread : (do
      let all ← Reader.iterate (← Reader.u32) localsEntry params
      pure (all.toList, ← Reader.position)) w pos = .ok ((locals, code), next))
    (hcode : code ≤ w.stop) (hapart : code ≤ r.start ∨ r.stop ≤ pos) : (do
      let all ← Reader.iterate (← Reader.u32) localsEntry params
      pure (all.toList, ← Reader.position)) v pos = .ok ((locals, code), next) := by
  rw [← bind_assoc] at hread ⊢
  obtain ⟨all, mid, hread, hplace⟩ := Reader.bind_eq_ok_iff.1 hread
  cases hplace
  obtain ⟨F, hF⟩ := exists_accepts_locals params
  exact Reader.bind_eq_ok_iff.2 ⟨all, _, hv.accepted hF hread hcode hapart, rfl⟩

/-- **Of a body only what comes before its code is read.** -/
theorem bodyEntry_replaced (hv : w.AgreesOutside r v) (h : bodyEntry first d w pos = .ok (d', next)) :
    ∃ locals code, pos ≤ code ∧ code ≤ next ∧
      d' = { d with
        functions := d.functions.modify (first + d.bodyCount)
          ({ · with locals, body := ⟨code, next⟩ })
        bodyCount := d.bodyCount + 1 } ∧
      (code ≤ r.start ∨ r.stop ≤ pos →
        bodyEntry first (d.over v.bytes) v pos = .ok (d'.over v.bytes, next)) := by
  obtain ⟨length, start, hlength, h⟩ := Reader.bind_eq_ok_iff.1 h
  obtain ⟨_, _, ⟨⟩, h⟩ := Reader.bind_eq_ok_iff.1 h
  obtain ⟨_, _, hrequire, h⟩ := Reader.bind_eq_ok_iff.1 h
  have hstop : start + length ≤ w.stop := by
    by_contra hlt
    rw [Reader.require, if_neg hlt] at hrequire
    cases hrequire
  obtain ⟨⟩ : Except.ok ((), start) = .ok _ := (if_pos hstop).symm.trans hrequire
  obtain ⟨⟨locals, code⟩, _, hlocals, h⟩ := Reader.bind_eq_ok_iff.1 h
  obtain ⟨_, _, ⟨⟩, h⟩ := Reader.bind_eq_ok_iff.1 h
  obtain ⟨rfl, rfl⟩ := Reader.pure_eq_ok_iff.1 h
  have hstart : pos ≤ start := (Reader.ensures_u32 hv.stop_le hlength).1
  obtain ⟨hcode, hle⟩ := ensures_code (w := ⟨w.bytes, start + length⟩)
    (Nat.le_trans hstop hv.stop_le) hlocals
  refine ⟨locals, code, Nat.le_trans hstart hcode, hle, rfl, fun hapart => ?_⟩
  have hlength' := hv.accepted Reader.accepts_u32 hlength (by omega)
    (hapart.imp_left (Nat.le_trans hcode))
  have hrequire' : Reader.require length v start = .ok ((), start) := if_pos (hv.stop_eq ▸ hstop)
  have hlocals' := locals_replaced (hv.cut hstop) hlocals hle
    (hapart.imp_right (Nat.le_trans · hstart))
  rw [bodyEntry, Reader.bind_of_eq_ok hlength', Reader.bind_of_eq_ok rfl,
    Reader.bind_of_eq_ok hrequire']
  exact Reader.bind_eq_ok_iff.2 ⟨(locals, code), _, hlocals', rfl⟩

/-- **Bodies are read as before**, if the range is the code of one of them or stands before them. -/
theorem iterate_bodyEntry_replaced (hv : w.AgreesOutside r v)
    (h : Reader.iterate n (bodyEntry first) d w pos = .ok (d', next))
    (hsize : first + d.bodyCount + n ≤ d.functions.size)
    (hr : r.stop ≤ pos ∨ first + d.bodyCount ≤ func ∧ func < first + d.bodyCount + n ∧
      ∃ f, d'.functions[func]? = some f ∧ f.body = r) :
    Reader.iterate n (bodyEntry first) (d.over v.bytes) v pos = .ok (d'.over v.bytes, next) := by
  induction n generalizing d pos with
  | zero =>
    obtain ⟨rfl, rfl⟩ := Reader.pure_eq_ok_iff.1 h
    rfl
  | succ n ih =>
    obtain ⟨d₁, mid, hentry, h⟩ := Reader.bind_eq_ok_iff.1 h
    obtain ⟨locals, code, hcode, hle, rfl, hreplaced⟩ := bodyEntry_replaced hv hentry
    have hsize' : first + (d.bodyCount + 1) + n ≤
        (d.functions.modify (first + d.bodyCount) ({ · with locals, body := ⟨code, mid⟩ })).size := by
      rw [Array.size_modify]
      omega
    obtain ⟨bodies, hbodies, -, -, -, -, hsame, hhave⟩ := iterate_bodyEntry hv.stop_le h hsize'
    have hentry' (hapart : code ≤ r.start ∨ r.stop ≤ pos) := Reader.bind_of_eq_ok
      (f := Reader.iterate n (bodyEntry first)) (hreplaced hapart)
    obtain hbefore | ⟨hfirst, hlast, f, hf, rfl⟩ := hr
    · exact (hentry' (.inr hbefore)).trans (ih h hsize' (.inl (by omega)))
    rcases Nat.eq_or_lt_of_le hfirst with rfl | hlt
    · -- The range is the code of the body that has been read.
      have hread := (hsame _ (Nat.lt_succ_self (first + d.bodyCount))).symm.trans hf
      rw [Array.getElem?_modify, if_pos rfl] at hread
      obtain ⟨g, -, rfl⟩ := Option.map_eq_some_iff.1 hread
      exact (hentry' (.inl (Nat.le_refl _))).trans (ih h hsize' (.inl (Nat.le_refl _)))
    · have hwithin := hhave.within hf hlt (by rw [hbodies]; dsimp only; omega)
      exact (hentry' (.inl (by omega))).trans
        (ih h hsize' (.inr ⟨hlt, by dsimp only; omega, f, hf, rfl⟩))

/-- **The code section is read as before** if the range is the code of one of its bodies. -/
theorem codeSection_replaced (hv : w.AgreesOutside r v) (hcount : d.bodyCount = 0)
    (h : codeSection d w pos = .ok (d', next)) (hf : d'.functions[func]? = some f) (hr : f.body = r)
    (hfunc : d.importedCount ≤ func) :
    codeSection (d.over v.bytes) v pos = .ok (d'.over v.bytes, next) := by
  have hfirst : (d.over v.bytes).importedCount = d.importedCount := rfl
  obtain ⟨n, mid, hn, h⟩ := Reader.bind_eq_ok_iff.1 h
  dsimp only at h
  split at h
  · exact absurd h (by rw [Reader.bind_of_eq_error rfl]; simp)
  · next hsize =>
    have hsize := Decidable.not_not.1 hsize
    obtain ⟨bodies, hbodies, hspells, -, -, hfunctions, -, hhave⟩ :=
      iterate_bodyEntry hv.stop_le h (by omega)
    have hlt := (Array.getElem?_eq_some_iff.1 hf).1
    have hwithin := hhave.within hf (by omega) (by omega)
    have hmid := (Reader.ensures_u32 hv.stop_le hn).2
    have hn' := hv.accepted Reader.accepts_u32 hn hmid (.inl (by rw [← hr]; omega))
    rw [codeSection, Reader.bind_of_eq_ok hn', hfirst]
    change (if d.importedCount + n ≠ d.functions.size then _ else _ : Reader Draft) v mid = _
    rw [if_neg (not_not.2 hsize)]
    exact iterate_bodyEntry_replaced hv h (by omega) (.inr ⟨by omega, by omega, f, hf, hr⟩)

/-- A section with other bytes in its payload is a section of the same length. -/
theorem exists_section_replaced {s : RawSection} (hv : w.AgreesOutside r v)
    (hs : w.Spells pos s.bytes next) (hapart : s.payloadAt pos ≤ r.start) :
    ∃ s' : RawSection, s'.id = s.id ∧ s'.payloadAt pos = s.payloadAt pos ∧
      v.Spells pos s'.bytes next := by
  obtain ⟨hpayload, rfl, hnext⟩ := RawSection.spells_payload hs
  have hlength := (Sized.spells_payload hs.2).1
  have hlt : pos + 1 ≤ s.payloadAt pos := Nat.le_add_right ..
  have hle : s.payloadAt pos ≤ v.stop := hv.stop_eq ▸ Nat.le_trans (Nat.le_add_right ..) hnext
  have hid : v.Spells pos [s.id] (pos + 1) :=
    hv.spells ⟨hs.1, rfl⟩ (Nat.le_succ pos) (by omega) (.inl (by omega))
  have hlength' : v.Spells (pos + 1) s.length (s.payloadAt pos) :=
    hv.spells hlength hlt (Nat.le_trans (Nat.le_add_right ..) hnext) (.inl hapart)
  obtain ⟨payload, hpayload'⟩ : ∃ payload, v.Spells (s.payloadAt pos) payload
      (s.payloadAt pos + s.payload.length) :=
    ⟨_, (Window.spells_iff_extract hv.stop_le_size hle).2
      ⟨Nat.le_add_right .., hv.stop_eq ▸ hnext, rfl⟩⟩
  have hsame : s.payload.length = payload.length := Nat.add_left_cancel hpayload'.stop_eq
  let s' : RawSection := { s with payload, encodes := hsame ▸ s.encodes }
  exact ⟨s', rfl, rfl, hid.1, Window.spells_append.2 ⟨_, hlength', hpayload'⟩⟩

/-- **All sections are read as before** if the range is the code of one of the functions. -/
theorem Tiles.replaced_code (hv : w.AgreesOutside r v) (h : Tiles w knownSections d pos sections d' stop)
    (hcount : d.bodyCount = 0) (hend : d'.functions.size - d'.importedCount = d'.bodyCount)
    (hf : d'.functions[func]? = some f) (hr : f.body = r) (hfunc : d'.importedCount ≤ func)
    (hstop : stop ≤ w.stop) :
    pos < r.start ∧
      ∃ sections', Tiles v knownSections (d.over v.bytes) pos sections' (d'.over v.bytes) stop := by
  have hlt := (Array.getElem?_eq_some_iff.1 hf).1
  obtain ⟨-, hnone⟩ | ⟨first, s, second, d₁, d₂, mid, next, rfl, hid, hfirst, hs, hcontent, hsecond,
    hcount₁, hfunctions, hbodyCount⟩ := h.exists_code hcount hend
  · omega
  have hnext : next ≤ w.stop := (RawSection.spells_payload hs).2.2
  have hstart := hfirst.spells.stop_eq
  -- The code of the function is in the code section.
  obtain ⟨count, bodies, -, hbytes, -, hbodies, hsize, hhave⟩ := codeSection_bodies
    (w := ⟨w.bytes, next⟩) (Nat.le_trans hnext hv.stop_le) hcount₁ hcontent
  rw [← hfunctions] at hsize hhave
  have hle : d'.importedCount ≤ d'.functions.size := Guarded.importedCount_le d'.toModule
  have hwithin := hhave.within hf (by omega) (by omega)
  have hlength := hbytes.stop_eq
  rw [List.length_append] at hlength
  have hpayload : mid < s.payloadAt mid :=
    Nat.lt_of_lt_of_le (Nat.lt_succ_self _) (Nat.le_add_right ..)
  obtain ⟨s', hid', hpayload', hs'⟩ := exists_section_replaced hv hs (by rw [← hr]; omega)
  have hcontent' : codeSection (d₁.over v.bytes) { v with stop := next } (s'.payloadAt mid) =
      .ok (d₂.over v.bytes, next) := by
    rw [hpayload']
    exact codeSection_replaced (hv.cut hnext) hcount₁ hcontent (hfunctions ▸ hf) hr (by omega)
  have hknown : (s'.id, codeSection) = (10, codeSection) := by rw [hid', hid]
  have hbefore := hfirst.replaced hv (List.subset_append_left ..) (by omega)
    (.inl (by rw [← hr]; omega))
  have hafter := hsecond.replaced hv (by simp [knownSections]) hstop (.inr (by rw [← hr]; omega))
  have hcode := Tiles.known (by rw [hid', hid]; decide) hs' hcontent' hafter
  rw [hknown] at hcode
  exact ⟨by rw [← hr]; omega, first ++ s' :: second, hbefore.append hcode⟩

/-- What is finished is finished over other bytes. -/
theorem finish_over {m : Module} (hend : d.finish w pos = .ok (m, next)) (hget : v.get? pos = none) :
    (d.over v.bytes).finish v pos = .ok ({ m with bytes := v.bytes }, next) := by
  obtain ⟨rfl, rfl, hnone, -⟩ := ensures_finish hend
  have hfinish := finish_relocate (d := d) (ρ := .inPlace v.bytes) (v := v) (k := 0)
    (hget.trans hnone.symm)
  rw [hend, Relocation.relocate_inPlace] at hfinish
  refine hfinish.trans (congrArg (fun m => Except.ok (m, next)) ?_)
  exact congrArg Draft.toModule (Relocation.relocate_inPlace d)

end Draft

/-! ## Modules -/

namespace Module

variable {bytes bytes' : ByteArray} {m : Module} {func : Nat} {f : Function}

/-- **A decoded module with other code in a body** is the module over other bytes. -/
theorem decode_replaced (h : decode bytes = .ok m) (hf : m.functions[func]? = some f)
    (hfunc : m.importedCount ≤ func) (hsize : bytes'.size = bytes.size)
    (hget : ∀ p, p < f.body.start ∨ f.body.stop ≤ p → bytes'[p]? = bytes[p]?) :
    decode bytes' = .ok { m with bytes := bytes' } := by
  let w : Window := .ofBytes bytes
  let v : Window := .ofBytes bytes'
  have hv : w.AgreesOutside f.body v := by
    refine ⟨hsize, Nat.le_refl _, Nat.le_refl _, fun p hp => ?_⟩
    rw [Window.get?, Window.get?, show v.stop = w.stop from hsize]
    exact congrArg (ite _ · none) (hget p hp)
  obtain ⟨sections, d, hmagic, htiles, hfinish⟩ := decode_finish h
  obtain ⟨-, rfl, hend, hcount⟩ := Draft.ensures_finish hfinish
  obtain ⟨hstart, sections', htiles'⟩ := htiles.replaced_code hv rfl hcount hf rfl hfunc (Nat.le_refl _)
  have hmagic' := hv.spells hmagic (by decide) (hmagic.stop_le (Nat.zero_le _)) (.inl (by omega))
  have hend' : v.get? bytes.size = none := if_neg (by rw [hv.stop_eq]; exact Nat.lt_irrefl _)
  have hrest : Draft.rest Draft.knownSections _ v 8 =
      .ok ({ d.toModule with bytes := bytes' }, bytes.size) :=
    Draft.rest_of_tiles hv.stop_le_size htiles' (Draft.finish_over hfinish hend') (by decide)
  rw [decode_eq, Reader.bind_of_eq_ok ((header_eq_ok_iff (u := ()) (Nat.le_refl _)).2 ⟨hmagic', rfl⟩)]
  exact congrArg (Except.map Prod.fst) hrest

end Module

end WasmEngine
