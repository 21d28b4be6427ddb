import WasmEngine.Proofs.Encoding.Entries

/-!
# Proofs/Encoding/Framing — sections one behind the other

A section that is there is read and one that is left out is passed over (`knownSection_of_spells`,
`knownSection_of_absent`); custom sections are skipped wherever they stand (`skip_customs`).
-/

namespace WasmEngine

theorem Reader.bind_congr {α β : Type} {r : Reader α} {f g : α → Reader β} {w : Window} {pos : Nat}
    (h : ∀ a next, r w pos = .ok (a, next) → f a w next = g a w next) :
    (r >>= f) w pos = (r >>= g) w pos := by
  cases hr : r w pos with
  | error e => rw [bind_of_eq_error hr, bind_of_eq_error hr]
  | ok x =>
    obtain ⟨a, next⟩ := x
    rw [bind_of_eq_ok hr, bind_of_eq_ok hr, h a next hr]

open Encoding

namespace Draft

variable {w : Window} {pos next : Nat} {d d' : Draft}

/-! ## Custom sections -/

theorem customSectionsUpTo_of_ne {n : Nat} (h : w.get? pos ≠ some 0) :
    customSectionsUpTo n d w pos = .ok (d, pos) := by
  cases n with
  | zero => rfl
  | succ n =>
    have hpeek : Reader.peek? w pos = .ok (w.get? pos, pos) := rfl
    rw [customSectionsUpTo, Reader.bind_of_eq_ok hpeek, if_neg h]
    rfl

theorem skipCustomSections_of_ne (h : w.get? pos ≠ some 0) :
    skipCustomSections d w pos = .ok (d, pos) :=
  customSectionsUpTo_of_ne (n := w.stop - pos) h

/-- The bytes left bound the number of custom sections. -/
theorem customSectionsUpTo_congr {n m : Nat} (hn : w.stop - pos ≤ n) (hm : w.stop - pos ≤ m) :
    customSectionsUpTo n d w pos = customSectionsUpTo m d w pos := by
  by_cases h0 : w.get? pos = some 0
  case neg => rw [customSectionsUpTo_of_ne h0, customSectionsUpTo_of_ne h0]
  have hlt := (Window.get?_eq_some_iff.1 h0).1
  induction n generalizing m d pos with
  | zero => omega
  | succ n ih =>
    cases m with
    | zero => omega
    | succ m =>
      refine Reader.bind_congr fun b p hb => ?_
      cases hb
      rw [if_pos h0, if_pos h0]
      -- Whatever the section is, the next one starts behind its id.
      refine Reader.bind_congr fun _ p₁ h₁ => Reader.bind_congr fun length p₂ h₂ => ?_
      obtain ⟨b, h₁, -⟩ := Reader.map_eq_ok_iff.1 h₁
      obtain ⟨-, rfl⟩ := Reader.byte_eq_ok_iff.1 h₁
      have hlt : pos + 1 < p₂ := Leb128.lt_of_unsignedGroups h₂
      refine Reader.bind_congr fun start p₃ h₃ => Reader.bind_congr fun _ p₄ h₄ =>
        Reader.bind_congr fun x p₅ h₅ => Reader.bind_congr fun _ p₆ h₆ => ?_
      cases h₃
      cases h₆
      by_cases h0 : w.get? (p₂ + length) = some 0
      · exact ih (by omega) (by omega) h0 (Window.get?_eq_some_iff.1 h0).1
      · rw [customSectionsUpTo_of_ne h0, customSectionsUpTo_of_ne h0]

/-- The draft with more custom sections. -/
def addCustoms (d : Draft) (customs : List CustomSection) : Draft :=
  { d with customSections := d.customSections ++ customs }

/-- Where the content of a section of a length starts. -/
abbrev contentAt (pos length : Nat) : Nat := pos + 1 + (u32 length).length

section Frame

variable {id : UInt8} {bs : List UInt8}

/-- The content of a section stands behind the id and the length. -/
theorem spells_content (h : w.Spells pos (id :: sized bs) next) :
    w.get? pos = some id ∧ w.Spells (pos + 1) (u32 bs.length) (contentAt pos bs.length) ∧
      w.Spells (contentAt pos bs.length) bs next ∧ next = contentAt pos bs.length + bs.length ∧
        next ≤ w.stop := by
  obtain ⟨hget, hs⟩ := Window.spells_cons.1 h
  obtain ⟨start, hlen, hbs⟩ := Window.spells_append.1 hs
  obtain rfl := hlen.stop_eq
  exact ⟨hget, hlen, hbs, hbs.stop_eq, hs.stop_le (Window.get?_eq_some_iff.1 hget).1⟩

/-- The id and the length of a section have been read. -/
theorem frame_bind {α : Type} {k : Nat → Nat → Reader α} (hw : w.stop ≤ w.bytes.size)
    (h : w.Spells pos (id :: sized bs) next) (hlen : bs.length < 2 ^ 32) :
    (do
      discard Reader.byte
      let length ← Reader.u32
      let start ← Reader.position
      Reader.require length
      k length start) w pos = k bs.length (contentAt pos bs.length) w (contentAt pos bs.length) := by
  obtain ⟨hget, hlength, -, rfl, hstop⟩ := spells_content h
  have hid : discard Reader.byte w pos = .ok ((), pos + 1) :=
    Reader.map_eq_ok_iff.2 ⟨id, Reader.byte_eq_ok_iff.2 ⟨hget, rfl⟩, rfl⟩
  have hu32 : Reader.u32 w (pos + 1) = .ok (bs.length, contentAt pos bs.length) :=
    (Reader.accepts_u32 hw).2 ⟨_, hlength, encodesUnsigned_u32 hlen⟩
  have hposition : Reader.position w (contentAt pos bs.length) =
    .ok (contentAt pos bs.length, contentAt pos bs.length) := rfl
  have hrequire : Reader.require bs.length w (contentAt pos bs.length) =
    .ok ((), contentAt pos bs.length) := if_pos hstop
  rw [Reader.bind_of_eq_ok hid, Reader.bind_of_eq_ok hu32, Reader.bind_of_eq_ok hposition,
    Reader.bind_of_eq_ok hrequire]

end Frame

/-- **A custom section is skipped** and kept. -/
theorem skip_custom {c : Source.Custom} (hw : w.stop ≤ w.bytes.size)
    (hs : w.Spells pos c.bytes next) (hlen : c.content.length < 2 ^ 32) :
    skipCustomSections d w pos = skipCustomSections (d.addCustoms [c.record pos]) w next := by
  obtain ⟨hget, -, hcontent, hnext, hstop⟩ := spells_content hs
  have hskip (d : Draft) (pos : Nat) :
      skipCustomSections d w pos = customSectionsUpTo (w.stop - pos) d w pos := rfl
  obtain ⟨n, hn⟩ : ∃ n, w.stop - pos = n + 1 := ⟨w.stop - pos - 1, by
    have := (Window.get?_eq_some_iff.1 hget).1
    omega⟩
  have hpeek : Reader.peek? w pos = .ok (some 0, pos) := by rw [Reader.peek?, hget]
  have hlength : c.content.length = (text c.name).length + c.payload.length := by
    rw [Source.Custom.content, List.length_append]
  have hname : Reader.within next (do
        let name ← Reader.name
        pure (name, ← Reader.position)) w (contentAt pos c.content.length) =
      .ok ((c.name, c.start pos), c.start pos) := by
    obtain ⟨mid, hs, -⟩ := Window.spells_append.1 hcontent
    have hmid := hs.stop_eq
    have hreads : Reads (do
        let name ← Reader.name
        pure (name, ← Reader.position)) { w with stop := next } (contentAt pos c.content.length)
        (text c.name) (c.name, c.start pos) :=
      (reads_text c.name).before (.after reads_position (reads_pure _))
    exact hreads.within (by omega) hstop (by omega) hw (by omega) (hmid ▸ hs)
  rw [hskip, hskip, hn, customSectionsUpTo, Reader.bind_of_eq_ok hpeek, if_pos rfl,
    frame_bind hw hs hlen, ← hnext, Reader.bind_of_eq_ok hname]
  have hcontentAt : contentAt pos c.content.length = pos + 1 + (u32 c.content.length).length := rfl
  have hrecord : c.record pos = ⟨c.name, ⟨c.start pos, next⟩⟩ := by
    have hend : c.start pos + c.payload.length = next := by
      rw [Source.Custom.start]
      omega
    rw [Source.Custom.record, hend]
  rw [hrecord]
  exact customSectionsUpTo_congr (by omega) (Nat.le_refl _)

theorem skip_customs {customs : List Source.Custom} (hw : w.stop ≤ w.bytes.size)
    (hs : w.Spells pos (customs.flatMap Source.Custom.bytes) next)
    (hlen : ∀ c ∈ customs, c.content.length < 2 ^ 32) :
    skipCustomSections d w pos =
      skipCustomSections (d.addCustoms (place Source.Custom.bytes Source.Custom.record pos customs))
        w next := by
  induction customs generalizing d pos with
  | nil =>
    obtain rfl : next = pos := hs
    simp [addCustoms, place]
  | cons c customs ih =>
    obtain ⟨hc, hcustoms⟩ := List.forall_mem_cons.1 hlen
    obtain ⟨mid, hfirst, hrest⟩ := Window.spells_append.1 hs
    rw [skip_custom hw hfirst hc, ih hrest hcustoms, hfirst.stop_eq]
    simp [addCustoms, place]

/-! ## Known sections -/

variable {id : UInt8} {content : Draft → Reader Draft}

theorem knownSection_of_absent (h : w.get? pos ≠ some id) :
    knownSection id content d w pos = skipCustomSections d w pos := by
  have hpeek : Reader.peek? w pos = .ok (w.get? pos, pos) := rfl
  rw [knownSection, Reader.bind_of_eq_ok hpeek]
  change (if w.get? pos = some id then _ else skipCustomSections d : Reader Draft) w pos = _
  rw [if_neg h]

theorem knownSection_of_spells {bs : List UInt8} (hw : w.stop ≤ w.bytes.size)
    (hs : w.Spells pos (id :: sized bs) next) (hlen : bs.length < 2 ^ 32)
    (h : Reads (content d) { w with stop := next } (contentAt pos bs.length) bs d') :
    knownSection id content d w pos = skipCustomSections d' w next := by
  obtain ⟨hget, -, hcontent, hnext, hstop⟩ := spells_content hs
  have hpeek : Reader.peek? w pos = .ok (some id, pos) := by rw [Reader.peek?, hget]
  have hread : Reader.within next (content d) w (contentAt pos bs.length) = .ok (d', next) := by
    have := h.within (by omega) hstop hlen hw (by omega) (hnext ▸ hcontent)
    rwa [← hnext] at this
  have hposition : Reader.position w next = .ok (next, next) := rfl
  rw [knownSection, Reader.bind_of_eq_ok hpeek]
  change (if some id = some id then _ else _ : Reader Draft) w pos = _
  rw [if_pos rfl, frame_bind hw hs hlen, ← hnext, Reader.bind_of_eq_ok hread,
    Reader.bind_of_eq_ok hposition]
  rw [if_neg (fun h => h rfl)]
  rfl

end Draft

end WasmEngine
