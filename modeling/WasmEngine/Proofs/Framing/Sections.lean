import WasmEngine.Proofs.Decode.Ensures
import WasmEngine.Proofs.Encoding.RoundTrip

/-!
# Proofs/Framing/Sections — a section as bytes and as what is read of it

A `RawSection` is an id, a length and a payload of that length, whatever the payload holds.  Behind the
id a known section is read by `Draft.sectionContent` and a custom one by `Draft.customContent`, which
succeed exactly on sections whose payload is what its reader takes, to the last byte
(`Draft.sectionContent_eq_ok_iff`, `Draft.customContent_eq_ok_iff`).

Decoding goes on section by section: `Draft.rest` reads what is left of a module, given the known
sections that may still come, and the id of the next section tells what it does.
-/

namespace WasmEngine

/-! ## Runs of bytes -/

namespace Window

variable {w : Window} {pos mid next stop : Nat} {as bs : List UInt8}

theorem get?_of_cut {b : UInt8} (hstop : stop ≤ w.stop)
    (h : ({ w with stop } : Window).get? pos = some b) : w.get? pos = some b := by
  obtain ⟨hlt, hb⟩ := get?_eq_some_iff.1 h
  exact get?_eq_some_iff.2 ⟨Nat.lt_of_lt_of_le hlt hstop, hb⟩

/-- A run begins with every shorter run from the same place. -/
theorem Spells.exists_append (h : w.Spells pos as mid) (h' : w.Spells pos bs next)
    (hle : mid ≤ next) : ∃ cs, bs = as ++ cs ∧ w.Spells mid cs next := by
  induction as generalizing pos bs with
  | nil =>
    obtain rfl : mid = pos := h
    exact ⟨bs, rfl, h'⟩
  | cons a as ih =>
    have hmid := h.stop_eq
    cases bs with
    | nil =>
      obtain rfl : next = pos := h'
      rw [List.length_cons] at hmid
      omega
    | cons b bs =>
      obtain rfl : a = b := Option.some.inj (h.1.symm.trans h'.1)
      obtain ⟨cs, rfl, hcs⟩ := ih h.2 h'.2
      exact ⟨cs, rfl, hcs⟩

end Window

/-! ## Sections and names -/

/-- Bytes with their length in front of them, which need not be in its shortest form. -/
structure Sized where
  length : List UInt8
  payload : List UInt8
  encodes : EncodesU32 payload.length length

/-- A section as it stands in the bytes. -/
structure RawSection extends Sized where
  id : UInt8

/-- `bs` writes a name: the length of a text, and the text in UTF-8. -/
def EncodesName (name : String) (bs : List UInt8) : Prop :=
  ∃ length text, bs = length ++ text ∧ EncodesU32 text.length length ∧
    Utf8.decode? text = some name

namespace Sized

/-- The length and the payload. -/
def bytes (b : Sized) : List UInt8 := b.length ++ b.payload

/-- Where the payload starts. -/
def payloadAt (b : Sized) (pos : Nat) : Nat := pos + b.length.length

variable {b : Sized} {w : Window} {pos next : Nat}

theorem length_pos (b : Sized) : 0 < b.length.length :=
  List.length_pos_of_ne_nil b.encodes.isGroups.ne_nil

theorem spells_payload (h : w.Spells pos b.bytes next) :
    w.Spells pos b.length (b.payloadAt pos) ∧ w.Spells (b.payloadAt pos) b.payload next ∧
      next = b.payloadAt pos + b.payload.length ∧ next ≤ w.stop := by
  obtain ⟨start, hlength, hpayload⟩ := Window.spells_append.1 h
  obtain rfl : start = b.payloadAt pos := hlength.stop_eq
  refine ⟨hlength, hpayload, hpayload.stop_eq, h.stop_le ?_⟩
  obtain ⟨c, cs, hcons⟩ := List.exists_cons_of_ne_nil b.encodes.isGroups.ne_nil
  exact Nat.le_of_lt (Window.get?_eq_some_iff.1 (hcons ▸ hlength).1).1

end Sized

namespace RawSection

/-- The bytes of a section. -/
def bytes (s : RawSection) : List UInt8 := s.id :: s.toSized.bytes

/-- Where the payload of a section starts. -/
def payloadAt (s : RawSection) (pos : Nat) : Nat := s.toSized.payloadAt (pos + 1)

/-- A custom section has the id zero, and its payload is a name with data behind it. -/
def IsCustom (s : RawSection) (name : String) (data : List UInt8) : Prop :=
  s.id = 0 ∧ ∃ bs, EncodesName name bs ∧ s.payload = bs ++ data

variable {s : RawSection} {w : Window} {pos next : Nat}

theorem pos_lt (h : w.Spells pos s.bytes next) : pos < next := by
  rw [h.stop_eq, bytes, List.length_cons]
  omega

theorem spells_payload (h : w.Spells pos s.bytes next) :
    w.Spells (s.payloadAt pos) s.payload next ∧ next = s.payloadAt pos + s.payload.length ∧
      next ≤ w.stop :=
  (Sized.spells_payload h.2).2

end RawSection

/-- **The name reader takes exactly the bytes of names.** -/
theorem Reader.accepts_name : Reader.Accepts Reader.name EncodesName := by
  intro w pos name next hw
  simp only [Reader.name, Reader.bind_eq_ok_iff, Reader.skip_eq_ok_iff, Reader.window_eq_ok_iff]
  constructor
  · rintro ⟨n, start, hn, mid, _, ⟨rfl, rfl, hle⟩, _, _, ⟨rfl, rfl⟩, h⟩
    obtain ⟨length, hlength, hencodes⟩ := (Reader.accepts_u32 hw).1 hn
    cases htext : Utf8.decode? (w.bytes.extract mid (mid + n)).toList with
    | none =>
      rw [htext] at h
      exact absurd h Reader.malformed_ne_ok
    | some text =>
      rw [htext] at h
      obtain ⟨rfl, rfl⟩ := Reader.pure_eq_ok_iff.1 h
      have hs := (Window.spells_iff_extract hw (by omega)).2 ⟨Nat.le_add_right mid n, hle, rfl⟩
      refine ⟨_, Window.spells_append.2 ⟨mid, hlength, hs⟩, length, _, rfl, ?_, htext⟩
      obtain hlen : n = _ := Nat.add_left_cancel hs.stop_eq
      exact hlen ▸ hencodes
  · rintro ⟨_, hs, length, text, rfl, hencodes, htext⟩
    obtain ⟨mid, hlength, htail⟩ := Window.spells_append.1 hs
    obtain ⟨b, bs, rfl⟩ := List.exists_cons_of_ne_nil hencodes.isGroups.ne_nil
    have hmid : mid ≤ w.stop :=
      hlength.stop_le (Nat.le_of_lt (Window.get?_eq_some_iff.1 hlength.1).1)
    obtain rfl : next = mid + text.length := htail.stop_eq
    obtain ⟨-, hle, hextract⟩ := (Window.spells_iff_extract hw hmid).1 htail
    refine ⟨text.length, mid, (Reader.accepts_u32 hw).2 ⟨_, hlength, hencodes⟩, mid, _,
      ⟨rfl, rfl, hle⟩, w, _, ⟨rfl, rfl⟩, ?_⟩
    rw [hextract, htext]
    rfl

/-- Readers that do the same leave the same to whatever comes behind them. -/
theorem Reader.bind_eq_of_run {α β : Type} {r q : Reader α} {w : Window} {pos pos' : Nat}
    (g : α → Reader β) (h : r w pos = q w pos') : (r >>= g) w pos = (q >>= g) w pos' := by
  change (r w pos >>= fun x => g x.1 w x.2) = (q w pos' >>= fun x => g x.1 w x.2)
  rw [h]

namespace Draft

variable {w : Window} {pos next : Nat} {d d' : Draft} {id : UInt8} {content : Draft → Reader Draft}

/-! ## Behind the id -/

/-- Reads a known section behind its id: its content must fill its payload. -/
def sectionContent (content : Draft → Reader Draft) (d : Draft) : Reader Draft := do
  let length ← Reader.u32
  let start ← Reader.position
  Reader.require length
  let d ← Reader.within (start + length) (content d)
  if (← Reader.position) ≠ start + length then Reader.malformed .sectionSizeMismatch
  pure d

/-- Reads a custom section behind its id, and keeps its name and the place of its data. -/
def customContent (d : Draft) : Reader Draft := do
  let length ← Reader.u32
  let start ← Reader.position
  Reader.require length
  let (name, content) ← Reader.within (start + length) do
    let name ← Reader.name
    pure (name, ← Reader.position)
  Reader.seek (start + length)
  pure (d.addCustoms [⟨name, ⟨content, start + length⟩⟩])

/-- A length has been read, and the bytes that it counts are there. -/
theorem length_bind {α : Type} {b : Sized} {k : Nat → Nat → Reader α} (hw : w.stop ≤ w.bytes.size)
    (h : w.Spells pos b.bytes next) :
    (do
      let length ← Reader.u32
      let start ← Reader.position
      Reader.require length
      k length start) w pos = k b.payload.length (b.payloadAt pos) w (b.payloadAt pos) := by
  obtain ⟨hlength, -, rfl, hstop⟩ := Sized.spells_payload h
  have hu32 : Reader.u32 w pos = .ok (b.payload.length, b.payloadAt pos) :=
    (Reader.accepts_u32 hw).2 ⟨_, hlength, b.encodes⟩
  have hposition : Reader.position w (b.payloadAt pos) = .ok (b.payloadAt pos, b.payloadAt pos) :=
    rfl
  have hrequire : Reader.require b.payload.length w (b.payloadAt pos) = .ok ((), b.payloadAt pos) :=
    if_pos hstop
  rw [Reader.bind_of_eq_ok hu32, Reader.bind_of_eq_ok hposition, Reader.bind_of_eq_ok hrequire]

/-- A length that has been read has the bytes that it counts behind it. -/
theorem exists_sized {α : Type} {k : Nat → Nat → Reader α} {x : α × Nat}
    (hw : w.stop ≤ w.bytes.size)
    (h : (do
      let length ← Reader.u32
      let start ← Reader.position
      Reader.require length
      k length start) w pos = .ok x) :
    ∃ b : Sized, w.Spells pos b.bytes (b.payloadAt pos + b.payload.length) ∧
      k b.payload.length (b.payloadAt pos) w (b.payloadAt pos) = .ok x := by
  obtain ⟨n, start, hn, h'⟩ := Reader.bind_eq_ok_iff.1 h
  simp only [Reader.bind_eq_ok_iff, Reader.position_eq_ok_iff] at h'
  obtain ⟨_, _, ⟨rfl, rfl⟩, _, mid, hrequire, -⟩ := h'
  obtain ⟨length, hlength, hencodes⟩ := (Reader.accepts_u32 hw).1 hn
  have hle : start + n ≤ w.stop := by
    by_contra hlt
    rw [Reader.require, if_neg hlt] at hrequire
    cases hrequire
  have hpayload := (Window.spells_iff_extract hw (by omega)).2 ⟨Nat.le_add_right start n, hle, rfl⟩
  generalize (w.bytes.extract start (start + n)).toList = payload at hpayload
  obtain rfl : n = payload.length := Nat.add_left_cancel hpayload.stop_eq
  obtain rfl := hlength.stop_eq
  let b : Sized := ⟨length, payload, hencodes⟩
  have hs : w.Spells pos b.bytes (b.payloadAt pos + b.payload.length) :=
    Window.spells_append.2 ⟨_, hlength, hpayload⟩
  exact ⟨b, hs, (length_bind hw hs).symm.trans h⟩

/-- **A known section is read** exactly if its content ends with its payload. -/
theorem sectionContent_eq_ok_iff (hw : w.stop ≤ w.bytes.size) (hget : w.get? pos = some id) :
    sectionContent content d w (pos + 1) = .ok (d', next) ↔
      ∃ s : RawSection, s.id = id ∧ w.Spells pos s.bytes next ∧
        content d { w with stop := next } (s.payloadAt pos) = .ok (d', next) := by
  constructor
  · intro h
    obtain ⟨b, hs, h⟩ := exists_sized hw h
    obtain ⟨d₁, mid, hcontent, h⟩ := Reader.bind_eq_ok_iff.1 h
    obtain ⟨_, _, hposition, h⟩ := Reader.bind_eq_ok_iff.1 h
    obtain ⟨rfl, rfl⟩ := Reader.position_eq_ok_iff.1 hposition
    split at h
    · exact absurd h (by rw [Reader.bind_of_eq_error rfl]; simp)
    · next hmid =>
      obtain ⟨rfl, rfl⟩ := Reader.pure_eq_ok_iff.1 h
      have hmid := Decidable.not_not.1 hmid
      rw [← hmid] at hs
      rw [Reader.within, ← hmid] at hcontent
      exact ⟨⟨b, id⟩, rfl, ⟨hget, hs⟩, hcontent⟩
  · rintro ⟨s, -, ⟨-, hs⟩, h⟩
    obtain ⟨-, -, rfl, -⟩ := Sized.spells_payload hs
    rw [sectionContent, length_bind hw hs]
    refine Reader.bind_eq_ok_iff.2 ⟨d', _, h, Reader.bind_eq_ok_iff.2
      ⟨_, _, Reader.position_eq_ok_iff.2 ⟨rfl, rfl⟩, ?_⟩⟩
    rw [if_neg fun hne => hne rfl]
    rfl

/-- **A custom section is read** exactly if its payload begins with a name. -/
theorem customContent_eq_ok_iff (hw : w.stop ≤ w.bytes.size) (hget : w.get? pos = some 0) :
    customContent d w (pos + 1) = .ok (d', next) ↔
      ∃ (s : RawSection) (name : String) (data : List UInt8), s.IsCustom name data ∧
        w.Spells pos s.bytes next ∧ d' = d.addCustoms [⟨name, ⟨next - data.length, next⟩⟩] := by
  constructor
  · intro h
    obtain ⟨b, hs, h⟩ := exists_sized hw h
    obtain ⟨-, hpayload, -, hstop⟩ := Sized.spells_payload hs
    obtain ⟨⟨name, start⟩, mid, hname, h⟩ := Reader.bind_eq_ok_iff.1 h
    obtain ⟨_, _, hseek, h⟩ := Reader.bind_eq_ok_iff.1 h
    cases hseek
    obtain ⟨rfl, rfl⟩ := Reader.pure_eq_ok_iff.1 h
    obtain ⟨_, _, hread, hname⟩ := Reader.bind_eq_ok_iff.1 hname
    obtain ⟨_, _, hposition, hname⟩ := Reader.bind_eq_ok_iff.1 hname
    obtain ⟨rfl, rfl⟩ := Reader.position_eq_ok_iff.1 hposition
    obtain ⟨hpair, rfl⟩ := Reader.pure_eq_ok_iff.1 hname
    obtain ⟨rfl, rfl⟩ := Prod.mk.inj hpair
    obtain ⟨bs, hbs, hencodes⟩ := (Reader.accepts_name (w := ⟨w.bytes, _⟩)
      (Nat.le_trans hstop hw)).1 hread
    -- What the name leaves of the payload is the data.
    obtain ⟨data, hdata, hrest⟩ := (hbs.mono fun p b hb => Window.get?_of_cut hstop hb).exists_append
      hpayload (hbs.stop_le (Nat.le_add_right _ _))
    refine ⟨⟨b, 0⟩, _, data, ⟨rfl, bs, hencodes, hdata⟩, ⟨hget, hs⟩, ?_⟩
    rw [hrest.stop_eq, Nat.add_sub_cancel]
  · rintro ⟨s, name, data, ⟨-, bs, hencodes, hdata⟩, ⟨-, hs⟩, rfl⟩
    obtain ⟨-, hpayload, rfl, hstop⟩ := Sized.spells_payload hs
    obtain ⟨mid, hbs, hrest⟩ := Window.spells_append.1 (hdata ▸ hpayload)
    have hmid := hbs.stop_eq
    have hlen : s.payload.length = bs.length + data.length := by rw [hdata, List.length_append]
    have hread : Reader.name { w with stop := s.toSized.payloadAt (pos + 1) + s.payload.length }
        (s.toSized.payloadAt (pos + 1)) = .ok (name, mid) :=
      (Reader.accepts_name (w := ⟨w.bytes, _⟩) (Nat.le_trans hstop hw)).2
        ⟨bs, hbs.within (by omega), hencodes⟩
    have hstart : s.toSized.payloadAt (pos + 1) + s.payload.length - data.length = mid := by omega
    rw [customContent, length_bind hw hs, hstart]
    refine Reader.bind_eq_ok_iff.2 ⟨(name, mid), mid, ?_, rfl⟩
    exact Reader.bind_eq_ok_iff.2 ⟨name, mid, hread, rfl⟩

/-- A section ends behind the place where its length starts. -/
theorem ensures_customContent (hw : w.stop ≤ w.bytes.size) :
    Reader.Ensures (customContent d) w pos fun _ next => pos ≤ next := by
  refine (Reader.ensures_u32 hw).andThen fun n start hstart => ?_
  simp only [Reader.ensures_bind, Reader.ensures_position, Reader.ensures_require,
    Reader.ensures_within, Reader.ensures_seek, Reader.ensures_pure]
  exact fun _ => Reader.ensures_of_forall fun _ _ => Nat.le_trans hstart.1 (Nat.le_add_right ..)

/-! ## What is left of a module -/

/-- Reads the known sections of `todo` that come, in their order. -/
def remaining (todo : List (UInt8 × (Draft → Reader Draft))) (d : Draft) : Reader Draft :=
  todo.foldlM (fun d (id, content) => knownSection id content d) d

/-- Reads what is left of a module.  Of the known sections, those of `todo` may still come. -/
def rest (todo : List (UInt8 × (Draft → Reader Draft))) (d : Draft) : Reader Module := do
  let d ← skipCustomSections d
  let d ← remaining todo d
  d.finish

theorem skipCustomSections_of_custom (hw : w.stop ≤ w.bytes.size) (hget : w.get? pos = some 0) :
    skipCustomSections d w pos = (customContent d >>= skipCustomSections) w (pos + 1) := by
  obtain ⟨n, hn⟩ : ∃ n, w.stop - pos = n + 1 := ⟨w.stop - pos - 1, by
    have := (Window.get?_eq_some_iff.1 hget).1
    omega⟩
  have hskip (d : Draft) (pos : Nat) :
      skipCustomSections d w pos = customSectionsUpTo (w.stop - pos) d w pos := rfl
  have hpeek : Reader.peek? w pos = .ok (some 0, pos) := by rw [Reader.peek?, hget]
  have hbyte : discard Reader.byte w pos = .ok ((), pos + 1) :=
    Reader.map_eq_ok_iff.2 ⟨0, Reader.byte_eq_ok_iff.2 ⟨hget, rfl⟩, rfl⟩
  have hstep : customSectionsUpTo (n + 1) d w pos =
      (customContent d >>= customSectionsUpTo n) w (pos + 1) := by
    rw [customSectionsUpTo, Reader.bind_of_eq_ok hpeek, if_pos rfl, Reader.bind_of_eq_ok hbyte]
    simp only [customContent, bind_assoc, pure_bind]
    rfl
  rw [hskip, hn, hstep]
  refine Reader.bind_congr fun d' next h => ?_
  have hle := ensures_customContent hw h
  rw [hskip]
  exact customSectionsUpTo_congr (by omega) (Nat.le_refl _)

theorem knownSection_of_present (hget : w.get? pos = some id) :
    knownSection id content d w pos =
      (sectionContent content d >>= skipCustomSections) w (pos + 1) := by
  have hpeek : Reader.peek? w pos = .ok (some id, pos) := by rw [Reader.peek?, hget]
  have hbyte : discard Reader.byte w pos = .ok ((), pos + 1) :=
    Reader.map_eq_ok_iff.2 ⟨id, Reader.byte_eq_ok_iff.2 ⟨hget, rfl⟩, rfl⟩
  rw [knownSection, Reader.bind_of_eq_ok hpeek]
  change (if some id = some id then _ else _ : Reader Draft) w pos = _
  rw [if_pos rfl, Reader.bind_of_eq_ok hbyte]
  simp only [sectionContent, bind_assoc]
  refine Reader.bind_congr fun _ _ _ => Reader.bind_congr fun _ _ _ => Reader.bind_congr
    fun _ _ _ => Reader.bind_congr fun _ _ _ => Reader.bind_congr fun _ _ _ => ?_
  split <;> rfl

variable {todo before after : List (UInt8 × (Draft → Reader Draft))}

/-- A custom section comes next. -/
theorem rest_of_custom (hw : w.stop ≤ w.bytes.size) (hget : w.get? pos = some 0) :
    rest todo d w pos = (customContent d >>= rest todo) w (pos + 1) := by
  rw [rest, Reader.bind_eq_of_run _ (skipCustomSections_of_custom hw hget), bind_assoc]
  rfl

/-- What need not come is passed over. -/
theorem remaining_of_absent (h0 : w.get? pos ≠ some 0)
    (hbefore : ∀ s ∈ before, w.get? pos ≠ some s.1) :
    remaining (before ++ todo) d w pos = remaining todo d w pos := by
  induction before with
  | nil => rfl
  | cons s before ih =>
    obtain ⟨hs, hbefore⟩ := List.forall_mem_cons.1 hbefore
    have hskip : knownSection s.1 s.2 d w pos = .ok (d, pos) :=
      (knownSection_of_absent hs).trans (skipCustomSections_of_ne h0)
    rw [List.cons_append, remaining, List.foldlM_cons, Reader.bind_of_eq_ok hskip]
    exact ih hbefore

/-- One of the known sections comes next. -/
theorem rest_of_known (hget : w.get? pos = some id) (hid : id ≠ 0)
    (hbefore : ∀ s ∈ before, s.1 ≠ id) :
    rest (before ++ (id, content) :: after) d w pos =
      (sectionContent content d >>= rest after) w (pos + 1) := by
  have h0 : w.get? pos ≠ some 0 := fun h => hid (Option.some.inj (hget.symm.trans h))
  have habsent (s : UInt8 × (Draft → Reader Draft)) (hs : s ∈ before) : w.get? pos ≠ some s.1 :=
    fun h => hbefore s hs (Option.some.inj (h.symm.trans hget))
  rw [rest, Reader.bind_of_eq_ok (skipCustomSections_of_ne h0),
    Reader.bind_eq_of_run _ (remaining_of_absent h0 habsent), remaining, List.foldlM_cons,
    bind_assoc, Reader.bind_eq_of_run _ (knownSection_of_present hget), bind_assoc]
  rfl

/-- No known section comes next, and no custom one. -/
theorem rest_of_absent (h0 : w.get? pos ≠ some 0) (htodo : ∀ s ∈ todo, w.get? pos ≠ some s.1) :
    rest todo d w pos = d.finish w pos := by
  have hremaining : remaining (todo ++ []) d w pos = remaining [] d w pos :=
    remaining_of_absent h0 htodo
  rw [List.append_nil] at hremaining
  rw [rest, Reader.bind_of_eq_ok (skipCustomSections_of_ne h0),
    Reader.bind_of_eq_ok (hremaining.trans rfl)]

/-- The section with a given id comes next: what reads it behind the id, and the known sections that may
come behind it, if those of `todo` may come before. -/
inductive Upcoming : List (UInt8 × (Draft → Reader Draft)) → UInt8 → (Draft → Reader Draft) →
    List (UInt8 × (Draft → Reader Draft)) → Prop where
  | custom {left} : Upcoming left 0 customContent left
  | known {skipped k reader left} (hid : k ≠ 0) (hbefore : ∀ s ∈ skipped, s.1 ≠ k) :
      Upcoming (skipped ++ (k, reader) :: left) k (sectionContent reader) left

/-- Some section comes next, or none that may. -/
theorem upcoming_or_absent (todo : List (UInt8 × (Draft → Reader Draft))) (id? : Option UInt8) :
    (∃ id read after, id? = some id ∧ Upcoming todo id read after) ∨
      id? ≠ some 0 ∧ ∀ s ∈ todo, id? ≠ some s.1 := by
  by_cases h0 : id? = some 0
  · exact .inl ⟨0, _, todo, h0, .custom⟩
  · cases hfind : todo.find? fun s => id? = some s.1 with
    | none => exact .inr ⟨h0, by simpa using hfind⟩
    | some x =>
      obtain ⟨hx, before, after, rfl, hbefore⟩ := List.find?_eq_some_iff_append.1 hfind
      have hid : id? = some x.1 := of_decide_eq_true hx
      have hne (y : UInt8 × (Draft → Reader Draft)) (hy : y ∈ before) : y.1 ≠ x.1 :=
        fun heq => by simpa [hid, heq] using hbefore y hy
      exact .inl ⟨x.1, _, after, hid, .known (fun h => h0 (h ▸ hid)) hne⟩

/-- **What is left of a module** is the section that comes next and what is left behind it. -/
theorem rest_of_upcoming {read : Draft → Reader Draft} (hw : w.stop ≤ w.bytes.size)
    (hget : w.get? pos = some id) (h : Upcoming todo id read after) :
    rest todo d w pos = (read d >>= rest after) w (pos + 1) := by
  cases h with
  | custom => exact rest_of_custom hw hget
  | known hid hbefore => exact rest_of_known hget hid hbefore

end Draft

namespace Module

/-- Decoding reads the header, and then section by section. -/
theorem decode_eq (bytes : ByteArray) :
    decode bytes = ((do
      header
      Draft.rest Draft.knownSections { bytes } : Reader Module) (.ofBytes bytes) 0).map Prod.fst := by
  have hreader : (do
      header
      let d ← Draft.sections { bytes }
      d.finish : Reader Module) = (do
      header
      Draft.rest Draft.knownSections { bytes }) := by
    simp only [Draft.rest, Draft.sections, bind_assoc]
    rfl
  rw [decode, hreader]
  simp only [Reader.runAt]
  split
  · next h => rw [h]; rfl
  · next h => rw [h]; rfl

theorem exists_run_of_decode {bytes : ByteArray} {m : Module} (h : decode bytes = .ok m) :
    ∃ stop, (do
      header
      Draft.rest Draft.knownSections { bytes } : Reader Module) (.ofBytes bytes) 0 =
        .ok (m, stop) := by
  rw [decode_eq] at h
  revert h
  generalize (do
    header
    Draft.rest Draft.knownSections { bytes } : Reader Module) (.ofBytes bytes) 0 = result
  rcases result with e | ⟨m', stop⟩
  · exact nofun
  · rintro ⟨⟩
    exact ⟨stop, rfl⟩

/-- **The header** is the first eight bytes. -/
theorem header_eq_ok_iff {w : Window} {next : Nat} {u : Unit} (hw : w.stop ≤ w.bytes.size) :
    header w 0 = .ok (u, next) ↔ w.Spells 0 (magic ++ version) 8 ∧ next = 8 := by
  have hwindow : (read : Reader Window) w 0 = .ok (w, 0) := rfl
  have hrequire {n : Nat} (hn : n ≤ w.stop) : Reader.require n w 0 = .ok ((), 0) :=
    if_pos (by rwa [Nat.zero_add])
  constructor
  · have hheader : Reader.Ensures header w 0 fun _ next =>
        w.Spells 0 (magic ++ version) 8 ∧ next = 8 := by
      simp only [header, Reader.ensures_bind, Reader.ensures_read, Reader.ensures_require,
        Reader.ensures_ite, Reader.ensures_malformed, Reader.ensures_seek, implies_true, true_and]
      intro h4 hmagic h8 hversion
      have h₁ := (Window.spells_iff_extract hw (Nat.zero_le _)).2
        ⟨Nat.zero_le 4, by omega, Decidable.not_not.1 hmagic⟩
      have h₂ : w.Spells 4 version 8 := (Window.spells_iff_extract hw (by omega)).2
        ⟨by decide, by omega, Decidable.not_not.1 hversion⟩
      exact ⟨Window.spells_append.2 ⟨4, h₁, h₂⟩, trivial⟩
    exact fun h => hheader h
  · rintro ⟨hs, rfl⟩
    have h8 : 8 ≤ w.stop := hs.stop_le (Nat.zero_le _)
    obtain ⟨mid, h₁, h₂⟩ := Window.spells_append.1 hs
    obtain rfl : mid = 4 := h₁.stop_eq
    have hmagic := ((Window.spells_iff_extract hw (Nat.zero_le _)).1 h₁).2.2
    have hversion := ((Window.spells_iff_extract (w := w) hw (by omega)).1 h₂).2.2
    rw [header, Reader.bind_of_eq_ok hwindow, Reader.bind_of_eq_ok (hrequire (by omega)),
      if_neg fun hne => hne hmagic]
    refine (Reader.bind_of_eq_ok (hrequire h8)).trans ?_
    rw [if_neg fun hne => hne hversion]
    rfl

end Module

end WasmEngine
