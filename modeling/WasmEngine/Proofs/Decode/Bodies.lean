import WasmEngine.Proofs.Decode.Sections

/-!
# Proofs/Decode/Bodies — decoded modules are sound

The code section gives every function that is not imported a body behind the bodies before it
(`codeSection_sound`).  `Module.decode_sound` is what all sections together promise.
-/

namespace WasmEngine

/-- The longest prefix of elements with a property that exactly the first `n` have. -/
theorem length_takeWhile_eq {α : Type} {p : α → Bool} {l : List α} {n : Nat}
    (hn : n ≤ l.length) (h : ∀ i a, l[i]? = some a → (p a ↔ i < n)) :
    (l.takeWhile p).length = n := by
  induction l generalizing n with
  | nil => exact (Nat.le_zero.1 hn).symm
  | cons a l ih =>
    have ha := h 0 a rfl
    cases n with
    | zero => simp [ha]
    | succ n =>
      rw [List.takeWhile_cons, if_pos (ha.2 (Nat.succ_pos n)), List.length_cons,
        ih (Nat.le_of_succ_le_succ hn) fun i b hb => ?_]
      simpa using h (i + 1) b hb

namespace ModuleCore

variable {bytes : ByteArray} {first : Nat} {c : ModuleCore}

/-- It is settled which functions there are, and none of them has got its body yet. -/
def IsBodiless (bytes : ByteArray) (c : ModuleCore) : Prop :=
  ∃ first, c.Sound bytes first ∧ c.bodyCount = 0

/-- The module is sound for some number of imported functions. -/
def IsSound (bytes : ByteArray) (c : ModuleCore) : Prop := ∃ first, c.Sound bytes first

/-- The bodies read so far end before a position. -/
def EndBefore (first pos : Nat) (c : ModuleCore) : Prop :=
  ∀ i f, c.functions[i]? = some f → first ≤ i → i < first + c.bodyCount → f.body.stop ≤ pos

/-- Gives the function at an index its locals and its body. -/
def withBody (c : ModuleCore) (index : Nat) (locals : List ValType) (body : ByteRange) :
    ModuleCore :=
  { c with functions := c.functions.modify index ({ · with locals, body })
           bodyCount := c.bodyCount + 1 }

theorem getElem?_withBody {index : Nat} {locals : List ValType} {body : ByteRange} {i : Nat}
    {f : Function} (h : (c.withBody index locals body).functions[i]? = some f) :
    (i ≠ index ∧ c.functions[i]? = some f) ∨
      (i = index ∧ ∃ g, c.functions[i]? = some g ∧ f = { g with locals, body }) := by
  rw [withBody, Array.getElem?_modify] at h
  split at h
  · next hi =>
    obtain ⟨g, hg, rfl⟩ := Option.map_eq_some_iff.1 h
    exact .inr ⟨hi.symm, g, hg, rfl⟩
  · next hi => exact .inl ⟨Ne.symm hi, h⟩

@[simp] theorem size_withBody {index : Nat} {locals : List ValType} {body : ByteRange} :
    (c.withBody index locals body).functions.size = c.functions.size := Array.size_modify

/-- **The next function gets its body**, behind those before it. -/
theorem Sound.withBody {locals : List ValType} {body : ByteRange} {pos : Nat}
    (h : c.Sound bytes first) (hend : c.EndBefore first pos) (hstart : pos ≤ body.start)
    (hle : body.start ≤ body.stop) (hstop : body.stop ≤ bytes.size)
    (hlocals : ∀ f, c.functions[first + c.bodyCount]? = some f →
      ∃ declared, locals = f.type.params ++ declared) :
    (c.withBody (first + c.bodyCount) locals body).Sound bytes first where
  bytes_eq := h.bytes_eq
  sideTable_eq := h.sideTable_eq
  first_le := by rw [size_withBody]; exact h.first_le
  first_le_importCount := h.first_le_importCount
  imported i f hf := by
    obtain ⟨-, hg⟩ | ⟨-, g, hg, rfl⟩ := getElem?_withBody hf
    · exact h.imported i f hg
    · exact h.imported i g hg
  fits i f hf hi hlt := by
    obtain ⟨hne, hg⟩ | ⟨rfl, g, hg, rfl⟩ := getElem?_withBody hf
    · exact h.fits i f hg hi (Nat.lt_of_le_of_ne (Nat.le_of_lt_succ hlt) hne)
    · exact ⟨hle, hstop, hlocals g hg⟩
  apart i j f g hf hg hi hij hlt := by
    have hj : j ≤ first + c.bodyCount := Nat.le_of_lt_succ hlt
    obtain ⟨-, hf⟩ | ⟨rfl, -⟩ := getElem?_withBody hf
    · obtain ⟨hne, hg⟩ | ⟨rfl, g, -, rfl⟩ := getElem?_withBody hg
      · exact h.apart i j f g hf hg hi hij (Nat.lt_of_le_of_ne hj hne)
      · exact Nat.le_trans (hend i f hf hi hij) hstart
    · exact absurd hij (Nat.not_lt.2 hj)
  exports := by rw [size_withBody]; exact h.exports
  start := by rw [size_withBody]; exact h.start
  elements := by rw [size_withBody]; exact h.elements

theorem EndBefore.withBody {locals : List ValType} {body : ByteRange} {pos : Nat}
    (h : c.EndBefore first pos) (hpos : pos ≤ body.stop) :
    (c.withBody (first + c.bodyCount) locals body).EndBefore first body.stop := by
  intro i f hf hi hlt
  obtain ⟨hne, hg⟩ | ⟨rfl, g, hg, rfl⟩ := getElem?_withBody hf
  · have hi' : i < first + c.bodyCount := Nat.lt_of_le_of_ne (Nat.le_of_lt_succ hlt) hne
    exact Nat.le_trans (h i f hg hi hi') hpos
  · exact Nat.le_refl _

end ModuleCore

namespace Draft

open Reader

variable {d : Draft} {w : Window} {pos first : Nat} {bytes : ByteArray}

theorem ensures_localsEntry {locals : Array ValType} (hw : w.stop ≤ w.bytes.size) :
    (localsEntry locals).Ensures w pos fun locals' next =>
      (∃ declared, locals' = locals ++ declared) ∧ pos ≤ next ∧ next ≤ w.stop := by
  refine (ensures_u32 hw).andThen fun n mid hmid => ensures_valType.andThen fun type next hnext => ?_
  simp only [ensures_ite, ensures_bind, ensures_malformed, ensures_pure, implies_true, true_and]
  exact fun _ => ⟨⟨_, rfl⟩, Nat.le_trans hmid.1 hnext.1, hnext.2⟩

theorem ensures_locals {locals : Array ValType} (hw : w.stop ≤ w.bytes.size) (n : Nat)
    (hpos : pos ≤ w.stop) :
    (iterate n localsEntry locals).Ensures w pos fun locals' next =>
      (∃ declared, locals' = locals ++ declared) ∧ pos ≤ next ∧ next ≤ w.stop := by
  refine ensures_iterate (fun b p hb => ?_) n ⟨⟨#[], by simp⟩, Nat.le_refl _, hpos⟩
  obtain ⟨⟨declared, rfl⟩, hp, hp'⟩ := hb
  refine (ensures_localsEntry hw).mono fun locals' next h => ?_
  obtain ⟨⟨more, rfl⟩, hnext, hnext'⟩ := h
  exact ⟨⟨declared ++ more, Array.append_assoc⟩, Nat.le_trans hp hnext, hnext'⟩

/-- What holds between the bodies of a code section. -/
def BodiesUpTo (bytes : ByteArray) (first : Nat) (d : Draft) (pos : Nat) : Prop :=
  d.core.Sound bytes first ∧ d.core.EndBefore first pos

theorem bodyEntry_sound (hw : w.stop ≤ w.bytes.size) (hbytes : w.bytes = bytes)
    (h : d.BodiesUpTo bytes first pos) :
    (bodyEntry first d).Ensures w pos (BodiesUpTo bytes first) := by
  obtain ⟨hs, he⟩ := h
  refine (ensures_u32 hw).andThen fun length start hstart => ?_
  simp only [ensures_bind, ensures_position, ensures_require, ensures_within, ensures_seek,
    ensures_pure]
  intro hstop
  have hw' : start + length ≤ w.bytes.size := Nat.le_trans hstop hw
  refine (ensures_u32 (w := { w with stop := start + length }) hw').mono fun n mid hmid => ?_
  refine (ensures_locals (w := { w with stop := start + length }) hw' n hmid.2).mono
    fun locals code h => ?_
  obtain ⟨⟨declared, rfl⟩, hcode, hcode'⟩ := h
  have hle : pos ≤ code := Nat.le_trans hstart.1 (Nat.le_trans hmid.1 hcode)
  refine ⟨hs.withBody he hle hcode' (hbytes ▸ hw') fun f hf => ?_,
    he.withBody (Nat.le_trans hle hcode')⟩
  have hf : d.functions[first + d.bodyCount]? = some f := hf
  exact ⟨declared.toList, by simp [hf]⟩

theorem importedCount_eq (h : d.core.Sound bytes first) : d.importedCount = first := by
  obtain ⟨functions, hd⟩ : ∃ fs : List Function, d.functions = fs.toArray := ⟨_, rfl⟩
  have himp := h.imported
  have hle : first ≤ d.functions.size := h.first_le
  rw [Module.importedCount, hd, List.takeWhile_toArray, List.size_toArray]
  refine length_takeWhile_eq (by rwa [hd] at hle) fun i f hf => himp i f ?_
  change d.functions[i]? = some f
  rwa [hd, List.getElem?_toArray]

theorem codeSection_sound (hw : w.stop ≤ w.bytes.size) (hbytes : w.bytes = bytes)
    (h : d.core.Sound bytes first) (hcount : d.bodyCount = 0) :
    (codeSection d).Ensures w pos fun d' _ => d'.core.Sound bytes first := by
  have hinit (p : Nat) : d.BodiesUpTo bytes first p := by
    refine ⟨h, fun i f _ hi hlt => absurd hlt ?_⟩
    have hcount : d.core.bodyCount = 0 := hcount
    omega
  simp only [codeSection, ensures_bind, ensures_ite, ensures_malformed, implies_true, true_and,
    importedCount_eq h]
  refine ensures_of_forall fun n p _ => ?_
  exact (ensures_iterate (fun _ _ => bodyEntry_sound hw hbytes) n (hinit p)).mono fun _ _ hb => hb.1

/-! ## All sections -/

/-- A section may be absent, and the custom sections behind it change nothing. -/
theorem ensures_knownSection {id : UInt8} {content : Draft → Reader Draft}
    {P : ModuleCore → Prop} (habsent : P d.core)
    (hcontent : ∀ v p, v.bytes = w.bytes → v.stop ≤ w.stop →
      (content d).Ensures v p fun d' _ => P d'.core) :
    (knownSection id content d).Ensures w pos fun d' _ => P d'.core := by
  have hskip (d' : Draft) (p : Nat) (h : P d'.core) :
      (skipCustomSections d').Ensures w p fun d'' _ => P d''.core :=
    skipCustomSections_core.mono fun d'' _ hcore => hcore ▸ h
  simp only [knownSection, ensures_bind, ensures_peek?, ensures_ite, ensures_position,
    ensures_require, ensures_within, ensures_malformed, ensures_pure, implies_true, true_and]
  refine ⟨fun _ => ensures_of_forall fun _ _ => ensures_of_forall fun length start hstop => ?_,
    fun _ => hskip d pos habsent⟩
  exact (hcontent ⟨w.bytes, start + length⟩ start rfl hstop).mono fun d' p hd _ => hskip d' p hd

/-- A section that leaves the core alone keeps what holds of it. -/
theorem ensures_knownSection_of_core {id : UInt8} {content : Draft → Reader Draft}
    {P : ModuleCore → Prop} (h : P d.core)
    (hcontent : ∀ v p, (content d).Ensures v p fun d' _ => d'.core = d.core) :
    (knownSection id content d).Ensures w pos fun d' _ => P d'.core :=
  ensures_knownSection h fun v p _ _ => (hcontent v p).mono fun _ _ hd => hd ▸ h

/-- A section that keeps a module sound, and does not read bodies, does so when none has been
read. -/
theorem ensures_knownSection_of_sound {id : UInt8} {content : Draft → Reader Draft}
    (h : d.core.IsBodiless bytes)
    (hcontent : ∀ v p first, d.core.Sound bytes first →
      (content d).Ensures v p fun d' _ =>
        d'.core.Sound bytes first ∧ d'.bodyCount = d.bodyCount) :
    (knownSection id content d).Ensures w pos fun d' _ => d'.core.IsBodiless bytes := by
  refine ensures_knownSection h fun v p _ _ => ?_
  obtain ⟨first, hs, hzero⟩ := h
  exact (hcontent v p first hs).mono fun d' _ hd => ⟨first, hd.1, hd.2.trans hzero⟩

/-- **The sections of a module are sound together.** -/
theorem sections_sound (hw : w.stop ≤ w.bytes.size) (hbytes : w.bytes = bytes)
    (h : d.core.OnlyImports bytes) :
    (sections d).Ensures w pos fun d' _ => d'.core.IsSound bytes := by
  refine skipCustomSections_core.andThen fun d₀ _ h₀ => ?_
  replace h₀ : d₀.core.OnlyImports bytes := h₀ ▸ h
  simp only [knownSections, List.foldlM_cons, List.foldlM_nil]
  -- Types and imports.
  refine (ensures_knownSection_of_core h₀ fun _ _ => typeSection_core).andThen fun d₁ _ h₁ => ?_
  refine (ensures_knownSection h₁ fun _ _ _ _ => importSection_onlyImports h₁).andThen
    fun d₂ _ h₂ => ?_
  -- From here on it is settled which functions there are.
  have hzero : d₂.core.IsBodiless bytes := ⟨_, h₂.sound, congrArg ModuleCore.bodyCount h₂.eq⟩
  refine (ensures_knownSection hzero fun _ _ _ _ =>
    (functionSection_sound h₂).mono fun _ _ h => ⟨_, h⟩).andThen fun d₃ _ h₃ => ?_
  refine (ensures_knownSection_of_core h₃ fun _ _ => tableSection_core).andThen fun d₄ _ h₄ => ?_
  refine (ensures_knownSection_of_core h₄ fun _ _ => memorySection_core).andThen fun d₅ _ h₅ => ?_
  refine (ensures_knownSection_of_core h₅ fun _ _ => globalSection_core).andThen fun d₆ _ h₆ => ?_
  refine (ensures_knownSection_of_sound h₆ fun _ _ _ => exportSection_sound).andThen
    fun d₇ _ h₇ => ?_
  refine (ensures_knownSection_of_sound h₇ fun _ _ _ => startSection_sound).andThen
    fun d₈ _ h₈ => ?_
  refine (ensures_knownSection_of_sound h₈ fun _ _ _ => elementSection_sound).andThen
    fun d₉ _ h₉ => ?_
  refine (ensures_knownSection_of_core h₉ fun _ _ => dataCountSection_core).andThen
    fun d₁₀ _ h₁₀ => ?_
  -- The bodies, and what comes behind them.
  obtain ⟨first, hs, hcount⟩ := h₁₀
  have hs' : d₁₀.core.IsSound bytes := ⟨first, hs⟩
  refine (ensures_knownSection hs' fun v p hv hle => ?_).andThen fun d₁₁ _ h₁₁ => ?_
  · have hv' : v.stop ≤ v.bytes.size := hv ▸ Nat.le_trans hle hw
    exact (codeSection_sound hv' (hv.trans hbytes) hs hcount).mono fun _ _ h => ⟨first, h⟩
  exact (ensures_knownSection_of_core h₁₁ fun _ _ => dataSection_core).andThen
    fun _ _ h => ensures_pure.2 h

end Draft

/-! ## Modules -/

namespace Module

/-- What decoding promises about a module besides the counts and types that it checks. -/
structure Sound (m : Module) : Prop where
  /-- The imported functions come first. -/
  imported : ∀ (i : Nat) (f : Function), m.functions[i]? = some f →
    (f.imported.isSome ↔ i < m.importedCount)
  importedCount_le : m.importedCount ≤ m.imports.length
  /-- The body of every other function lies within the bytes, and its locals begin with its
  parameters. -/
  fits : ∀ (i : Nat) (f : Function), m.functions[i]? = some f → f.imported = none → f.Fits m.bytes
  /-- The bodies of functions follow one another. -/
  apart : ∀ (i j : Nat) (f g : Function), m.functions[i]? = some f → m.functions[j]? = some g →
    f.imported = none → i < j → f.body.stop ≤ g.body.start
  exports : ∀ e ∈ m.exports, e.kind = .func → e.index < m.functions.size
  start : ∀ k ∈ m.start, k < m.functions.size
  elements : ∀ s ∈ m.elements, ∀ k, some k ∈ s.funcs → k < m.functions.size

/-- Without imports no function is imported. -/
theorem Sound.imported_eq_none {m : Module} (h : m.Sound) (himports : m.imports = [])
    {i : Nat} {f : Function} (hf : m.functions[i]? = some f) : f.imported = none := by
  have hle := h.importedCount_le
  rw [himports, List.length_nil] at hle
  have hiff := h.imported i f hf
  rw [← Option.not_isSome_iff_eq_none, hiff]
  omega

end Module

/-- When every function has its body, the module that a draft holds is sound. -/
theorem Draft.toModule_sound {d : Draft} {bytes : ByteArray} (h : d.core.IsSound bytes)
    (hcount : d.functions.size - d.importedCount = d.bodyCount) : d.toModule.Sound := by
  obtain ⟨first, hs⟩ := h
  have hfirst : d.importedCount = first := importedCount_eq hs
  have hsize : d.functions.size = first + d.bodyCount := by
    have hle : first ≤ d.functions.size := hs.first_le
    omega
  have hlt (i : Nat) (f : Function) (hf : d.functions[i]? = some f) : i < first + d.bodyCount :=
    hsize ▸ (Array.getElem?_eq_some_iff.1 hf).1
  have hlocal (i : Nat) (f : Function) (hf : d.functions[i]? = some f) (hl : f.imported = none) :
      first ≤ i := Nat.le_of_not_lt fun hi => by simpa [hl] using (hs.imported i f hf).2 hi
  exact {
    imported := fun i f hf => hfirst ▸ hs.imported i f hf
    importedCount_le := Nat.le_trans (Nat.le_of_eq hfirst) hs.first_le_importCount
    fits := fun i f hf hl => (show d.bytes = bytes from hs.bytes_eq) ▸
      hs.fits i f hf (hlocal i f hf hl) (hlt i f hf)
    apart := fun i j f g hf hg hl hij => hs.apart i j f g hf hg (hlocal i f hf hl) hij (hlt j g hg)
    exports := hs.exports
    start := hs.start
    elements := hs.elements }

namespace Module

/-- **Decoded modules are sound**, hold the bytes that they come from, and have not been
validated. -/
theorem decode_sound {bytes : ByteArray} {m : Module} (h : decode bytes = .ok m) :
    m.Sound ∧ m.bytes = bytes ∧ m.sideTable = none := by
  have hfinish (d : Draft) (pos : Nat) (hd : d.core.IsSound bytes) :
      d.finish.Ensures (.ofBytes bytes) pos fun m _ =>
        m.Sound ∧ m.bytes = bytes ∧ m.sideTable = none := by
    simp only [Draft.finish, Reader.ensures_bind, Reader.ensures_peek?]
    split
    · exact Reader.ensures_malformed
    · simp only [Reader.ensures_ite, Reader.ensures_bind, Reader.ensures_malformed,
        Reader.ensures_pure, implies_true, true_and]
      intro hcount _
      obtain ⟨first, hs⟩ := id hd
      exact ⟨d.toModule_sound hd (Decidable.not_not.1 hcount), hs.bytes_eq, hs.sideTable_eq⟩
  have hinit : (Draft.mk { bytes } 0).core.OnlyImports bytes :=
    ⟨rfl, by simp [Draft.core], Nat.le_refl _⟩
  have hheader : header.Ensures (.ofBytes bytes) 0 fun _ _ => True := Reader.ensures_true header
  have hreader := hheader.andThen
    fun _ pos _ => (Draft.sections_sound (Nat.le_refl _) rfl hinit).andThen hfinish
  simp only [decode] at h
  split at h
  · next hrun =>
    cases h
    exact hreader hrun
  · cases h

end Module

end WasmEngine
