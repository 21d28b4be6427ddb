import WasmEngine.Proofs.Framing.Accounting
import WasmEngine.Proofs.Locals.Runs

/-!
# Proofs/Locals/Capped — the cap on the locals of a function

Where a body declares locals, the cap holds of all that the function has, parameters included; where
it declares none, its parameters are not counted.  In an accepted module every function has the
locals that its body declares within that cap, and a body that goes beyond it is rejected wherever
reading gets to it: `Module.decode_locals`.  So a function can have more locals than the cap admits,
if all of them are parameters: `Module.decode_wide`.
-/

namespace WasmEngine

open Source (expand)

/-- The body of a function declares runs of locals in front of its code, and its locals are its
parameters and these. -/
structure Function.Declares (f : Function) (bytes : ByteArray) (runs : List (Nat × ValType)) :
    Prop where
  body : ∃ (b : Sized) (pos : Nat) (decls code : List UInt8),
    (Window.ofBytes bytes).Spells pos b.bytes f.body.stop ∧ b.payload = decls ++ code ∧
      EncodesLocals runs decls ∧ f.body.start = b.payloadAt pos + decls.length
  locals_eq : f.locals = f.type.params ++ expand runs

/-- A body declares so many locals that they pass the cap behind some parameters: the first of the
runs that it announces do. -/
def Sized.PassesCap (b : Sized) (params : Nat) : Prop :=
  ∃ n count runs entries code, b.payload = count ++ entries ++ code ∧ EncodesU32 n count ∧
    EncodesEach EncodesRun runs entries ∧ runs.length ≤ n ∧ runs ≠ [] ∧
    Module.maxLocals < params + (expand runs).length

theorem encodesU32_u32 {n : Nat} (h : n < 2 ^ 32) : EncodesU32 n (Encoding.u32 n) :=
  Leb128.encodesUnsigned_unsignedBytes rfl h

/-- A payload behind its length in the shortest form. -/
def Sized.ofPayload (payload : List UInt8) (h : payload.length < 2 ^ 32) : Sized :=
  ⟨Encoding.u32 payload.length, payload, encodesU32_u32 h⟩

namespace Draft

open Reader

variable {w : Window} {pos next first : Nat} {d d' : Draft}

/-! ## Bodies -/

/-- The parameters of the next function that gets a body. -/
def nextParams (first : Nat) (d : Draft) : List ValType :=
  (d.functions[first + d.bodyCount]?.map (·.type.params)).getD []

/-- **A body gives the next function its locals**: its parameters and what the body declares. -/
theorem bodyEntry_locals (hw : w.stop ≤ w.bytes.size)
    (h : bodyEntry first d w pos = .ok (d', next)) :
    ∃ (b : Sized) (runs : List (Nat × ValType)) (decls code : List UInt8),
      w.Spells pos b.bytes next ∧ b.payload = decls ++ code ∧ EncodesLocals runs decls ∧
      WithinCap (nextParams first d).length runs ∧
      d' = { d with
        functions := d.functions.modify (first + d.bodyCount)
          ({ · with locals := nextParams first d ++ expand runs,
                    body := ⟨b.payloadAt pos + decls.length, next⟩ })
        bodyCount := d.bodyCount + 1 } := by
  obtain ⟨b, hs, h⟩ := exists_sized hw h
  obtain ⟨-, hpayload, -, hstop⟩ := Sized.spells_payload hs
  have hw' := Nat.le_trans hstop hw
  obtain ⟨⟨locals, code⟩, mid, hwithin, h⟩ := bind_eq_ok_iff.1 h
  obtain ⟨_, _, ⟨⟩, h⟩ := bind_eq_ok_iff.1 h
  obtain ⟨rfl, rfl⟩ := pure_eq_ok_iff.1 h
  have hlocals : (do
      let all ← (do iterate (← u32) localsEntry (nextParams first d).toArray)
      pure (all.toList, ← position)) ⟨w.bytes, b.payloadAt pos + b.payload.length⟩
        (b.payloadAt pos) = .ok ((locals, code), mid) := by
    rw [bind_assoc]
    exact hwithin
  obtain ⟨all, stop, hread, hplace⟩ := bind_eq_ok_iff.1 hlocals
  cases hplace
  obtain ⟨decls, hdecls, runs, hencodes, hcap, rfl⟩ :=
    (accepts_locals (nextParams first d) (w := ⟨w.bytes, _⟩) hw').1 hread
  -- What the declarations leave of the payload is the code.
  obtain ⟨code, hcode, -⟩ := (hdecls.mono fun p x hx => Window.get?_of_cut hstop hx).exists_append
    hpayload (hdecls.stop_le (Nat.le_add_right _ _))
  refine ⟨b, runs, decls, code, hs, hcode, hencodes, hcap, ?_⟩
  rw [hdecls.stop_eq]

/-- Every function that has its body has declared locals within the cap. -/
def Declared (bytes : ByteArray) (first : Nat) (d : Draft) : Prop :=
  ∀ i f, d.functions[i]? = some f → first ≤ i → i < first + d.bodyCount →
    ∃ runs, f.Declares bytes runs ∧ WithinCap f.type.params.length runs

theorem bodyEntry_declared (hw : w.stop ≤ w.bytes.size) (h : d.Declared w.bytes first) :
    (bodyEntry first d).Ensures w pos fun d' _ => d'.Declared w.bytes first := by
  intro d' next hread
  obtain ⟨b, runs, decls, code, hs, hcode, hencodes, hcap, rfl⟩ := bodyEntry_locals hw hread
  intro i f hf hi hlt
  dsimp only at hf hlt
  rw [Array.getElem?_modify] at hf
  split at hf
  · next heq =>
    obtain ⟨g, hg, rfl⟩ := Option.map_eq_some_iff.1 hf
    have hparams : nextParams first d = g.type.params := by rw [nextParams, heq, hg]; rfl
    rw [hparams] at hcap ⊢
    exact ⟨runs, ⟨⟨b, pos, decls, code, hs.mono fun p x hx => Window.get?_of_cut hw hx, hcode,
      hencodes, rfl⟩, rfl⟩, hcap⟩
  · next hne => exact h i f hf hi (by omega)

/-- **The code section gives every function of the module its declared locals.** -/
theorem codeSection_declared (hw : w.stop ≤ w.bytes.size) (hcount : d.bodyCount = 0) :
    (codeSection d).Ensures w pos fun d' _ => d'.Declared w.bytes d.importedCount := by
  have hinit : d.Declared w.bytes d.importedCount := fun i f _ hi hlt => by omega
  simp only [codeSection, ensures_bind, ensures_ite, ensures_malformed, implies_true, true_and]
  exact ensures_of_forall fun n _ _ =>
    ensures_iterate (fun _ _ h => bodyEntry_declared hw h) n hinit

/-- **A body that passes the cap is rejected.** -/
theorem bodyEntry_overflow {b : Sized} (hw : w.stop ≤ w.bytes.size) (hs : w.Spells pos b.bytes next)
    (h : b.PassesCap (nextParams first d).length) :
    bodyEntry first d w pos = .error (.malformed .tooManyLocals) := by
  obtain ⟨n, count, runs, entries, code, hpayload, hcount, hruns, hn, hne, hover⟩ := h
  obtain ⟨-, hspells, rfl, hstop⟩ := Sized.spells_payload hs
  rw [hpayload] at hspells
  obtain ⟨mid, hdecls, hcode⟩ := Window.spells_append.1 hspells
  have hlocals : (do iterate (← u32) localsEntry (nextParams first d).toArray)
      ⟨w.bytes, b.payloadAt pos + b.payload.length⟩ (b.payloadAt pos) =
        .error (.malformed .tooManyLocals) := by
    refine locals_overflow (Nat.le_trans hstop hw) (hdecls.within ?_) hcount hruns hn
      fun hcap => absurd (hcap hne) (Nat.not_le.2 hover)
    rw [hdecls.stop_eq, hpayload]
    exact Nat.add_le_add_left (List.sublist_append_left _ code).length_le _
  rw [bodyEntry, length_bind hw hs]
  refine bind_of_eq_error ?_
  have hall := bind_of_eq_error (f := fun all => do pure (all.toList, ← position)) hlocals
  rw [bind_assoc] at hall
  exact hall

/-! ## Up to a body -/

/-- Reading `bytes` gets to a body at `pos`: what comes before the code section has been read, and
so have the bodies in front of this one.  The draft is `d` then, the window `w` ends with the
section, and the bodies are those of the functions from `first` on. -/
inductive ReachesBody (bytes : ByteArray) :
    (first : Nat) → (d : Draft) → (w : Window) → (pos : Nat) → Prop where
  | intro {sections : List RawSection} {s : RawSection} {d₀ d : Draft}
      {start mid next n k pos : Nat}
      (header : (Window.ofBytes bytes).Spells 0 (Module.magic ++ Module.version) 8)
      (tiles : Tiles (.ofBytes bytes) beforeCode { bytes } 8 sections d₀ mid)
      (id : s.id = 10) (spells : (Window.ofBytes bytes).Spells mid s.bytes next)
      (count : u32 ⟨bytes, next⟩ (s.payloadAt mid) = .ok (n, start))
      (size : d₀.importedCount + n = d₀.functions.size)
      (bodies : iterate k (bodyEntry d₀.importedCount) d₀ ⟨bytes, next⟩ start = .ok (d, pos))
      (left : k < n) : ReachesBody bytes d₀.importedCount d ⟨bytes, next⟩ pos

theorem iterate_add {β : Type} (step : β → Reader β) (k n : Nat) (b : β) :
    iterate (k + n) step b = (do iterate n step (← iterate k step b)) := by
  induction k generalizing b with
  | zero => rw [Nat.zero_add, iterate, pure_bind]
  | succ k ih =>
    rw [Nat.succ_add, iterate, iterate, bind_assoc]
    exact congrArg (step b >>= ·) (funext ih)

/-- **What is wrong with a body that is reached is wrong with the module.** -/
theorem ReachesBody.decode_eq_error {bytes : ByteArray} {e : Error}
    (h : ReachesBody bytes first d w pos) (herror : bodyEntry first d w pos = .error e) :
    Module.decode bytes = .error e := by
  cases h with
  | @intro sections s d₀ _ start mid next n k _ hheader htiles hid hspells hcount hsize hbodies
      hleft =>
    have hw : (Window.ofBytes bytes).stop ≤ (Window.ofBytes bytes).bytes.size := Nat.le_refl _
    obtain ⟨m, rfl⟩ : ∃ m, n = k + (m + 1) := ⟨n - k - 1, by omega⟩
    have hcontent : codeSection d₀ ⟨bytes, next⟩ (s.payloadAt mid) = .error e := by
      rw [codeSection, bind_of_eq_ok hcount]
      simp only [hsize, ne_eq, not_true, if_false]
      rw [iterate_add]
      refine (bind_of_eq_ok hbodies).trans ?_
      rw [iterate]
      exact bind_of_eq_error herror
    have hsection : sectionContent codeSection d₀ (.ofBytes bytes) (mid + 1) = .error e := by
      obtain ⟨-, -, hnext, -⟩ := Sized.spells_payload hspells.2
      rw [sectionContent, length_bind hw hspells.2]
      refine bind_of_eq_error ?_
      rw [within]
      change codeSection d₀ ⟨bytes, s.toSized.payloadAt (mid + 1) + s.payload.length⟩ _ = _
      rw [← hnext]
      exact hcontent
    have hrest : rest knownSections { bytes } (.ofBytes bytes) 8 = .error e := by
      refine (rest_of_tiles_known hw htiles (hid ▸ hspells.1) (by decide) (by decide)).trans ?_
      exact bind_of_eq_error hsection
    rw [Module.decode_eq, bind_of_eq_ok ((Module.header_eq_ok_iff (u := ()) hw).2 ⟨hheader, rfl⟩),
      hrest]
    rfl

end Draft

namespace Module

variable {bytes : ByteArray} {m : Module}

/-- **The functions of a decoded module have the locals that their bodies declare**, and these stay
within the cap. -/
theorem decode_declares (h : decode bytes = .ok m) {f : Function} (hf : f ∈ m.functions)
    (hlocal : f.imported = none) :
    ∃ runs, f.Declares bytes runs ∧ WithinCap f.type.params.length runs := by
  have hw : (Window.ofBytes bytes).stop ≤ (Window.ofBytes bytes).bytes.size := Nat.le_refl _
  obtain ⟨i, hi⟩ := Array.mem_iff_getElem?.1 hf
  have himported := ((decode_sound h).1.imported i f hi).not
  obtain ⟨sections, d, -, htiles, rfl, hcount⟩ := decode_tiles h
  have hlt : i < d.functions.size := (Array.getElem?_eq_some_iff.1 hi).1
  have hle : d.importedCount ≤ i := Nat.le_of_not_lt (himported.1 (by simp [hlocal]))
  obtain ⟨-, hnone⟩ | ⟨_, s, _, d₁, d₂, mid, next, -, -, -, hs, hcontent, -, hzero, hfunctions,
    hbodyCount⟩ := htiles.exists_code rfl hcount
  · omega
  · obtain ⟨-, -, hnext⟩ := RawSection.spells_payload hs
    have hw' : next ≤ bytes.size := Nat.le_trans hnext hw
    obtain ⟨_, bodies, -, -, -, hbodies, hsize, -⟩ :=
      Draft.codeSection_bodies (w := ⟨bytes, next⟩) hw' hzero hcontent
    have hdeclared : d₂.Declared bytes d₁.importedCount :=
      Draft.codeSection_declared (w := ⟨bytes, next⟩) hw' hzero hcontent
    have hsame : d.functions.size = d₂.functions.size := congrArg Array.size hfunctions
    exact hdeclared i f (hfunctions ▸ hi) (by omega) (by omega)

/-- **The cap holds of every function whose body declares locals.**  In a decoded module a function
has its parameters and the locals that its body declares, all together within the cap if it declares
a run, and bytes with a body that is reached and passes the cap are rejected for it. -/
theorem decode_locals (bytes : ByteArray) :
    (∀ m, decode bytes = .ok m → ∀ f ∈ m.functions, f.imported = none →
      ∃ runs, f.Declares bytes runs ∧ (runs ≠ [] → f.locals.length ≤ maxLocals)) ∧
    ∀ first d w pos, Draft.ReachesBody bytes first d w pos →
      ∀ f, d.functions[first + d.bodyCount]? = some f →
      ∀ (b : Sized) next, w.Spells pos b.bytes next → b.PassesCap f.type.params.length →
        decode bytes = .error (.malformed .tooManyLocals) := by
  constructor
  · intro m h f hf hlocal
    obtain ⟨runs, hdeclares, hcap⟩ := decode_declares h hf hlocal
    refine ⟨runs, hdeclares, fun hne => ?_⟩
    rw [hdeclares.locals_eq, List.length_append]
    exact hcap hne
  · intro first d w pos hreaches f hf b next hs hcap
    have hw : w.stop ≤ w.bytes.size := by
      cases hreaches with
      | intro _ _ _ hspells _ _ _ _ => exact (RawSection.spells_payload hspells).2.2
    have hparams : Draft.nextParams first d = f.type.params := by rw [Draft.nextParams, hf]; rfl
    exact hreaches.decode_eq_error (Draft.bodyEntry_overflow hw hs (hparams ▸ hcap))

/-! ### A body with too many locals -/

/-- A module with one function, without parameters, whose body declares 50001 locals. -/
def crowdedBytes : ByteArray :=
  ⟨#[0x00, 0x61, 0x73, 0x6d, 0x01, 0x00, 0x00, 0x00,
    0x01, 0x04, 0x01, 0x60, 0x00, 0x00,
    0x03, 0x02, 0x01, 0x00,
    0x0a, 0x08, 0x01, 0x06, 0x01, 0xd1, 0x86, 0x03, 0x7f, 0x0b]⟩

/-- The body of the function of `crowdedBytes`. -/
def crowdedBody : Sized := .ofPayload [0x01, 0xd1, 0x86, 0x03, 0x7f, 0x0b] (by decide)

/-- What has been read of `crowdedBytes` before the code section. -/
def crowdedDraft : Draft :=
  { bytes := crowdedBytes, types := #[{ params := [], results := [] }]
    functions := #[{ typeIndex := 0, type := { params := [], results := [] } }] }

theorem crowdedBody_passesCap : crowdedBody.PassesCap 0 := by
  refine ⟨1, [0x01], [(50001, .i32)], [0xd1, 0x86, 0x03, 0x7f], [0x0b], rfl,
    encodesU32_u32 (n := 1) (by decide),
    ⟨_, [], rfl, ⟨[0xd1, 0x86, 0x03], rfl, encodesU32_u32 (n := 50001) (by decide)⟩, rfl⟩,
    Nat.le_refl 1, List.cons_ne_nil _ _, ?_⟩
  rw [length_expand_cons]
  decide

theorem crowdedBytes_reachesBody :
    Draft.ReachesBody crowdedBytes 0 crowdedDraft ⟨crowdedBytes, 28⟩ 21 := by
  let types : RawSection := ⟨.ofPayload [0x01, 0x60, 0x00, 0x00] (by decide), 1⟩
  let functions : RawSection := ⟨.ofPayload [0x01, 0x00] (by decide), 3⟩
  let code : RawSection := ⟨.ofPayload (0x01 :: crowdedBody.bytes) (by decide), 10⟩
  have htypes : (Window.ofBytes crowdedBytes).Spells 8 types.bytes 14 :=
    ⟨rfl, rfl, rfl, rfl, rfl, rfl, rfl⟩
  have hfunctions : (Window.ofBytes crowdedBytes).Spells 14 functions.bytes 18 :=
    ⟨rfl, rfl, rfl, rfl, rfl⟩
  have hcode : (Window.ofBytes crowdedBytes).Spells 18 code.bytes 28 :=
    ⟨rfl, rfl, rfl, rfl, rfl, rfl, rfl, rfl, rfl, rfl, rfl⟩
  have htiles : Draft.Tiles (.ofBytes crowdedBytes) Draft.beforeCode { bytes := crowdedBytes } 8
      [types, functions] crowdedDraft 18 :=
    .known (by decide) htypes rfl (.absent (.known (by decide) hfunctions rfl .nil))
  have himported : crowdedDraft.importedCount = 0 := by decide +kernel
  have hbodies : Reader.iterate 0 (Draft.bodyEntry crowdedDraft.importedCount) crowdedDraft
      ⟨crowdedBytes, 28⟩ 21 = .ok (crowdedDraft, 21) := rfl
  rw [← himported]
  exact .intro ⟨rfl, rfl, rfl, rfl, rfl, rfl, rfl, rfl, rfl⟩ htiles rfl hcode rfl
    (by rw [himported]; rfl) hbodies Nat.zero_lt_one

/-- The functions of the module with everything in it, and a body that is rejected. -/
theorem decode_locals_sample :
    (∀ f ∈ populated.functions, f.imported = none →
      ∃ runs, f.Declares populatedBytes runs ∧ (runs ≠ [] → f.locals.length ≤ maxLocals)) ∧
    decode crowdedBytes = .error (.malformed .tooManyLocals) :=
  ⟨(decode_locals populatedBytes).1 populated decode_populatedBytes,
    (decode_locals crowdedBytes).2 0 crowdedDraft _ 21 crowdedBytes_reachesBody _ rfl crowdedBody 28
      ⟨rfl, rfl, rfl, rfl, rfl, rfl, rfl, rfl⟩ crowdedBody_passesCap⟩

end Module

/-! ### A function with too many parameters -/

namespace Source

/-- A module with one function, of `n` parameters, whose body declares no locals. -/
def wide (n : Nat) : Source where
  types := [⟨List.replicate n .i32, []⟩]
  functions := [⟨0, [], [0x0b]⟩]

theorem length_payload_wide {n k : Nat} (h : n < 2 ^ 31) {content : List UInt8}
    (hk : (wide n).payload k = some content) : content.length < 2 ^ 32 := by
  have hu32 (n : Nat) : (Encoding.u32 n).length ≤ 5 := Leb128.length_unsignedBytes_le
  match k, hk with
  | 0, hk =>
    obtain rfl := Option.some.inj hk
    have h₁ := hu32 1
    have h₂ := hu32 n
    have h₃ := hu32 0
    simp [wide, Encoding.vec, Signature.bytes, List.flatMap_replicate]
    omega
  | 2, hk =>
    obtain rfl := Option.some.inj hk
    change (Encoding.vec (fun f : Func => Encoding.u32 f.typeIndex) [⟨0, [], [0x0b]⟩]).length < _
    decide
  | 10, hk =>
    obtain rfl := Option.some.inj hk
    change (Encoding.vec Func.bytes [⟨0, [], [0x0b]⟩]).length < _
    decide
  | k + 11, hk => cases k <;> cases hk

theorem isValid_wide {n : Nat} (h : n < 2 ^ 31) : (wide n).IsValid where
  length_lt _ _ hk := length_payload_wide h hk
  customLength_lt _ _ c hc := by cases hc
  importTypes _ hi := by cases hi
  functionTypes f hf := by
    obtain rfl := List.mem_singleton.1 hf
    exact Nat.zero_lt_one
  locals f hf hne := by
    obtain rfl := List.mem_singleton.1 hf
    exact absurd rfl hne
  oneTable := Nat.zero_le 1
  tableBounds _ he := by cases he
  oneMemory := Nat.zero_le 1
  memoryBounds _ he := by cases he
  initialisers i g hg := by cases hg
  exportNames := List.nodup_nil
  exports _ he := by cases he
  start _ hk := by cases hk
  activeElements _ hs := by cases hs
  elementFunctions _ hs := by cases hs
  activeData _ hs := by cases hs

end Source

/-- **A function can have more locals than the cap admits**: 50001 parameters, which no check
counts. -/
theorem Module.decode_wide : ∃ m f, decode (Source.wide 50001).encode = .ok m ∧ f ∈ m.functions ∧
    f.imported = none ∧ maxLocals < f.locals.length := by
  have hdecode := (Source.isValid_wide (n := 50001) (by decide)).decode_eq
  let f : Function := Source.Func.record (Source.wide 50001).types
    ((Source.wide 50001).itemsStart 10 1) ⟨0, [], [0x0b]⟩
  have hfunctions : (Source.wide 50001).toModule.functions = #[f] := rfl
  have hlocals : f.locals = List.replicate 50001 .i32 := List.append_nil _
  refine ⟨_, f, hdecode, hfunctions ▸ Array.mem_singleton.2 rfl, rfl, ?_⟩
  rw [hlocals, List.length_replicate]
  decide

end WasmEngine
