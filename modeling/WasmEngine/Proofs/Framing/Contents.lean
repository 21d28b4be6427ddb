import WasmEngine.Proofs.Decode.Bodies
import WasmEngine.Proofs.Framing.Sections

/-!
# Proofs/Framing/Contents — what is in the payload of a section

The readers of known sections keep the custom sections found so far, and all but that of the code
section keep the number of bodies (`Draft.margin_of_mem`).  The code section is a number and that many
bodies, each with its length in front, one behind the other; they are the bodies of the functions that
are not imported, in their order (`Draft.codeSection_bodies`).
-/

namespace WasmEngine

namespace Draft

open Reader

variable {d d' : Draft} {w : Window} {pos next first n : Nat}

/-! ## What most sections leave alone -/

/-- The custom sections and the number of bodies of a draft. -/
def margin (d : Draft) : List CustomSection × Nat := (d.customSections, d.bodyCount)

/-- The entries of a section keep what each of them keeps. -/
theorem entries_margin {entry : Draft → Reader Draft}
    (h : ∀ d p, (entry d).Ensures w p fun d' _ => d'.margin = d.margin) :
    (do iterate (← u32) entry d).Ensures w pos fun d' _ => d'.margin = d.margin :=
  ensures_bind.2 fun n _ _ => ensures_iterate (I := fun d' _ => d'.margin = d.margin)
    (fun b p hb => (h b p).mono fun _ _ hd => hd.trans hb) n rfl

/-- Types are read beside the custom sections and the bodies; so are all parts up to the code. -/
theorem typeSection_margin : (typeSection d).Ensures w pos fun d' _ => d'.margin = d.margin := by
  simp [typeSection, margin]

theorem importEntry_margin : (importEntry d).Ensures w pos fun d' _ => d'.margin = d.margin := by
  simp only [importEntry, ensures_bind]
  refine ensures_of_forall fun module _ => ensures_of_forall fun name _ =>
    ensures_of_forall fun kind _ => ?_
  cases kind <;> simp [margin]

theorem functionSection_margin :
    (functionSection d).Ensures w pos fun d' _ => d'.margin = d.margin := by
  simp [functionSection, margin]

theorem tableSection_margin : (tableSection d).Ensures w pos fun d' _ => d'.margin = d.margin := by
  simp [tableSection, margin]

theorem memorySection_margin : (memorySection d).Ensures w pos fun d' _ => d'.margin = d.margin := by
  simp [memorySection, margin]

theorem globalEntry_margin : (globalEntry d).Ensures w pos fun d' _ => d'.margin = d.margin := by
  simp [globalEntry, margin]

theorem exportEntry_margin : (exportEntry d).Ensures w pos fun d' _ => d'.margin = d.margin := by
  simp only [exportEntry, ensures_bind]
  refine ensures_of_forall fun name _ => ensures_of_forall fun kind _ =>
    ensures_of_forall fun index _ => ?_
  cases kind <;> simp [margin]

theorem startSection_margin : (startSection d).Ensures w pos fun d' _ => d'.margin = d.margin := by
  simp [startSection, margin]

/-- The references of a segment, in either form, are no bodies. -/
theorem elementEntry_margin : (elementEntry d).Ensures w pos fun d' _ => d'.margin = d.margin := by
  simp [elementEntry, margin]

theorem dataCountSection_margin :
    (dataCountSection d).Ensures w pos fun d' _ => d'.margin = d.margin := by
  simp [dataCountSection, margin]

theorem dataEntry_margin : (dataEntry d).Ensures w pos fun d' _ => d'.margin = d.margin := by
  simp [dataEntry, margin]

/-- The known sections that come before the code section. -/
def beforeCode : List (UInt8 × (Draft → Reader Draft)) :=
  [(1, typeSection), (2, importSection), (3, functionSection), (4, tableSection),
    (5, memorySection), (6, globalSection), (7, exportSection), (8, startSection),
    (9, elementSection), (12, dataCountSection)]

/-- Only code and data stand behind what leaves the margin alone. -/
theorem knownSections_eq : knownSections = beforeCode ++ [(10, codeSection), (11, dataSection)] :=
  rfl

/-- All sections before the code leave the margin alone. -/
theorem margin_of_mem {id : UInt8} {content : Draft → Reader Draft}
    (h : (id, content) ∈ beforeCode) :
    (content d).Ensures w pos fun d' _ => d'.margin = d.margin := by
  simp only [beforeCode, List.mem_cons, Prod.mk.injEq, List.not_mem_nil, or_false] at h
  obtain ⟨-, rfl⟩ | ⟨-, rfl⟩ | ⟨-, rfl⟩ | ⟨-, rfl⟩ | ⟨-, rfl⟩ | ⟨-, rfl⟩ | ⟨-, rfl⟩ | ⟨-, rfl⟩ |
    ⟨-, rfl⟩ | ⟨-, rfl⟩ := h
  · exact typeSection_margin
  · exact entries_margin fun _ _ => importEntry_margin
  · exact functionSection_margin
  · exact tableSection_margin
  · exact memorySection_margin
  · exact entries_margin fun _ _ => globalEntry_margin
  · exact entries_margin fun _ _ => exportEntry_margin
  · exact startSection_margin
  · exact entries_margin fun _ _ => elementEntry_margin
  · exact dataCountSection_margin

/-! ## Bodies -/

/-- The bodies `bs` stand one behind the other from `pos` on, each with its length in front, and are
those of the functions from index `i` on.  The code of a function is the end of its body; what comes
before it declares locals. -/
def HaveBodies (functions : Array Function) : (i pos : Nat) → List Sized → Prop
  | _, _, [] => True
  | i, pos, b :: bs =>
    (∃ f, functions[i]? = some f ∧ b.payloadAt pos ≤ f.body.start ∧ f.body.start ≤ f.body.stop ∧
      f.body.stop = pos + b.bytes.length) ∧
    HaveBodies functions (i + 1) (pos + b.bytes.length) bs

/-- Every function with one of the bodies has its code among the bytes of these. -/
theorem HaveBodies.within {functions : Array Function} {i : Nat} {bs : List Sized}
    (h : HaveBodies functions i pos bs) {k : Nat} {f : Function} (hf : functions[k]? = some f)
    (hi : i ≤ k) (hk : k < i + bs.length) :
    pos < f.body.start ∧ f.body.start ≤ f.body.stop ∧
      f.body.stop ≤ pos + (bs.flatMap Sized.bytes).length := by
  induction bs generalizing i pos with
  | nil => exact absurd hk (Nat.not_lt.2 hi)
  | cons b bs ih =>
    obtain ⟨⟨g, hg, hstart, hle, hstop⟩, hrest⟩ := h
    have hlen : ((b :: bs).flatMap Sized.bytes).length =
        b.bytes.length + (bs.flatMap Sized.bytes).length := by
      rw [List.flatMap_cons, List.length_append]
    rw [hlen]
    rcases Nat.eq_or_lt_of_le hi with rfl | hlt
    · obtain rfl : g = f := Option.some.inj (hg.symm.trans hf)
      have hpos : pos < b.payloadAt pos := Nat.lt_add_of_pos_right b.length_pos
      exact ⟨Nat.lt_of_lt_of_le hpos hstart, hle, by omega⟩
    · rw [List.length_cons] at hk
      obtain ⟨h₁, h₂, h₃⟩ := ih hrest hlt (by omega)
      exact ⟨by omega, h₂, by omega⟩

/-- The code of a body stands behind the declarations of locals, inside the body. -/
theorem ensures_code {params : Array ValType} (hw : w.stop ≤ w.bytes.size) :
    Reader.Ensures (do
      let locals ← iterate (← u32) localsEntry params
      pure (locals.toList, ← position)) w pos fun x _ => pos ≤ x.2 ∧ x.2 ≤ w.stop := by
  refine (ensures_u32 hw).andThen fun n mid hmid => ?_
  refine (ensures_locals hw n hmid.2).andThen fun locals code h => ?_
  simp only [ensures_bind, ensures_position, ensures_pure]
  exact ⟨Nat.le_trans hmid.1 h.2.1, h.2.2⟩

/-- **A body is read to its end**, and becomes that of the next function. -/
theorem bodyEntry_sized (hw : w.stop ≤ w.bytes.size)
    (h : bodyEntry first d w pos = .ok (d', next)) :
    ∃ (b : Sized) (locals : List ValType) (code : Nat), w.Spells pos b.bytes next ∧
      b.payloadAt pos ≤ code ∧ code ≤ next ∧
      d' = { d with
        functions := d.functions.modify (first + d.bodyCount)
          ({ · with locals, body := ⟨code, next⟩ })
        bodyCount := d.bodyCount + 1 } := by
  obtain ⟨b, hs, h⟩ := exists_sized hw h
  have hstop : b.payloadAt pos + b.payload.length ≤ w.stop := (Sized.spells_payload hs).2.2.2
  obtain ⟨⟨locals, code⟩, mid, hwithin, h⟩ := bind_eq_ok_iff.1 h
  obtain ⟨_, _, hseek, h⟩ := bind_eq_ok_iff.1 h
  cases hseek
  obtain ⟨rfl, rfl⟩ := pure_eq_ok_iff.1 h
  obtain ⟨hstart, hle⟩ := ensures_code (w := ⟨w.bytes, _⟩) (Nat.le_trans hstop hw) hwithin
  exact ⟨b, locals, code, hs, hstart, hle, rfl⟩

/-- **Bodies are read one behind the other**, for one function after another. -/
theorem iterate_bodyEntry (hw : w.stop ≤ w.bytes.size)
    (h : iterate n (bodyEntry first) d w pos = .ok (d', next))
    (hsize : first + d.bodyCount + n ≤ d.functions.size) :
    ∃ bodies : List Sized, bodies.length = n ∧ w.Spells pos (bodies.flatMap Sized.bytes) next ∧
      d'.customSections = d.customSections ∧ d'.bodyCount = d.bodyCount + n ∧
      d'.functions.size = d.functions.size ∧
      (∀ i < first + d.bodyCount, d'.functions[i]? = d.functions[i]?) ∧
      HaveBodies d'.functions (first + d.bodyCount) pos bodies := by
  induction n generalizing d pos with
  | zero =>
    obtain ⟨rfl, rfl⟩ := pure_eq_ok_iff.1 h
    exact ⟨[], rfl, rfl, rfl, rfl, rfl, fun _ _ => rfl, trivial⟩
  | succ n ih =>
    obtain ⟨d₁, mid, hentry, h⟩ := bind_eq_ok_iff.1 h
    obtain ⟨b, locals, code, hs, hstart, hle, rfl⟩ := bodyEntry_sized hw hentry
    obtain ⟨bodies, hlen, hbodies, hcustoms, hcount, hfunctions, hsame, hhave⟩ :=
      ih h (by simpa using by omega)
    dsimp only at hcount hfunctions hsame hhave
    have hindex : first + (d.bodyCount + 1) = first + d.bodyCount + 1 := rfl
    rw [hindex] at hsame hhave
    obtain ⟨f, hf⟩ : ∃ f, d.functions[first + d.bodyCount]? = some f :=
      ⟨_, Array.getElem?_eq_getElem (by omega)⟩
    obtain rfl := hs.stop_eq
    refine ⟨b :: bodies, by rw [List.length_cons, hlen], Window.spells_append.2 ⟨_, hs, hbodies⟩,
      hcustoms, by omega, by rw [hfunctions, Array.size_modify], fun i hi => ?_,
      ⟨{ f with locals, body := ⟨code, pos + b.bytes.length⟩ }, ?_, hstart, hle, rfl⟩, hhave⟩
    · rw [hsame i (Nat.lt_succ_of_lt hi), Array.getElem?_modify, if_neg (by omega)]
    · rw [hsame _ (Nat.lt_succ_self _), Array.getElem?_modify, if_pos rfl, hf]
      rfl

/-- **The code section is tiled by its bodies**, behind their number. -/
theorem codeSection_bodies (hw : w.stop ≤ w.bytes.size) (hcount : d.bodyCount = 0)
    (h : codeSection d w pos = .ok (d', next)) :
    ∃ (count : List UInt8) (bodies : List Sized), EncodesU32 bodies.length count ∧
      w.Spells pos (count ++ bodies.flatMap Sized.bytes) next ∧
      d'.customSections = d.customSections ∧ d'.bodyCount = bodies.length ∧
      d'.functions.size = d.importedCount + bodies.length ∧
      HaveBodies d'.functions d.importedCount (pos + count.length) bodies := by
  obtain ⟨n, mid, hn, h⟩ := bind_eq_ok_iff.1 h
  obtain ⟨count, hs, hencodes⟩ := (accepts_u32 hw).1 hn
  split at h
  · exact absurd h (by rw [bind_of_eq_error rfl]; simp)
  · next hsize =>
    have hsize := Decidable.not_not.1 hsize
    obtain ⟨bodies, rfl, hbodies, hcustoms, hbodyCount, hfunctions, -, hhave⟩ :=
      iterate_bodyEntry hw h (by omega)
    rw [hcount, Nat.zero_add] at hbodyCount
    rw [hcount, Nat.add_zero, hs.stop_eq] at hhave
    exact ⟨count, bodies, hencodes, Window.spells_append.2 ⟨mid, hs, hbodies⟩, hcustoms,
      hbodyCount, hfunctions.trans hsize.symm, hhave⟩

/-- Bodies are read beside the custom sections. -/
theorem codeSection_customSections :
    (codeSection d).Ensures w pos fun d' _ => d'.customSections = d.customSections := by
  simp only [codeSection, ensures_bind, ensures_ite, ensures_malformed, implies_true, true_and]
  refine ensures_of_forall fun n _ _ => ensures_iterate
    (I := fun (d' : Draft) _ => d'.customSections = d.customSections) (fun b p hb => ?_) n rfl
  simp [bodyEntry, hb]

end Draft

end WasmEngine
