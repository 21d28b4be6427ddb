import WasmEngine.Instance.Allocate
import WasmEngine.Proofs.ConstExpr.Evaluation
import WasmEngine.Proofs.Decode.Grounded
import WasmEngine.Proofs.Safety.Allocate

/-!
# Proofs/Instance/Constants — what the constant expressions of a module come to

The initial values of globals and the offsets of active segments do not depend on the embedder: they
are the values of trees that stand in the bytes of the module.  `Module.Constants` collects them.
Every grounded module has constants (`Module.Grounded.exists_constants`), and instantiation computes
these (`Instance.pushGlobals_eq`, `Instance.constant_offset`).
-/

namespace WasmEngine

open ConstExpr

/-- The values of globals and of offsets by their positions. -/
structure Module.Constants where
  globals : List Value
  offset : Nat → UInt32

namespace Module.Constants

/-- The constant expression at a position has a value; it may read the globals given. -/
def Gives (c : Constants) (bytes : ByteArray) (globals : Array Global) (pos : Nat) (type : ValType)
    (v : Value) : Prop :=
  ∃ (t : Term) (next : Nat), t.StandsAt (.ofBytes bytes) pos next ∧ t.HasType globals type ∧
    t.denote c.globals = v

/-- The constants are those of a module: each global that is not imported has the value of its
initialiser, and each active segment the offset that its expression tells. -/
structure AreOf (c : Constants) (m : Module) : Prop where
  length_eq : c.globals.length = m.globals.size
  globals : ∀ (i : Nat) g, m.globals[i]? = some g → g.imported = none →
    c.Gives m.bytes (m.globals.extract 0 i) g.init g.type (valueAt c.globals i)
  elements : ∀ s ∈ m.elements, ∀ pos, s.mode = .active pos →
    c.Gives m.bytes m.globals pos .i32 (.i32 (c.offset pos))
  dataSegments : ∀ s ∈ m.dataSegments, ∀ pos, s.mode = .active pos →
    c.Gives m.bytes m.globals pos .i32 (.i32 (c.offset pos))

end Module.Constants

/-! ## There are constants -/

section Existence

variable {m : Module}

/-- Values for the first `n` globals. -/
def Module.HasValues (m : Module) (n : Nat) (values : List Value) : Prop :=
  values.length = n ∧ ∀ (i : Nat) g, i < n → m.globals[i]? = some g →
    (valueAt values i).type = g.type ∧ (g.imported = none →
      ∃ (t : Term) (next : Nat), t.StandsAt (.ofBytes m.bytes) g.init next ∧
        t.HasType (m.globals.extract 0 i) g.type ∧ t.denote values = valueAt values i)

theorem lt_of_getElem?_extract {globals : Array Global} {n i : Nat} {g : Global}
    (h : (globals.extract 0 n)[i]? = some g) : i < n ∧ globals[i]? = some g := by
  rw [Array.getElem?_extract] at h
  split at h
  · next hlt =>
    rw [Nat.zero_add] at h
    exact ⟨by omega, h⟩
  · cases h

/-- A tree over the first `n` globals has the same value once more globals have got theirs. -/
theorem denote_append {t : Term} {globals : Array Global} {type : ValType} {values more : List Value}
    {n : Nat} (ht : t.HasType (globals.extract 0 n) type) (hn : n ≤ values.length) :
    t.denote (values ++ more) = t.denote values := by
  refine Term.denote_congr fun i hi => ?_
  obtain ⟨g, hg, -⟩ := ht.exists_of_mem_reads hi
  have hlt := (lt_of_getElem?_extract hg).1
  rw [valueAt, valueAt, List.getD_append _ _ _ _ (Nat.lt_of_lt_of_le hlt hn)]

theorem Module.HasValues.push {n : Nat} {values : List Value} (h : m.HasValues n values) {g : Global}
    {v : Value} (hg : m.globals[n]? = some g) (htype : v.type = g.type)
    (hv : g.imported = none → ∃ (t : Term) (next : Nat), t.StandsAt (.ofBytes m.bytes) g.init next ∧
      t.HasType (m.globals.extract 0 n) g.type ∧ t.denote values = v) :
    m.HasValues (n + 1) (values ++ [v]) := by
  obtain ⟨rfl, hvalues⟩ := h
  have hlast : valueAt (values ++ [v]) values.length = v := by simp [valueAt]
  have hfirst (i : Nat) (hi : i < values.length) : valueAt (values ++ [v]) i = valueAt values i :=
    List.getD_append _ _ _ _ hi
  refine ⟨by simp, fun i g' hi hg' => ?_⟩
  obtain hlt | rfl := Nat.lt_or_eq_of_le (Nat.le_of_lt_succ hi)
  · obtain ⟨htype', hv'⟩ := hvalues i g' hlt hg'
    rw [hfirst i hlt]
    refine ⟨htype', fun hlocal => ?_⟩
    obtain ⟨t, next, hs, ht, hdenote⟩ := hv' hlocal
    exact ⟨t, next, hs, ht, (denote_append ht (Nat.le_of_lt hlt)).trans hdenote⟩
  · obtain rfl := Option.some.inj (hg.symm.trans hg')
    rw [hlast]
    refine ⟨htype, fun hlocal => ?_⟩
    obtain ⟨t, next, hs, ht, hdenote⟩ := hv hlocal
    exact ⟨t, next, hs, ht, (denote_append ht (Nat.le_refl _)).trans hdenote⟩

/-- One initialiser after the other gets its value. -/
theorem Module.Grounded.exists_hasValues (h : m.Grounded m.bytes) (n : Nat)
    (hn : n ≤ m.globals.size) : ∃ values, m.HasValues n values := by
  induction n with
  | zero => exact ⟨[], rfl, fun i _ hi => absurd hi (Nat.not_lt_zero i)⟩
  | succ n ih =>
    obtain ⟨values, hvalues⟩ := ih (Nat.le_of_succ_le hn)
    have hg : m.globals[n]? = some m.globals[n] := Array.getElem?_eq_getElem hn
    cases himported : m.globals[n].imported with
    | some ref =>
      exact ⟨_, hvalues.push (v := .zero m.globals[n].type) hg (Value.type_ofSlot ..) fun hlocal => by
        simp [himported] at hlocal⟩
    | none =>
      obtain ⟨t, next, hs, ht⟩ := h.globals n _ hg himported
      refine ⟨_, hvalues.push (v := t.denote values) hg (ht.type_denote fun i g hi => ?_) fun _ =>
        ⟨t, next, hs, ht, rfl⟩⟩
      obtain ⟨hlt, hi⟩ := lt_of_getElem?_extract hi
      exact (hvalues.2 i g hlt hi).1

/-- **Every grounded module has constants.** -/
theorem Module.Grounded.exists_constants (h : m.Grounded m.bytes) :
    ∃ c : Module.Constants, c.AreOf m := by
  obtain ⟨values, hlength, hvalues⟩ := h.exists_hasValues m.globals.size (Nat.le_refl _)
  have htype (i : Nat) (g : Global) (hg : m.globals[i]? = some g) :
      (valueAt values i).type = g.type := (hvalues i g (Array.getElem?_eq_some_iff.1 hg).1 hg).1
  -- The offsets are chosen position by position.
  have hoffset (pos : Nat) : ∃ v : UInt32, HasConstant m.bytes m.globals pos .i32 →
      ∃ (t : Term) (next : Nat), t.StandsAt (.ofBytes m.bytes) pos next ∧
        t.HasType m.globals .i32 ∧ t.denote values = .i32 v := by
    by_cases hpos : HasConstant m.bytes m.globals pos .i32
    · obtain ⟨t, next, hs, ht⟩ := hpos
      obtain ⟨v, hv⟩ := exists_i32_of_type (ht.type_denote htype)
      exact ⟨v, fun _ => ⟨t, next, hs, ht, hv⟩⟩
    · exact ⟨0, fun h => absurd h hpos⟩
  choose offset hoffset using hoffset
  exact ⟨⟨values, offset⟩, hlength,
    fun i g hg hlocal => (hvalues i g (Array.getElem?_eq_some_iff.1 hg).1 hg).2 hlocal,
    fun s hs pos hpos => hoffset pos (h.elements s hs pos hpos).2,
    fun s hs pos hpos => hoffset pos ((h.dataSegments s hs).2 pos hpos).2⟩

end Existence

/-! ## Instantiation computes them -/

namespace Module.Constants

variable {c : Constants} {m : Module}

/-- The slots of the first `n` globals. -/
def slots (c : Constants) (n : Nat) : Array Slot := ((c.globals.take n).map Value.toSlot).toArray

theorem slots_succ {n : Nat} (hn : n < c.globals.length) :
    c.slots (n + 1) = (c.slots n).push (valueAt c.globals n).toSlot := by
  rw [slots, slots, List.take_succ_eq_append_getElem hn, List.map_append, List.map_singleton,
    List.push_toArray, valueAt, List.getD_eq_getElem _ _ hn]

/-- When no global is imported, the values are of the types of the globals. -/
theorem AreOf.type_eq (hc : c.AreOf m) (hnone : ∀ g ∈ m.globals, g.imported = none) (i : Nat)
    (g : Global) (hg : m.globals[i]? = some g) : (valueAt c.globals i).type = g.type := by
  induction i using Nat.strongRecOn generalizing g with
  | ind i ih =>
  obtain ⟨t, next, -, ht, hdenote⟩ := hc.globals i g hg (hnone g (Array.mem_of_getElem? hg))
  rw [← hdenote]
  refine ht.type_denote fun j g' hj => ?_
  obtain ⟨hlt, hj⟩ := lt_of_getElem?_extract hj
  exact ih j hlt g' hj

theorem AreOf.holds (hc : c.AreOf m) (hnone : ∀ g ∈ m.globals, g.imported = none) (n : Nat) :
    Holds (m.globals.extract 0 n) c.globals (c.slots n) where
  type_eq i g hi := hc.type_eq hnone i g (lt_of_getElem?_extract hi).2
  slot_eq i g hi := by
    obtain ⟨hlt, hi⟩ := lt_of_getElem?_extract hi
    have hlength : i < c.globals.length := hc.length_eq ▸ (Array.getElem?_eq_some_iff.1 hi).1
    simp [slots, valueAt, hlt, hlength]

end Module.Constants

namespace Instance

variable {c : Module.Constants} {m : Module}

theorem constant_eq {globals : Array Global} {slots : Array Slot} {pos : Nat} {type : ValType}
    {v : Value} (h : c.Gives m.bytes globals pos type v) (hslots : Holds globals c.globals slots) :
    constant m slots pos = .ok v.toSlot := by
  obtain ⟨t, next, hs, ht, rfl⟩ := h
  have heval := hs.eval_eq (Nat.le_refl _) ht hslots
  rw [constant, show ConstExpr.eval m.bytes slots pos = _ from heval]

/-- **Globals get the values of their initialisers**, one after the other. -/
theorem pushGlobals_eq (hc : c.AreOf m) (hnone : ∀ g ∈ m.globals, g.imported = none) (n : Nat)
    (hn : n ≤ m.globals.size) :
    (m.globals.toList.take n).foldlM (pushGlobal m) #[] = .ok (c.slots n) := by
  induction n with
  | zero => rfl
  | succ n ih =>
    have hg : m.globals[n]? = some m.globals[n] := Array.getElem?_eq_getElem hn
    have hlocal := hnone _ (Array.mem_of_getElem? hg)
    have hv := constant_eq (hc.globals n _ hg hlocal) (hc.holds hnone n)
    have hlength : n < c.globals.length := hc.length_eq ▸ hn
    have hpush : pushGlobal m (c.slots n) m.globals[n] =
        .ok ((c.slots n).push (valueAt c.globals n).toSlot) := by
      rw [pushGlobal, hlocal, hv]
      rfl
    have hlt : n < m.globals.toList.length := Array.length_toList.symm ▸ hn
    rw [List.take_succ_eq_append_getElem hlt, List.foldlM_append, ih (Nat.le_of_succ_le hn),
      Array.getElem_toList, Module.Constants.slots_succ hlength]
    change (pushGlobal m (c.slots n) m.globals[n] >>= fun s => .ok s) = _
    rw [hpush]
    rfl

theorem globals_eq (hc : c.AreOf m) (hnone : ∀ g ∈ m.globals, g.imported = none) :
    m.globals.foldlM (pushGlobal m) #[] = .ok (c.slots m.globals.size) := by
  have h := pushGlobals_eq hc hnone m.globals.size (Nat.le_refl _)
  rwa [← Array.length_toList, List.take_length, Array.foldlM_toList, Array.length_toList] at h

/-- Imported globals are not supported. -/
theorem imported_eq_none_of_pushGlobals {globals : List Global} {gs gs' : Array Slot}
    (h : globals.foldlM (pushGlobal m) gs = .ok gs') : ∀ g ∈ globals, g.imported = none := by
  induction globals generalizing gs with
  | nil => exact nofun
  | cons g globals ih =>
    obtain ⟨gs₁, hg, h⟩ := Except.bind_eq_ok_iff.1 h
    refine List.forall_mem_cons.2 ⟨?_, ih h⟩
    unfold pushGlobal at hg
    split at hg
    · cases hg
    · next hnone => exact Option.not_isSome_iff_eq_none.1 hnone

/-- The slot of an offset. -/
theorem constant_offset (hc : c.AreOf m) (hnone : ∀ g ∈ m.globals, g.imported = none) {pos : Nat}
    (h : c.Gives m.bytes m.globals pos .i32 (.i32 (c.offset pos))) :
    constant m (c.slots m.globals.size) pos = .ok (c.offset pos).toUInt64 := by
  have hholds := hc.holds hnone m.globals.size
  rw [Array.extract_size] at hholds
  exact constant_eq h hholds

end Instance

end WasmEngine
