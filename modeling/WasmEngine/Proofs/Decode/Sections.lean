import WasmEngine.Module.Decode
import WasmEngine.Proofs.Decode.Ensures

/-!
# Proofs/Decode/Sections — what the sections of a decoded module promise

Most sections leave the functions of a module alone.  Of those that do not, the import section adds
imported functions, the function section adds functions without bodies, and the code section gives
these their bodies, one behind the other.  `Module.decode_sound` collects what all of them together
promise about a decoded module.
-/

namespace WasmEngine

/-- The parts of a module that tell which functions there are, where their code is, and what refers
to them. -/
structure ModuleCore where
  bytes : ByteArray
  functions : Array Function
  /-- The number of functions that have a body. -/
  bodyCount : Nat := 0
  exports : List Export := []
  start : Option Nat := none
  elements : List ElementSegment := []
  sideTable : Option SideTable := none
  importCount : Nat := 0

/-- The body of a function lies within the bytes of its module, and its locals begin with its
parameters. -/
structure Function.Fits (bytes : ByteArray) (f : Function) : Prop where
  start_le : f.body.start ≤ f.body.stop
  stop_le : f.body.stop ≤ bytes.size
  locals_eq : ∃ declared, f.locals = f.type.params ++ declared

namespace ModuleCore

/-- Nothing has been read but types and imports. -/
structure OnlyImports (bytes : ByteArray) (c : ModuleCore) : Prop where
  eq : c = { bytes, functions := c.functions, importCount := c.importCount }
  imported : ∀ f ∈ c.functions, f.imported.isSome
  size_le : c.functions.size ≤ c.importCount

/-- The first `first` functions are imported and the others are not.  As many of these as have a
body fit the bytes and follow one another there.  What refers to functions refers to some that
exist. -/
structure Sound (bytes : ByteArray) (first : Nat) (c : ModuleCore) : Prop where
  bytes_eq : c.bytes = bytes
  sideTable_eq : c.sideTable = none
  first_le : first ≤ c.functions.size
  first_le_importCount : first ≤ c.importCount
  imported : ∀ i f, c.functions[i]? = some f → (f.imported.isSome ↔ i < first)
  fits : ∀ i f, c.functions[i]? = some f → first ≤ i → i < first + c.bodyCount → f.Fits bytes
  apart : ∀ i j f g, c.functions[i]? = some f → c.functions[j]? = some g → first ≤ i → i < j →
    j < first + c.bodyCount → f.body.stop ≤ g.body.start
  exports : ∀ e ∈ c.exports, e.kind = .func → e.index < c.functions.size
  start : ∀ k ∈ c.start, k < c.functions.size
  elements : ∀ s ∈ c.elements, ∀ k, some k ∈ s.funcs → k < c.functions.size

variable {bytes : ByteArray} {first : Nat} {c : ModuleCore}

/-- An export of a function that exists may be added. -/
theorem Sound.addExport {e : Export} (h : c.Sound bytes first)
    (he : e.kind = .func → e.index < c.functions.size) :
    ({ c with exports := c.exports ++ [e] } : ModuleCore).Sound bytes first :=
  { h with exports := List.forall_mem_append.2 ⟨h.exports, List.forall_mem_singleton.2 he⟩ }

/-- A function that exists may be the start function. -/
theorem Sound.setStart {k : Nat} (h : c.Sound bytes first) (hk : k < c.functions.size) :
    ({ c with start := some k } : ModuleCore).Sound bytes first :=
  { h with start := fun _ he => Option.some.inj he ▸ hk }

/-- References to functions that exist may be added. -/
theorem Sound.addElements {s : ElementSegment} (h : c.Sound bytes first)
    (hs : ∀ k, some k ∈ s.funcs → k < c.functions.size) :
    ({ c with elements := c.elements ++ [s] } : ModuleCore).Sound bytes first :=
  { h with elements := List.forall_mem_append.2 ⟨h.elements, List.forall_mem_singleton.2 hs⟩ }

/-- An imported function comes behind the others, all of them imported. -/
theorem OnlyImports.addImport {f : Function} (h : c.OnlyImports bytes) (hf : f.imported.isSome) :
    ({ c with functions := c.functions.push f, importCount := c.importCount + 1 } :
      ModuleCore).OnlyImports bytes where
  eq := by rw [h.eq]
  imported g hg := by
    obtain hg | rfl := Array.mem_push.1 hg
    · exact h.imported g hg
    · exact hf
  size_le := by
    rw [Array.size_push]
    exact Nat.succ_le_succ h.size_le

/-- What is imported need not be a function. -/
theorem OnlyImports.addOther (h : c.OnlyImports bytes) :
    ({ c with importCount := c.importCount + 1 } : ModuleCore).OnlyImports bytes where
  eq := by rw [h.eq]
  imported := h.imported
  size_le := Nat.le_succ_of_le h.size_le

/-- Functions without bodies may follow the imported ones. -/
theorem OnlyImports.addFunctions {fs : Array Function} (h : c.OnlyImports bytes)
    (hfs : ∀ f ∈ fs, f.imported = none) :
    ({ c with functions := c.functions ++ fs } : ModuleCore).Sound bytes c.functions.size where
  bytes_eq := by rw [h.eq]
  sideTable_eq := by rw [h.eq]
  first_le := by simp
  first_le_importCount := h.size_le
  imported i f hf := by
    rw [Array.getElem?_append] at hf
    split at hf
    · next hi => exact ⟨fun _ => hi, fun _ => h.imported f (Array.mem_of_getElem? hf)⟩
    · next hi => simp [hfs f (Array.mem_of_getElem? hf), hi]
  fits i _ _ hi hlt := by
    rw [h.eq] at hlt
    exact absurd hlt (Nat.not_lt.2 hi)
  apart i j _ _ _ _ hi hij hlt := by
    rw [h.eq] at hlt
    exact absurd (Nat.lt_trans hij hlt) (Nat.not_lt.2 hi)
  exports := by rw [h.eq]; exact nofun
  start := by rw [h.eq]; exact nofun
  elements := by rw [h.eq]; exact nofun

/-- Imports alone are sound: no export, segment or start function refers to any function yet. -/
theorem OnlyImports.sound (h : c.OnlyImports bytes) : c.Sound bytes c.functions.size := by
  simpa using @addFunctions bytes c #[] h (by simp)

end ModuleCore

namespace Draft

open Reader

variable {d : Draft} {w : Window} {pos first : Nat} {bytes : ByteArray}

/-- The core of the module that a draft holds. -/
def core (d : Draft) : ModuleCore :=
  { bytes := d.bytes, functions := d.functions, bodyCount := d.bodyCount, exports := d.exports
    start := d.start, elements := d.elements, sideTable := d.sideTable
    importCount := d.imports.length }

/-! ## Sections that leave the core alone -/

/-- Types are read on their own. -/
theorem typeSection_core : (typeSection d).Ensures w pos fun d' _ => d'.core = d.core := by
  simp [typeSection, core]

theorem tableSection_core : (tableSection d).Ensures w pos fun d' _ => d'.core = d.core := by
  simp [tableSection, core]

theorem memorySection_core : (memorySection d).Ensures w pos fun d' _ => d'.core = d.core := by
  simp [memorySection, core]

theorem globalSection_core : (globalSection d).Ensures w pos fun d' _ => d'.core = d.core := by
  refine ensures_bind.2 fun n mid _ => ensures_iterate (fun b p hb => ?_) n rfl
  rw [← hb]
  simp [globalEntry, core]

theorem dataCountSection_core : (dataCountSection d).Ensures w pos fun d' _ => d'.core = d.core := by
  simp [dataCountSection, core]

theorem dataSection_core : (dataSection d).Ensures w pos fun d' _ => d'.core = d.core := by
  refine ensures_bind.2 fun n mid _ => ensures_iterate (fun b p hb => ?_) n rfl
  rw [← hb]
  simp [dataEntry, core]

/-- So are custom sections, by induction on the bytes that are left. -/
theorem customSectionsUpTo_core (left : Nat) :
    (customSectionsUpTo left d).Ensures w pos fun d' _ => d'.core = d.core := by
  induction left generalizing d pos with
  | zero => simp [customSectionsUpTo]
  | succ left ih =>
    simp only [customSectionsUpTo, ensures_bind, ensures_peek?, ensures_ite, ensures_position,
      ensures_require, ensures_within, ensures_seek, ensures_pure]
    exact ⟨fun _ => ensures_of_forall fun _ _ => ensures_of_forall fun _ _ _ =>
      ensures_of_forall fun _ _ => ih, fun _ => trivial⟩

theorem skipCustomSections_core :
    (skipCustomSections d).Ensures w pos fun d' _ => d'.core = d.core := by
  simp only [skipCustomSections, ensures_bind, ensures_read, ensures_position]
  exact customSectionsUpTo_core _

/-! ## Sections that refer to functions -/

/-- Exports are checked against the functions when they are read. -/
theorem exportSection_sound (h : d.core.Sound bytes first) :
    (exportSection d).Ensures w pos fun d' _ =>
      d'.core.Sound bytes first ∧ d'.bodyCount = d.bodyCount := by
  refine ensures_bind.2 fun n mid _ => ensures_iterate (fun b p hb => ?_) n ⟨h, rfl⟩
  simp only [exportEntry, ensures_bind]
  intro name _ _ kind _ _ index _ _
  cases kind with
  | func =>
    simp only [ensures_ite, ensures_bind, ensures_invalid, ensures_pure, implies_true, true_and]
    exact fun _ hi => ⟨hb.1.addExport fun _ => Nat.lt_of_not_le hi, hb.2⟩
  | table | memory | global =>
    simp only [ensures_ite, ensures_bind, ensures_invalid, ensures_pure, implies_true, true_and]
    exact fun _ _ => ⟨hb.1.addExport (fun hkind => by cases hkind), hb.2⟩

/-- So is the start function. -/
theorem startSection_sound (h : d.core.Sound bytes first) :
    (startSection d).Ensures w pos fun d' _ =>
      d'.core.Sound bytes first ∧ d'.bodyCount = d.bodyCount := by
  simp only [startSection, ensures_bind, ensures_ite, ensures_invalid, ensures_pure, implies_true,
    true_and]
  exact ensures_of_forall fun k _ hk => ⟨h.setStart (Nat.lt_of_not_le hk), trivial⟩

/-- So is each reference of a segment, in both forms. -/
theorem elementEntry_sound (h : d.core.Sound bytes first) :
    (elementEntry d).Ensures w pos fun d' _ =>
      d'.core.Sound bytes first ∧ d'.bodyCount = d.bodyCount := by
  have hcheck (func : Option Nat) (hf : ¬(d.functions.size ≤ func.getD 0 ∧ func.isSome)) (k : Nat)
      (hk : func = some k) : k < d.functions.size := by
    subst hk
    exact Nat.lt_of_not_le fun hle => hf ⟨hle, rfl⟩
  have hfuncs (mode : SegmentMode) (item : Reader (Option Nat)) (n q : Nat)
      (hitem : ∀ p, item.Ensures w p fun func _ => ∀ k, func = some k → k < d.functions.size) :
      (replicate n item).Ensures w q fun funcs _ =>
        ModuleCore.Sound bytes first { d.core with elements := d.elements ++ [⟨mode, funcs⟩] } ∧
          True :=
    (ensures_replicate hitem n).mono fun funcs _ hf =>
      ⟨h.addElements fun k hk => hf _ hk k rfl, trivial⟩
  simp only [elementEntry, ensures_bind, ensures_ite, ensures_malformed, ensures_pure, implies_true,
    true_and]
  refine ensures_of_forall fun flags _ _ => ensures_of_forall fun mode _ =>
    ⟨fun _ => ensures_of_forall fun _ _ => ⟨fun _ _ => ?_, fun _ _ => ?_⟩, fun _ => ?_⟩
  all_goals
    refine ensures_of_forall fun n _ => hfuncs mode _ n _ fun p => ?_
    simp only [ensures_ite, ensures_bind, ensures_map, ensures_invalid, ensures_pure, implies_true,
      true_and]
    exact ⟨fun _ => ensures_of_forall fun func _ => hcheck func,
      fun _ => ensures_of_forall fun func _ => hcheck (some func)⟩

/-- All segments keep to the functions, one after the other. -/
theorem elementSection_sound (h : d.core.Sound bytes first) :
    (elementSection d).Ensures w pos fun d' _ =>
      d'.core.Sound bytes first ∧ d'.bodyCount = d.bodyCount :=
  ensures_bind.2 fun n _ _ => ensures_iterate
    (fun _ _ hb => (elementEntry_sound hb.1).mono fun _ _ hd => ⟨hd.1, hd.2.trans hb.2⟩) n ⟨h, rfl⟩

/-! ## Sections that add functions -/

/-- An import of a function is recorded as imported; the others are no functions. -/
theorem importEntry_onlyImports (h : d.core.OnlyImports bytes) :
    (importEntry d).Ensures w pos fun d' _ => d'.core.OnlyImports bytes := by
  have hlength (i : Import) : (d.imports ++ [i]).length = d.core.importCount + 1 :=
    List.length_append
  simp only [importEntry, core, ensures_bind]
  refine ensures_of_forall fun module _ => ensures_of_forall fun name _ =>
    ensures_of_forall fun kind _ => ?_
  cases kind with
  | func =>
    simp only [ensures_bind, ensures_pure]
    exact ensures_of_forall fun _ _ => hlength _ ▸ h.addImport rfl
  | table =>
    simp only [ensures_ite, ensures_bind, ensures_invalid, ensures_pure, implies_true, true_and]
    exact fun _ => ensures_of_forall fun _ _ => ensures_of_forall fun _ _ => hlength _ ▸ h.addOther
  | memory =>
    simp only [ensures_ite, ensures_bind, ensures_invalid, ensures_pure, implies_true, true_and]
    exact fun _ => ensures_of_forall fun _ _ => hlength _ ▸ h.addOther
  | global =>
    simp only [ensures_bind, ensures_pure]
    exact ensures_of_forall fun _ _ => ensures_of_forall fun _ _ => hlength _ ▸ h.addOther

theorem importSection_onlyImports (h : d.core.OnlyImports bytes) :
    (importSection d).Ensures w pos fun d' _ => d'.core.OnlyImports bytes :=
  ensures_bind.2 fun n _ _ => ensures_iterate (fun _ _ => importEntry_onlyImports) n h

/-- The functions of the module come behind the imported ones, with empty bodies. -/
theorem functionSection_sound (h : d.core.OnlyImports bytes) :
    (functionSection d).Ensures w pos fun d' _ =>
      d'.core.Sound bytes d.functions.size ∧ d'.bodyCount = 0 := by
  simp only [functionSection, ensures_bind, ensures_pure]
  refine ensures_of_forall fun n _ => ensures_of_forall fun uses _ => ⟨h.addFunctions ?_, ?_⟩
  · simp only [List.mem_toArray, List.mem_map]
    rintro f ⟨use, -, rfl⟩
    rfl
  · exact congrArg ModuleCore.bodyCount h.eq

end Draft

end WasmEngine
