import WasmEngine.Proofs.ConstExpr.Term
import WasmEngine.Proofs.Decode.Bodies

/-!
# Proofs/Decode/Grounded — what the sections of a module refer to is there

Each section reader checks what it reads against the sections before it.  `Module.Grounded` is what
these checks amount to, and every section keeps it: later sections add to what is there and take
nothing away.  `Module.decode_grounded` says so of decoded modules.
-/

namespace WasmEngine

/-! ## What is promised -/

/-- The maximum, if there is one, is at least the minimum. -/
def Extent.IsOrdered (e : Extent) : Prop := ∀ max ∈ e.max, e.min ≤ max

/-- The extent is one that a memory can have. -/
def Extent.IsAddressable (e : Extent) : Prop :=
  e.min ≤ Memory.maxPages ∧ ∀ max ∈ e.max, max ≤ Memory.maxPages

/-- The range lies within the bytes. -/
def ByteRange.Fits (bytes : ByteArray) (r : ByteRange) : Prop :=
  r.start ≤ r.stop ∧ r.stop ≤ bytes.size

/-- A constant expression of a type stands at a position, and reads only immutable globals among
those given. -/
def ConstExpr.HasConstant (bytes : ByteArray) (globals : Array Global) (pos : Nat)
    (type : ValType) : Prop :=
  ∃ (t : Term) (next : Nat), t.StandsAt (.ofBytes bytes) pos next ∧ t.HasType globals type

namespace Module

/-- Whether there is an item of a kind at an index. -/
def Has (m : Module) : ExternKind → Nat → Prop
  | .func, index => index < m.functions.size
  | .table, index => index = 0 ∧ m.table.isSome
  | .memory, index => index = 0 ∧ m.memory.isSome
  | .global, index => index < m.globals.size

/-- What the sections of a module refer to is there, and bounds and names are as they should be. -/
structure Grounded (bytes : ByteArray) (m : Module) : Prop where
  functions : ∀ f ∈ m.functions, m.types[f.typeIndex]? = some f.type
  table : ∀ e ∈ m.table, e.IsOrdered
  memory : ∀ e ∈ m.memory, e.IsOrdered ∧ e.IsAddressable
  globals : ∀ (i : Nat) g, m.globals[i]? = some g → g.imported = none →
    ConstExpr.HasConstant bytes (m.globals.extract 0 i) g.init g.type
  exports : ∀ e ∈ m.exports, m.Has e.kind e.index
  exportNames : (m.exports.map Export.name).Nodup
  elements : ∀ s ∈ m.elements, ∀ offset, s.mode = .active offset →
    m.table.isSome ∧ ConstExpr.HasConstant bytes m.globals offset .i32
  dataSegments : ∀ s ∈ m.dataSegments, s.range.Fits bytes ∧ ∀ offset, s.mode = .active offset →
    m.memory.isSome ∧ ConstExpr.HasConstant bytes m.globals offset .i32
  customSections : ∀ s ∈ m.customSections, s.range.Fits bytes

end Module

/-! ## Adding to a module -/

section Adding

variable {bytes : ByteArray} {m : Module}

/-- An initialiser that was constant stays so with more globals. -/
theorem ConstExpr.HasConstant.push {globals : Array Global} {pos : Nat} {type : ValType}
    (h : HasConstant bytes globals pos type) (g : Global) :
    HasConstant bytes (globals.push g) pos type := by
  obtain ⟨t, next, hs, ht⟩ := h
  refine ⟨t, next, hs, ht.mono fun i g' hg => ?_⟩
  obtain ⟨hi, rfl⟩ := Array.getElem?_eq_some_iff.1 hg
  exact Array.getElem?_push_lt hi

/-- What there is stays when items are added. -/
theorem Module.Has.mono {m' : Module} {kind : ExternKind} {index : Nat} (h : m.Has kind index)
    (hfunctions : m.functions.size ≤ m'.functions.size) (htable : m.table.isSome → m'.table.isSome)
    (hmemory : m.memory.isSome → m'.memory.isSome) (hglobals : m.globals.size ≤ m'.globals.size) :
    m'.Has kind index := by
  cases kind with
  | func => exact Nat.lt_of_lt_of_le h hfunctions
  | table => exact ⟨h.1, htable h.2⟩
  | memory => exact ⟨h.1, hmemory h.2⟩
  | global => exact Nat.lt_of_lt_of_le h hglobals

namespace Module.Grounded

/-- Types may be set while there are no functions to use them. -/
theorem setTypes (h : m.Grounded bytes) (hnone : m.functions = #[]) (types : Array Signature) :
    ({ m with types } : Module).Grounded bytes :=
  { h with functions := by simp [hnone] }

theorem setImports (h : m.Grounded bytes) (imports : List Import) :
    ({ m with imports } : Module).Grounded bytes := { h with }

theorem setStart (h : m.Grounded bytes) (start : Option Nat) :
    ({ m with start } : Module).Grounded bytes := { h with }

theorem setDataCount (h : m.Grounded bytes) (dataCount : Option Nat) :
    ({ m with dataCount } : Module).Grounded bytes := { h with }

/-- Functions of the types that they name may be added, and bodies be given to functions. -/
theorem setFunctions (h : m.Grounded bytes) {functions : Array Function}
    (hsize : m.functions.size ≤ functions.size)
    (htype : ∀ f ∈ functions, m.types[f.typeIndex]? = some f.type) :
    ({ m with functions } : Module).Grounded bytes :=
  { h with
    functions := htype
    exports := fun e he => (h.exports e he).mono hsize id id (Nat.le_refl _) }

/-- A table with ordered limits may be added. -/
theorem setTable (h : m.Grounded bytes) {e : Extent} (he : e.IsOrdered) :
    ({ m with table := some e } : Module).Grounded bytes :=
  { h with
    table := fun _ h => Option.some.inj h ▸ he
    exports := fun e he =>
      (h.exports e he).mono (Nat.le_refl _) (fun _ => rfl) id (Nat.le_refl _)
    elements := fun s hs offset hoffset => ⟨rfl, (h.elements s hs offset hoffset).2⟩ }

/-- A memory with ordered limits that can be addressed may be added. -/
theorem setMemory (h : m.Grounded bytes) {e : Extent} (he : e.IsOrdered ∧ e.IsAddressable) :
    ({ m with memory := some e } : Module).Grounded bytes :=
  { h with
    memory := fun _ h => Option.some.inj h ▸ he
    exports := fun e he =>
      (h.exports e he).mono (Nat.le_refl _) id (fun _ => rfl) (Nat.le_refl _)
    dataSegments := fun s hs => ⟨(h.dataSegments s hs).1, fun offset hoffset =>
      ⟨rfl, ((h.dataSegments s hs).2 offset hoffset).2⟩⟩ }

/-- A global may be added that is imported or has a constant initialiser. -/
theorem pushGlobal (h : m.Grounded bytes) {g : Global}
    (hg : g.imported = none → ConstExpr.HasConstant bytes m.globals g.init g.type) :
    ({ m with globals := m.globals.push g } : Module).Grounded bytes :=
  { h with
    globals := fun i g' hi himp => by
      change ConstExpr.HasConstant bytes ((m.globals.push g).extract 0 i) g'.init g'.type
      rw [Array.getElem?_push] at hi
      split at hi
      · next heq =>
        subst heq
        obtain rfl := Option.some.inj hi
        rw [Array.extract_push_of_le (Nat.le_refl _), Array.extract_size]
        exact hg himp
      · next =>
        rw [Array.extract_push_of_le (Nat.le_of_lt (Array.getElem?_eq_some_iff.1 hi).1)]
        exact h.globals i g' hi himp
    exports := fun e he => (h.exports e he).mono (Nat.le_refl _) id id (by simp)
    elements := fun s hs offset hoffset =>
      ⟨(h.elements s hs offset hoffset).1, (h.elements s hs offset hoffset).2.push g⟩
    dataSegments := fun s hs => ⟨(h.dataSegments s hs).1, fun offset hoffset =>
      ⟨((h.dataSegments s hs).2 offset hoffset).1,
        ((h.dataSegments s hs).2 offset hoffset).2.push g⟩⟩ }

theorem addExport (h : m.Grounded bytes) {e : Export} (hname : (m.export? e.name).isSome = false)
    (hhas : m.Has e.kind e.index) :
    ({ m with exports := m.exports ++ [e] } : Module).Grounded bytes :=
  { h with
    exports := List.forall_mem_append.2 ⟨h.exports, List.forall_mem_singleton.2 hhas⟩
    exportNames := by
      have hnew : e.name ∉ m.exports.map Export.name := fun hmem => by
        obtain ⟨e', he', heq⟩ := List.mem_map.1 hmem
        have hnone : m.export? e.name = none :=
          Option.isNone_iff_eq_none.1 (Option.isSome_eq_false_iff.1 hname)
        exact List.find?_eq_none.1 hnone e' he' (decide_eq_true heq)
      rw [List.map_append, List.map_singleton]
      exact List.nodup_append.2 ⟨h.exportNames, by simp, fun a ha b hb heq =>
        hnew (List.mem_singleton.1 hb ▸ heq ▸ ha)⟩ }

theorem addElements (h : m.Grounded bytes) {s : ElementSegment}
    (hs : ∀ offset, s.mode = .active offset →
      m.table.isSome ∧ ConstExpr.HasConstant bytes m.globals offset .i32) :
    ({ m with elements := m.elements ++ [s] } : Module).Grounded bytes :=
  { h with elements := List.forall_mem_append.2 ⟨h.elements, List.forall_mem_singleton.2 hs⟩ }

theorem addData (h : m.Grounded bytes) {s : DataSegment} (hrange : s.range.Fits bytes)
    (hs : ∀ offset, s.mode = .active offset →
      m.memory.isSome ∧ ConstExpr.HasConstant bytes m.globals offset .i32) :
    ({ m with dataSegments := m.dataSegments ++ [s] } : Module).Grounded bytes :=
  { h with dataSegments :=
      List.forall_mem_append.2 ⟨h.dataSegments, List.forall_mem_singleton.2 ⟨hrange, hs⟩⟩ }

theorem addCustom (h : m.Grounded bytes) {s : CustomSection} (hrange : s.range.Fits bytes) :
    ({ m with customSections := m.customSections ++ [s] } : Module).Grounded bytes :=
  { h with customSections :=
      List.forall_mem_append.2 ⟨h.customSections, List.forall_mem_singleton.2 hrange⟩ }

end Module.Grounded

end Adding

/-! ## Parts of sections -/

section Parts

open Reader

variable {w : Window} {pos : Nat} {bytes : ByteArray}

/-- The window is a part of the bytes. -/
structure Window.Within (bytes : ByteArray) (w : Window) : Prop where
  bytes_eq : w.bytes = bytes
  stop_le : w.stop ≤ bytes.size

theorem Window.Within.stop_le_size (hw : w.Within bytes) : w.stop ≤ w.bytes.size :=
  hw.bytes_eq ▸ hw.stop_le

theorem Window.Within.shrink (hw : w.Within bytes) {stop : Nat} (h : stop ≤ w.stop) :
    ({ w with stop } : Window).Within bytes := ⟨hw.bytes_eq, Nat.le_trans h hw.stop_le⟩

/-- An expression that was checked is constant at its place. -/
theorem ConstExpr.ensures_check (hw : w.Within bytes) (globals : Array Global) (type : ValType) :
    (check globals type).Ensures w pos fun _ _ => HasConstant bytes globals pos type := by
  intro _ next h
  obtain ⟨t, hs, ht⟩ := (check_eq_ok_iff hw.stop_le_size).1 h
  refine ⟨t, next, hs.mono fun p b hb => ?_, ht⟩
  obtain ⟨hp, hb⟩ := Window.get?_eq_some_iff.1 hb
  exact Window.get?_eq_some_iff.2 ⟨Nat.lt_of_lt_of_le hp hw.stop_le, hw.bytes_eq ▸ hb⟩

/-- A name is read inside the window. -/
theorem Reader.ensures_name (hw : w.Within bytes) :
    name.Ensures w pos fun _ next => pos ≤ next ∧ next ≤ w.stop := by
  refine (ensures_u32 hw.stop_le_size).andThen fun n start hstart => ?_
  refine ensures_bind.2 fun _ next hskip => ?_
  obtain ⟨-, rfl, hle⟩ := skip_eq_ok_iff.1 hskip
  refine ensures_bind.2 (ensures_read.2 ?_)
  split
  · exact ensures_pure.2 ⟨Nat.le_trans hstart.1 (Nat.le_add_right ..), hle⟩
  · exact ensures_malformed

namespace Draft

/-- A type that is used is one of the module. -/
theorem ensures_typeUse {d : Draft} :
    d.typeUse.Ensures w pos fun use _ => d.types[use.1]? = some use.2 := by
  refine ensures_bind.2 (ensures_of_forall fun index _ => ?_)
  split
  · next h => exact ensures_pure.2 h
  · exact ensures_invalid

/-- Limits that were read are in order. -/
theorem ensures_extent (imported : Option ImportName) :
    (extent imported).Ensures w pos fun e _ => e.IsOrdered := by
  simp only [extent, ensures_bind, ensures_ite, ensures_invalid, ensures_pure, implies_true,
    true_and]
  refine ensures_of_forall fun flag _ => ensures_of_forall fun min _ =>
    ⟨fun _ => ensures_of_forall fun max _ hmax => ?_, fun _ _ h => by cases h⟩
  rintro _ ⟨⟩
  exact Nat.le_of_not_lt hmax

/-- Limits of a memory stay within the largest one. -/
theorem ensures_memoryExtent (imported : Option ImportName) :
    (memoryExtent imported).Ensures w pos fun e _ => e.IsOrdered ∧ e.IsAddressable := by
  refine (ensures_extent imported).andThen fun e _ he => ?_
  simp only [ensures_ite, ensures_bind, ensures_invalid, ensures_pure, implies_true, true_and]
  intro hpages
  obtain ⟨hmin, hmax⟩ := not_or.1 hpages
  refine ⟨he, Nat.le_of_not_lt hmin, fun max hmem => ?_⟩
  rw [Option.mem_def.1 hmem] at hmax
  exact Nat.le_of_not_lt hmax

/-- An active segment of elements has a table, and a constant offset of type `i32`. -/
theorem ensures_elementMode (hw : w.Within bytes) {d : Draft} (flags : Nat) :
    (d.elementMode flags).Ensures w pos fun mode _ => ∀ offset, mode = .active offset →
      d.table.isSome ∧ ConstExpr.HasConstant bytes d.globals offset .i32 := by
  simp only [elementMode, ensures_ite, ensures_bind, ensures_invalid, ensures_pure,
    ensures_position, implies_true, true_and]
  have hactive (pos : Nat) (htable : ¬d.table.isNone) :
      (ConstExpr.check d.globals .i32).Ensures w pos fun _ _ => ∀ offset,
        SegmentMode.active pos = .active offset →
          d.table.isSome ∧ ConstExpr.HasConstant bytes d.globals offset .i32 :=
    (ConstExpr.ensures_check hw d.globals .i32).mono fun _ _ hconst offset h =>
      SegmentMode.active.inj h ▸ ⟨Option.isSome_iff_ne_none.2 fun h => htable (by simp [h]), hconst⟩
  refine ⟨fun _ offset h => ?_, fun _ =>
    ⟨fun _ => ensures_of_forall fun _ q _ => hactive q, fun _ => hactive pos⟩⟩
  split at h <;> cases h

/-- An active data segment has a memory, and a constant offset of type `i32`. -/
theorem ensures_dataMode (hw : w.Within bytes) {d : Draft} :
    d.dataMode.Ensures w pos fun mode _ => ∀ offset, mode = .active offset →
      d.memory.isSome ∧ ConstExpr.HasConstant bytes d.globals offset .i32 := by
  simp only [dataMode, ensures_ite, ensures_bind, ensures_invalid, ensures_pure,
    ensures_position, implies_true, and_true, true_and]
  have hactive (pos : Nat) (hmemory : ¬d.memory.isNone) :
      (ConstExpr.check d.globals .i32).Ensures w pos fun _ _ => ∀ offset,
        SegmentMode.active pos = .active offset →
          d.memory.isSome ∧ ConstExpr.HasConstant bytes d.globals offset .i32 :=
    (ConstExpr.ensures_check hw d.globals .i32).mono fun _ _ hconst offset h =>
      SegmentMode.active.inj h ▸ ⟨Option.isSome_iff_ne_none.2 fun h => hmemory (by simp [h]), hconst⟩
  refine ensures_of_forall fun flag q => ⟨fun _ offset h => ?_, fun _ _ =>
    ⟨fun _ => ensures_of_forall fun _ q _ => hactive q, fun _ => hactive q⟩⟩
  cases h

end Draft

end Parts

/-! ## Sections -/

namespace Draft

open Reader

variable {d : Draft} {w : Window} {pos : Nat} {bytes : ByteArray}

/-- An import is checked by its kind, and adds to what later sections may use. -/
theorem importEntry_grounded (h : d.toModule.Grounded bytes) :
    (importEntry d).Ensures w pos fun d' _ => d'.toModule.Grounded bytes := by
  simp only [importEntry, ensures_bind]
  refine ensures_of_forall fun module _ => ensures_of_forall fun name _ =>
    ensures_of_forall fun kind _ => ?_
  replace h := h.setImports (d.imports ++ [⟨⟨module, name⟩, kind⟩])
  cases kind with
  | func =>
    simp only [ensures_bind, ensures_pure]
    refine ensures_typeUse.mono fun use _ huse => h.setFunctions (by simp) fun f hf => ?_
    obtain hf | rfl := Array.mem_push.1 hf
    · exact h.functions f hf
    · exact huse
  | table =>
    simp only [ensures_ite, ensures_bind, ensures_invalid, ensures_pure, implies_true, true_and]
    exact fun _ => ensures_of_forall fun _ _ => (ensures_extent _).mono fun _ _ => h.setTable
  | memory =>
    simp only [ensures_ite, ensures_bind, ensures_invalid, ensures_pure, implies_true, true_and]
    exact fun _ => (ensures_memoryExtent _).mono fun _ _ => h.setMemory
  | global =>
    simp only [ensures_bind, ensures_pure]
    exact ensures_of_forall fun _ _ => ensures_of_forall fun _ _ => h.pushGlobal fun h => by cases h

/-- Functions have types of the module. -/
theorem functionSection_grounded (h : d.toModule.Grounded bytes) :
    (functionSection d).Ensures w pos fun d' _ => d'.toModule.Grounded bytes := by
  simp only [functionSection, ensures_bind, ensures_pure]
  refine ensures_of_forall fun n _ => (ensures_replicate (fun _ => ensures_typeUse) n).mono
    fun uses _ huses => h.setFunctions (by simp) fun f hf => ?_
  obtain hf | hf := Array.mem_append.1 hf
  · exact h.functions f hf
  · obtain ⟨use, hmem, rfl⟩ := List.mem_map.1 (List.mem_toArray.1 hf)
    exact huses use hmem

/-- There is at most one table. -/
theorem tableSection_grounded (h : d.toModule.Grounded bytes) :
    (tableSection d).Ensures w pos fun d' _ => d'.toModule.Grounded bytes := by
  simp only [tableSection, ensures_bind, ensures_ite, ensures_invalid, ensures_pure, implies_true,
    true_and]
  exact ensures_of_forall fun n _ _ => ⟨fun _ => ensures_of_forall fun _ _ =>
    (ensures_extent none).mono fun _ _ => h.setTable, fun _ => h⟩

/-- There is at most one memory. -/
theorem memorySection_grounded (h : d.toModule.Grounded bytes) :
    (memorySection d).Ensures w pos fun d' _ => d'.toModule.Grounded bytes := by
  simp only [memorySection, ensures_bind, ensures_ite, ensures_invalid, ensures_pure, implies_true,
    true_and]
  exact ensures_of_forall fun n _ _ =>
    ⟨fun _ => (ensures_memoryExtent none).mono fun _ _ => h.setMemory, fun _ => h⟩

/-- A global is initialised from those before it. -/
theorem globalEntry_grounded (hw : w.Within bytes) (h : d.toModule.Grounded bytes) :
    (globalEntry d).Ensures w pos fun d' _ => d'.toModule.Grounded bytes := by
  simp only [globalEntry, ensures_bind, ensures_position, ensures_pure]
  exact ensures_of_forall fun type _ => ensures_of_forall fun isMutable init =>
    (ConstExpr.ensures_check hw d.globals type).mono fun _ _ hconst => h.pushGlobal fun _ => hconst

/-- An export has a new name, and exports what is there. -/
theorem exportEntry_grounded (h : d.toModule.Grounded bytes) :
    (exportEntry d).Ensures w pos fun d' _ => d'.toModule.Grounded bytes := by
  simp only [exportEntry, ensures_bind]
  refine ensures_of_forall fun name _ => ensures_of_forall fun kind _ =>
    ensures_of_forall fun index _ => ?_
  have hadd (hname : ¬(d.export? name).isSome) (hhas : d.Has kind index) :
      Module.Grounded bytes { d.toModule with exports := d.exports ++ [⟨name, kind, index⟩] } :=
    h.addExport (e := ⟨name, kind, index⟩) (Bool.eq_false_iff.2 hname) hhas
  cases kind with
  | func | global =>
    simp only [ensures_ite, ensures_bind, ensures_invalid, ensures_pure, implies_true, true_and]
    exact fun hname hindex => hadd hname (Nat.lt_of_not_le hindex)
  | table | memory =>
    simp only [ensures_ite, ensures_bind, ensures_invalid, ensures_pure, implies_true, true_and]
    intro hname hindex
    obtain ⟨hzero, hsome⟩ := not_or.1 hindex
    exact hadd hname ⟨Decidable.not_not.1 hzero,
      Option.isSome_iff_ne_none.2 fun hnone => hsome (by simp [hnone])⟩

/-- The start function is an index, which nothing else refers to. -/
theorem startSection_grounded (h : d.toModule.Grounded bytes) :
    (startSection d).Ensures w pos fun d' _ => d'.toModule.Grounded bytes := by
  simp only [startSection, ensures_bind, ensures_ite, ensures_invalid, ensures_pure, implies_true,
    true_and]
  exact ensures_of_forall fun start _ _ => h.setStart (some start)

/-- A segment of elements is checked with its mode and each of its references. -/
theorem elementEntry_grounded (hw : w.Within bytes) (h : d.toModule.Grounded bytes) :
    (elementEntry d).Ensures w pos fun d' _ => d'.toModule.Grounded bytes := by
  simp only [elementEntry, ensures_bind, ensures_ite, ensures_malformed, ensures_pure,
    implies_true, true_and]
  refine ensures_of_forall fun flags _ _ => (ensures_elementMode hw flags).mono fun mode _ hmode => ?_
  have hadd (funcs : List (Option Nat)) : Module.Grounded bytes
      { d.toModule with elements := d.elements ++ [⟨mode, funcs⟩] } :=
    h.addElements (s := ⟨mode, funcs⟩) hmode
  exact ⟨fun _ => ensures_of_forall fun _ _ =>
    ⟨fun _ _ => ensures_of_forall fun _ _ => ensures_of_forall fun _ _ => hadd _,
      fun _ _ => ensures_of_forall fun _ _ => ensures_of_forall fun _ _ => hadd _⟩,
    fun _ => ensures_of_forall fun _ _ => ensures_of_forall fun _ _ => hadd _⟩

theorem dataCountSection_grounded (h : d.toModule.Grounded bytes) :
    (dataCountSection d).Ensures w pos fun d' _ => d'.toModule.Grounded bytes := by
  simp only [dataCountSection, ensures_bind, ensures_pure]
  exact ensures_of_forall fun n _ => h.setDataCount (some n)

/-- Giving a function a body leaves its type as it is. -/
theorem bodyEntry_grounded (first : Nat) (h : d.toModule.Grounded bytes) :
    (bodyEntry first d).Ensures w pos fun d' _ => d'.toModule.Grounded bytes := by
  simp only [bodyEntry, ensures_bind, ensures_position, ensures_require, ensures_within,
    ensures_seek, ensures_pure]
  refine ensures_of_forall fun length start _ => ensures_of_forall fun n _ =>
    ensures_of_forall fun locals code => h.setFunctions (by simp) fun f hf => ?_
  obtain ⟨i, hi⟩ := Array.mem_iff_getElem?.1 hf
  rw [Array.getElem?_modify] at hi
  split at hi
  · obtain ⟨g, hg, rfl⟩ := Option.map_eq_some_iff.1 hi
    exact h.functions g (Array.mem_of_getElem? hg)
  · exact h.functions f (Array.mem_of_getElem? hi)

/-- Bodies do not change what functions there are. -/
theorem codeSection_grounded (h : d.toModule.Grounded bytes) :
    (codeSection d).Ensures w pos fun d' _ => d'.toModule.Grounded bytes := by
  simp only [codeSection, ensures_bind, ensures_ite, ensures_malformed, implies_true, true_and]
  exact ensures_of_forall fun n _ _ => ensures_iterate (fun _ _ => bodyEntry_grounded _) n h

/-- A data segment is checked with its mode, and its payload lies in the bytes. -/
theorem dataEntry_grounded (hw : w.Within bytes) (h : d.toModule.Grounded bytes) :
    (dataEntry d).Ensures w pos fun d' _ => d'.toModule.Grounded bytes := by
  refine (ensures_dataMode hw).andThen fun mode _ hmode => ?_
  simp only [ensures_bind, ensures_require, ensures_pure]
  refine ensures_of_forall fun length start hstop => ?_
  intro _ _ hskip
  obtain ⟨rfl, -, -⟩ := skip_eq_ok_iff.1 hskip
  exact h.addData ⟨Nat.le_add_right .., Nat.le_trans hstop hw.stop_le⟩ hmode

/-- The payload of a custom section lies in the bytes; by induction on what is left of them. -/
theorem customSectionsUpTo_grounded (hw : w.Within bytes) (left : Nat)
    (h : d.toModule.Grounded bytes) :
    (customSectionsUpTo left d).Ensures w pos fun d' _ => d'.toModule.Grounded bytes := by
  induction left generalizing d pos with
  | zero => exact ensures_pure.2 h
  | succ left ih =>
    simp only [customSectionsUpTo, ensures_bind, ensures_peek?, ensures_ite, ensures_position,
      ensures_require, ensures_within, ensures_seek, ensures_pure]
    refine ⟨fun _ => ensures_of_forall fun _ _ => ensures_of_forall fun length start hstop =>
      (ensures_name (hw.shrink hstop)).mono fun name content hcontent => ?_, fun _ => h⟩
    exact ih (h.addCustom ⟨hcontent.2, Nat.le_trans hstop hw.stop_le⟩)

theorem skipCustomSections_grounded (hw : w.Within bytes) (h : d.toModule.Grounded bytes) :
    (skipCustomSections d).Ensures w pos fun d' _ => d'.toModule.Grounded bytes := by
  simp only [skipCustomSections, ensures_bind, ensures_read, ensures_position]
  exact customSectionsUpTo_grounded hw _ h

/-! ## All sections -/

/-- A section may be absent, and custom sections may stand behind it. -/
theorem knownSection_grounded {id : UInt8} {content : Draft → Reader Draft}
    (hw : w.Within bytes) (h : d.toModule.Grounded bytes)
    (hcontent : ∀ (v : Window) p, v.Within bytes →
      (content d).Ensures v p fun d' _ => d'.toModule.Grounded bytes) :
    (knownSection id content d).Ensures w pos fun d' _ => d'.toModule.Grounded bytes := by
  simp only [knownSection, ensures_bind, ensures_peek?, ensures_ite, ensures_position,
    ensures_require, ensures_within, ensures_malformed, ensures_pure, implies_true, true_and]
  exact ⟨fun _ => ensures_of_forall fun _ _ => ensures_of_forall fun length start hstop =>
      (hcontent _ start (hw.shrink hstop)).mono fun _ _ hd _ => skipCustomSections_grounded hw hd,
    fun _ => skipCustomSections_grounded hw h⟩

/-- A section of entries of one kind. -/
theorem entries_grounded {entry : Draft → Reader Draft} (h : d.toModule.Grounded bytes)
    (hentry : ∀ (d : Draft) p, d.toModule.Grounded bytes →
      (entry d).Ensures w p fun d' _ => d'.toModule.Grounded bytes) :
    (u32 >>= fun n => iterate n entry d).Ensures w pos fun d' _ => d'.toModule.Grounded bytes :=
  ensures_bind.2 fun n _ _ => ensures_iterate (fun d p => hentry d p) n h

/-- Each section behind the types keeps the module grounded. -/
theorem knownSections_grounded (hw : w.Within bytes) {id : UInt8} {content : Draft → Reader Draft}
    (hmem : (id, content) ∈ knownSections.tail) (h : d.toModule.Grounded bytes) :
    (content d).Ensures w pos fun d' _ => d'.toModule.Grounded bytes := by
  simp only [knownSections, List.tail_cons, List.mem_cons, Prod.mk.injEq, List.not_mem_nil,
    or_false] at hmem
  rcases hmem with ⟨-, rfl⟩ | ⟨-, rfl⟩ | ⟨-, rfl⟩ | ⟨-, rfl⟩ | ⟨-, rfl⟩ | ⟨-, rfl⟩ | ⟨-, rfl⟩ |
    ⟨-, rfl⟩ | ⟨-, rfl⟩ | ⟨-, rfl⟩ | ⟨-, rfl⟩
  · exact entries_grounded h fun _ _ => importEntry_grounded
  · exact functionSection_grounded h
  · exact tableSection_grounded h
  · exact memorySection_grounded h
  · exact entries_grounded h fun _ _ => globalEntry_grounded hw
  · exact entries_grounded h fun _ _ => exportEntry_grounded
  · exact startSection_grounded h
  · exact entries_grounded h fun _ _ => elementEntry_grounded hw
  · exact dataCountSection_grounded h
  · exact codeSection_grounded h
  · exact entries_grounded h fun _ _ => dataEntry_grounded hw

/-- So do all of them, in order. -/
theorem foldlM_grounded (hw : w.Within bytes) {ss : List (UInt8 × (Draft → Reader Draft))}
    (hss : ∀ s ∈ ss, s ∈ knownSections.tail) (h : d.toModule.Grounded bytes) :
    (ss.foldlM (fun d (s : UInt8 × (Draft → Reader Draft)) => knownSection s.1 s.2 d) d).Ensures
      w pos fun d' _ => d'.toModule.Grounded bytes := by
  induction ss generalizing d pos with
  | nil => exact ensures_pure.2 h
  | cons s ss ih =>
    obtain ⟨hs, hss⟩ := List.forall_mem_cons.1 hss
    rw [List.foldlM_cons]
    exact (knownSection_grounded hw h fun v p hv => knownSections_grounded hv hs h).andThen
      fun _ _ hd => ih hss hd

/-- **The sections of a module are grounded.**  Types come first, when there is no function yet. -/
theorem sections_grounded (hw : w.Within bytes) (h : d.toModule.Grounded bytes)
    (hnone : d.functions = #[]) :
    (sections d).Ensures w pos fun d' _ => d'.toModule.Grounded bytes := by
  intro d' next hrun
  obtain ⟨d₀, p, hskip, hrun⟩ := bind_eq_ok_iff.1 hrun
  have h₀ : d₀.toModule.Grounded bytes := skipCustomSections_grounded hw h hskip
  have hnone₀ : d₀.functions = #[] :=
    (congrArg ModuleCore.functions (skipCustomSections_core hskip)).trans hnone
  refine (Ensures.andThen (knownSection_grounded hw h₀ fun v q _ => ?_) fun d₁ q h₁ =>
    foldlM_grounded hw (fun _ hs => hs) h₁) hrun
  simp only [typeSection, ensures_bind, ensures_pure]
  exact ensures_of_forall fun n _ => ensures_of_forall fun types _ =>
    h₀.setTypes hnone₀ types.toArray

end Draft

namespace Module

/-- **Decoded modules are grounded**, and a count of data segments is right. -/
theorem decode_grounded {bytes : ByteArray} {m : Module} (h : decode bytes = .ok m) :
    m.Grounded bytes ∧ ∀ n ∈ m.dataCount, n = m.dataSegments.length := by
  have hw : (Window.ofBytes bytes).Within bytes := ⟨rfl, Nat.le_refl _⟩
  have hinit : (Draft.mk { bytes } 0).toModule.Grounded bytes :=
    ⟨nofun, nofun, nofun, nofun, nofun, .nil, nofun, nofun, nofun⟩
  have hfinish (d : Draft) (pos : Nat) (hd : d.toModule.Grounded bytes) :
      d.finish.Ensures (.ofBytes bytes) pos fun m _ =>
        m.Grounded bytes ∧ ∀ n ∈ m.dataCount, n = m.dataSegments.length := by
    simp only [Draft.finish, Reader.ensures_bind, Reader.ensures_peek?]
    split
    · exact Reader.ensures_malformed
    · simp only [Reader.ensures_ite, Reader.ensures_bind, Reader.ensures_malformed,
        Reader.ensures_pure, implies_true, true_and]
      intro _ hcount
      refine ⟨hd, fun n hn => ?_⟩
      rw [Option.mem_def.1 hn] at hcount
      exact Decidable.not_not.1 hcount
  have hheader : header.Ensures (.ofBytes bytes) 0 fun _ _ => True := Reader.ensures_true header
  have hreader := hheader.andThen
    fun _ pos _ => (Draft.sections_grounded hw hinit rfl).andThen hfinish
  simp only [decode] at h
  split at h
  · next hrun =>
    cases h
    exact hreader hrun
  · cases h

end Module

end WasmEngine
