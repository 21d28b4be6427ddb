import Mathlib
import WasmEngine.Embedding
import WasmEngine.Proofs.Decode.Consistent
import WasmEngine.Proofs.Instance.Segments
import WasmEngine.Proofs.Located.Compiled

/-!
# Proofs/Instance/Initial — when instantiation succeeds, and what it builds

Instantiation of a compiled module that has no start function succeeds exactly if `Links` holds: the
imports are bound, the limits allow the declared sizes, and the active segments have room.  What it
builds is then determined by the module and the imports: `IsInitial`.
`Module.instantiate_exact` is the whole statement.
-/

namespace WasmEngine

variable {σ : Type}

/-! ## What is asked for -/

namespace Module

/-- The number of slots of a new table. -/
def tableSize (m : Module) : Nat := (m.table.map (·.min)).getD 0

/-- The number of bytes of a new memory. -/
def memorySize (m : Module) : Nat := (m.memory.map (·.min * Memory.pageSize)).getD 0

/-- What a module asks for before it can be instantiated. -/
structure Links (m : Module) (c : Constants) (imports : Imports σ) (limits : Limits) : Prop where
  /-- Every imported function is bound to something of its signature. -/
  functions : ∀ f ∈ m.functions, ∀ ref, f.imported = some ref →
    ∃ binding, imports.get? ref = some binding ∧ binding.signature = f.type
  table : ∀ e ∈ m.table, e.imported = none ∧ e.min ≤ limits.maxTableElements
  memory : ∀ e ∈ m.memory, e.imported = none ∧ e.min ≤ limits.maxMemoryPages
  globals : ∀ g ∈ m.globals, g.imported = none
  elements : ∀ s ∈ m.elements, ∀ pos, s.mode = .active pos →
    (c.offset pos).toNat + s.funcs.length ≤ m.tableSize
  dataSegments : ∀ s ∈ m.dataSegments, ∀ pos, s.mode = .active pos →
    (c.offset pos).toNat + s.range.length ≤ m.memorySize

/-! ## What is built -/

/-- The entry of a new table. -/
def initialEntry (m : Module) (c : Constants) (slot : Nat) : Option Nat :=
  lastCovering c none (m.elements.map fun s => (s.mode, s.funcs)) slot

/-- The byte of a new memory. -/
def initialByte (m : Module) (c : Constants) (addr : Nat) : UInt8 :=
  lastCovering c 0 (m.dataSegments.map fun s =>
    (s.mode, (m.bytes.extract s.range.start s.range.stop).toList)) addr

/-- What a function of a new instance is: its code, or what its import is bound to. -/
def ResolvesTo (imports : Imports σ) (f : Function) (callee : Callable σ) : Prop :=
  match f.imported with
  | none => callee = .code f.type f.body.start (f.locals.length - f.type.params.length)
  | some ref => ∃ binding, imports.get? ref = some binding ∧ callee = .imported f.type ref binding

/-- The state of a new instance. -/
structure IsInitial (m : LoadedModule) (c : Constants) (imports : Imports σ) (limits : Limits)
    (inst : Instance σ) : Prop where
  module_eq : inst.moduleId = m.id ∧ inst.module = m.module
  sideTable : m.module.sideTable = some inst.sideTable
  functions : List.Forall₂ (ResolvesTo imports) m.module.functions.toList inst.functions.toList
  size_table : inst.table.size = m.module.tableSize
  table : ∀ slot < m.module.tableSize, inst.table[slot]? = some (m.module.initialEntry c slot)
  globals : inst.globals.toList = c.globals.map Value.toSlot
  memory_isSome : inst.memory.isSome = m.module.memory.isSome
  memory : ∀ e ∈ m.module.memory, ∀ memory ∈ inst.memory,
    memory.pages = e.min ∧ memory.size = m.module.memorySize ∧
      memory.maximum = min (min (e.max.getD Memory.maxPages) limits.maxMemoryPages)
        Memory.maxPages ∧
      ∀ addr < m.module.memorySize, memory.data[addr]? = some (m.module.initialByte c addr)
  limits : inst.limits = limits ∧ inst.fuel = limits.fuel
  idle : inst.loan = .shared 0 ∧ inst.isPoisoned = false ∧ inst.hostDepth = 0 ∧
    inst.reentryDepth = 0

end Module

/-! ## Parts -/

namespace Instance

open WasmEngine.Module

variable {m : Module} {c : Constants} {imports : Imports σ} {limits : Limits}

theorem resolve_eq_ok_iff {f : Function} {callee : Callable σ} :
    resolve imports f = .ok callee ↔
      (∀ ref, f.imported = some ref →
        ∃ binding, imports.get? ref = some binding ∧ binding.signature = f.type) ∧
      ResolvesTo imports f callee := by
  unfold resolve ResolvesTo
  cases f.imported with
  | none => simp [eq_comm]
  | some ref =>
    cases hget : imports.get? ref with
    | none => simp [hget]
    | some binding =>
      by_cases hsig : binding.signature = f.type
      · simp [hget, hsig, eq_comm]
      · simp [hget, hsig]

theorem exists_resolve {f : Function} (h : ∀ ref, f.imported = some ref →
    ∃ binding, imports.get? ref = some binding ∧ binding.signature = f.type) :
    ∃ callee, resolve imports f = .ok callee := by
  cases himported : f.imported with
  | none => exact ⟨_, by rw [resolve, himported]⟩
  | some ref =>
    obtain ⟨binding, hget, hsig⟩ := h ref himported
    exact ⟨.imported f.type ref binding, by simp only [resolve, himported, hget, if_pos hsig]⟩

theorem mapM_resolve_eq_ok_iff {functions : Array Function} {callables : Array (Callable σ)} :
    functions.mapM (resolve imports) = .ok callables ↔
      (∀ f ∈ functions, ∀ ref, f.imported = some ref →
        ∃ binding, imports.get? ref = some binding ∧ binding.signature = f.type) ∧
      List.Forall₂ (ResolvesTo imports) functions.toList callables.toList := by
  rw [Array.mapM_eq_mapM_toList, Except.map_eq_ok_iff]
  simp only [Except.mapM_eq_ok_iff, resolve_eq_ok_iff, List.forall₂_and_left, Array.mem_toList_iff]
  constructor
  · rintro ⟨callees, h, rfl⟩
    exact h
  · exact fun h => ⟨callables.toList, h, rfl⟩

theorem newTable_eq_ok_iff {e : Extent} {table : Array (Option Nat)} :
    newTable limits e = .ok table ↔
      (e.imported = none ∧ e.min ≤ limits.maxTableElements) ∧ table = Array.replicate e.min none := by
  unfold newTable
  cases e.imported with
  | some ref => simp
  | none =>
    by_cases hle : e.min ≤ limits.maxTableElements
    · simp [hle, Nat.not_lt.2 hle, eq_comm]
    · simp [hle, Nat.lt_of_not_le hle]

theorem newMemory_eq_ok_iff {e : Extent} {memory : Memory} :
    newMemory limits e = .ok memory ↔ (e.imported = none ∧ e.min ≤ limits.maxMemoryPages) ∧
      memory = .new e.min (min (e.max.getD Memory.maxPages) limits.maxMemoryPages) := by
  unfold newMemory
  cases e.imported with
  | some ref => simp
  | none =>
    by_cases hle : e.min ≤ limits.maxMemoryPages
    · simp [hle, Nat.not_lt.2 hle, eq_comm]
    · simp [hle, Nat.lt_of_not_le hle]

/-- A traversal of what may be absent. -/
theorem mapM_eq_ok_iff {α β : Type} {f : α → Except Error β} {P : α → Prop} {g : α → β}
    (h : ∀ a b, f a = .ok b ↔ P a ∧ b = g a) {a? : Option α} {b? : Option β} :
    a?.mapM f = .ok b? ↔ (∀ a ∈ a?, P a) ∧ b? = a?.map g := by
  cases a? with
  | none =>
    constructor
    · intro hb
      cases hb
      exact ⟨nofun, rfl⟩
    · rintro ⟨-, rfl⟩
      rfl
  | some a =>
    change (some <$> f a) = .ok b? ↔ _
    simp only [Except.map_eq_ok_iff, h, Option.mem_some_iff, forall_eq', Option.map_some]
    constructor
    · rintro ⟨_, ⟨hP, rfl⟩, rfl⟩
      exact ⟨hP, rfl⟩
    · rintro ⟨hP, rfl⟩
      exact ⟨_, ⟨hP, rfl⟩, rfl⟩

/-! ## The whole -/

section Whole

variable {id : Nat} {sideTable : SideTable} {inst : Instance σ}

/-- The memory of a new instance before segments are copied. -/
abbrev emptyMemory (limits : Limits) (e : Extent) : Memory :=
  .new e.min (min (e.max.getD Memory.maxPages) limits.maxMemoryPages)

theorem size_emptyMemory (limits : Limits) (e : Extent) :
    (emptyMemory limits e).size = e.min * Memory.pageSize := (Memory.IsPaged.new ..).size

theorem map_size_emptyMemory (m : Module) (limits : Limits) :
    ((m.memory.map (emptyMemory limits)).map Memory.size).getD 0 = m.memorySize := by
  rw [Option.map_map, Module.memorySize]
  exact congrArg (fun f => (m.memory.map f).getD 0) (funext (size_emptyMemory limits))

theorem getD_table (m : Module) :
    (m.table.map fun e => Array.replicate e.min (none : Option Nat)).getD #[] =
      Array.replicate m.tableSize none := by
  rw [Module.tableSize]
  cases m.table <;> rfl

/-- **What instantiation goes through**, with the constants of the module. -/
theorem allocate_eq_ok_iff (hst : m.sideTable = some sideTable) (hc : c.AreOf m) :
    allocate ⟨id, m⟩ imports limits = .ok inst ↔ m.Links c imports limits ∧
      ∃ callables memory,
        List.Forall₂ (ResolvesTo imports) m.functions.toList callables ∧
        (m.memory.map (emptyMemory limits)).mapM
          (fun memory => m.dataSegments.foldlM (writeSegment c m.bytes) memory) = .ok memory ∧
        inst = {
          moduleId := id, module := m, sideTable, functions := callables.toArray
          table := m.elements.foldl (setSegment c) (Array.replicate m.tableSize none)
          limits, memory, globals := c.slots m.globals.size, fuel := limits.fuel } := by
  simp only [allocate, hst, Except.bind_eq_ok_iff]
  constructor
  · rintro ⟨callables, hcallables, memory, hmemory, table, htable, slots, hslots, elements,
      helements, data, hdata, memory', hmemory', hinst⟩
    obtain ⟨hbound, hresolved⟩ := mapM_resolve_eq_ok_iff.1 hcallables
    obtain ⟨hmem, rfl⟩ := (mapM_eq_ok_iff fun _ _ => newMemory_eq_ok_iff).1 hmemory
    obtain ⟨htab, rfl⟩ := (mapM_eq_ok_iff fun _ _ => newTable_eq_ok_iff).1 htable
    have hnone : ∀ g ∈ m.globals, g.imported = none := by
      rw [← Array.foldlM_toList] at hslots
      exact fun g hg => imported_eq_none_of_pushGlobals hslots g (Array.mem_toList_iff.2 hg)
    obtain rfl := Except.ok.inj ((globals_eq hc hnone).symm.trans hslots)
    obtain ⟨rfl, helem⟩ := (mapM_place_eq_ok_iff fun s hs pos hpos =>
      constant_offset hc hnone (hc.elements s hs pos hpos)).1 helements
    obtain ⟨rfl, hdat⟩ := (mapM_place_eq_ok_iff fun s hs pos hpos =>
      constant_offset hc hnone (hc.dataSegments s hs pos hpos)).1 hdata
    rw [getD_table, Array.size_replicate] at helem
    rw [map_size_emptyMemory] at hdat
    refine ⟨⟨hbound, htab, hmem, hnone, helem, hdat⟩, callables.toList, memory', hresolved, ?_, ?_⟩
    · simp only [List.foldlM_map] at hmemory'
      exact hmemory'
    · rw [getD_table, List.foldl_map] at hinst
      exact (Except.ok.inj hinst).symm
  · rintro ⟨⟨hbound, htab, hmem, hnone, helem, hdat⟩, callables, memory, hresolved, hmemory, rfl⟩
    refine ⟨callables.toArray, mapM_resolve_eq_ok_iff.2 ⟨hbound, hresolved⟩,
      _, (mapM_eq_ok_iff fun _ _ => newMemory_eq_ok_iff).2 ⟨hmem, rfl⟩,
      _, (mapM_eq_ok_iff fun _ _ => newTable_eq_ok_iff).2 ⟨htab, rfl⟩,
      _, globals_eq hc hnone,
      _, (mapM_place_eq_ok_iff fun s hs pos hpos =>
        constant_offset hc hnone (hc.elements s hs pos hpos)).2 ⟨rfl, ?_⟩,
      _, (mapM_place_eq_ok_iff fun s hs pos hpos =>
        constant_offset hc hnone (hc.dataSegments s hs pos hpos)).2 ⟨rfl, ?_⟩,
      memory, ?_, ?_⟩
    · rw [getD_table, Array.size_replicate]
      exact helem
    · rw [map_size_emptyMemory]
      exact hdat
    · simp only [List.foldlM_map]
      exact hmemory
    · rw [getD_table, List.foldl_map]
      rfl

/-- **Memory is created and its segments are copied** without fail. -/
theorem exists_memory (hm : m.Grounded m.bytes) (hlinks : m.Links c imports limits) :
    ∃ memory?, (m.memory.map (emptyMemory limits)).mapM
        (fun memory => m.dataSegments.foldlM (writeSegment c m.bytes) memory) = .ok memory? ∧
      memory?.isSome = m.memory.isSome ∧
      ∀ e ∈ m.memory, ∀ memory ∈ memory?,
        memory.pages = e.min ∧ memory.size = m.memorySize ∧
          memory.maximum = min (min (e.max.getD Memory.maxPages) limits.maxMemoryPages)
            Memory.maxPages ∧
          ∀ addr < m.memorySize, memory.data[addr]? = some (m.initialByte c addr) := by
  cases hmemory : m.memory with
  | none => exact ⟨none, rfl, rfl, nofun⟩
  | some e =>
    have hsize := size_emptyMemory limits e
    have hmemorySize : m.memorySize = e.min * Memory.pageSize := by
      rw [memorySize, hmemory]
      rfl
    have hzero (i : Nat) (hi : i < (emptyMemory limits e).size) :
        (emptyMemory limits e).data[i]? = some 0 := by
      have hget := getElem?_pos (emptyMemory limits e).data i hi
      have hgetD : (emptyMemory limits e).data[i]?.getD 0 = 0 := Memory.getD_addPages .empty e.min i
      rw [hget, Option.getD_some] at hgetD
      rw [hget, hgetD]
    have hmin : e.min ≤ 65536 := (hm.memory e hmemory).2.1
    obtain ⟨data, hfold, hdata, hbytes⟩ := exists_writeSegments (c := c) hzero
      (by rw [hsize]; change e.min * 65536 < 2 ^ 63; omega) (fun s hs => (hm.dataSegments s hs).1)
      (fun s hs pos hpos => by
        rw [hsize, ← hmemorySize]
        exact hlinks.dataSegments s hs pos hpos)
    refine ⟨some { emptyMemory limits e with data }, Except.map_eq_ok_iff.2 ⟨_, hfold, rfl⟩, rfl, ?_⟩
    rintro _ ⟨⟩ _ ⟨⟩
    rw [hmemorySize, ← hsize]
    exact ⟨rfl, hdata, rfl, hbytes⟩

/-- **An instance of a module that links is built, and is as declared.** -/
theorem exists_allocate (hst : m.sideTable = some sideTable) (hm : m.Grounded m.bytes)
    (hc : c.AreOf m) (hlinks : m.Links c imports limits) :
    ∃ inst, allocate ⟨id, m⟩ imports limits = .ok inst ∧
      IsInitial ⟨id, m⟩ c imports limits inst := by
  have hresolve (f : Function) (hf : f ∈ m.functions.toList) :
      ∃ callee, resolve imports f = .ok callee :=
    exists_resolve (hlinks.functions f (Array.mem_toList_iff.1 hf))
  obtain ⟨callables, hcallables⟩ := Except.exists_mapM_iff.2 hresolve
  have hresolved : List.Forall₂ (ResolvesTo imports) m.functions.toList callables :=
    (Except.forall₂_of_mapM hcallables).imp fun _ _ h => (resolve_eq_ok_iff.1 h).2
  obtain ⟨memory, hmemory, hsome, hbytes⟩ := exists_memory hm hlinks
  obtain ⟨hsize, hslots⟩ := getElem?_setSegments (c := c) m.tableSize m.elements
  refine ⟨_, (allocate_eq_ok_iff hst hc).2 ⟨hlinks, callables, memory, hresolved, hmemory, rfl⟩, ?_⟩
  exact {
    module_eq := ⟨rfl, rfl⟩
    sideTable := hst
    functions := hresolved
    size_table := hsize
    table := hslots
    globals := by
      rw [Module.Constants.slots, ← hc.length_eq, List.take_length, List.toList_toArray]
    memory_isSome := hsome
    memory := hbytes
    limits := ⟨rfl, rfl⟩
    idle := ⟨rfl, rfl, rfl, rfl⟩ }

end Whole

end Instance

/-! ## Instantiation -/

namespace Module

/-- A compiled module is grounded like the decoded one. -/
theorem grounded_of_compile {bytes : ByteArray} {m : Module} (h : compile bytes = .ok m) :
    m.Grounded m.bytes ∧ ∃ table, m.sideTable = some table := by
  obtain ⟨d, hd, hvalidate⟩ := compile_eq_ok_iff.1 h
  obtain ⟨-, rfl, hnone⟩ := decode_sound hd
  obtain ⟨table, -, -, rfl⟩ := (validate_eq_ok_iff hnone).1 hvalidate
  exact ⟨{ (decode_grounded hd).1 with }, table, rfl⟩

/-- **Instantiation succeeds exactly when it should and builds exactly the declared state.**  The
constant expressions of a compiled module have values; with these, whatever the store and the
imports, an instance is made if and only if the module links, and it is the initial one. -/
theorem instantiate_exact {bytes : ByteArray} {m : LoadedModule}
    (h : compile bytes = .ok m.module) (hstart : m.module.start = none) :
    (∃ c : Constants, c.AreOf m.module) ∧ ∀ c : Constants, c.AreOf m.module →
      ∀ (s : Store σ) (imports : Imports σ) (limits : Limits) (budget : Nat),
        ((∃ id s', s.instantiate m imports limits budget = some (.ok id, s')) ↔
          m.module.Links c imports limits) ∧
        ∀ id s', s.instantiate m imports limits budget = some (.ok id, s') →
          ∃ inst, id = s.instances.size ∧
            s' = { s with instances := s.instances.push inst } ∧
            IsInitial m c imports limits inst := by
  obtain ⟨hm, table, hst⟩ := grounded_of_compile h
  refine ⟨hm.exists_constants, fun c hc s imports limits budget => ?_⟩
  obtain ⟨mid, module⟩ := m
  replace hstart : module.start = none := hstart
  have hinstantiate (id : InstanceId) (s' : Store σ) :
      s.instantiate ⟨mid, module⟩ imports limits budget = some (.ok id, s') ↔
        ∃ inst, Instance.allocate ⟨mid, module⟩ imports limits = .ok inst ∧
          id = s.instances.size ∧ s' = { s with instances := s.instances.push inst } := by
    rw [Store.instantiate]
    cases Instance.allocate ⟨mid, module⟩ imports limits with
    | error e => simp
    | ok inst => simp [hstart, eq_comm]
  have hlinks (inst : Instance σ) (hinst : Instance.allocate ⟨mid, module⟩ imports limits = .ok inst) :
      module.Links c imports limits := ((Instance.allocate_eq_ok_iff hst hc).1 hinst).1
  simp only [hinstantiate]
  constructor
  · constructor
    · rintro ⟨_, _, inst, hinst, -, -⟩
      exact hlinks inst hinst
    · intro hl
      obtain ⟨inst, hinst, -⟩ := Instance.exists_allocate hst hm hc hl
      exact ⟨_, _, inst, hinst, rfl, rfl⟩
  · rintro _ _ ⟨inst, hinst, rfl, rfl⟩
    obtain ⟨inst', hinst', hinitial⟩ := Instance.exists_allocate hst hm hc (hlinks inst hinst)
    obtain rfl := Except.ok.inj (hinst.symm.trans hinst')
    exact ⟨inst, rfl, rfl, hinitial⟩

/-! ## The populated module -/

/-- What `populatedBytes` compile to. -/
def compiledPopulated : Module := { populated with sideTable := some [] }

theorem compile_populatedBytes : compile populatedBytes = .ok compiledPopulated := by
  rw [compile, decode_populatedBytes]
  decide +kernel

/-- A binding of the one import of the populated module. -/
def populatedImports : Imports Unit :=
  ⟨[(⟨"m", "f"⟩, .func { params := [], result := none, body := fun _ _ => pure none })]⟩

/-- The offsets of its segments are those written in the module: `global.get 0`, `0` and `1`. -/
theorem offset_populated {c : Constants} (hc : c.AreOf compiledPopulated) :
    c.offset 65 = 2 ∧ c.offset 83 = 0 ∧ c.offset 90 = 1 := by
  have hnone : ∀ g ∈ compiledPopulated.globals, g.imported = none := by decide
  have hglobals : compiledPopulated.globals.foldlM (Instance.pushGlobal compiledPopulated) #[] =
      .ok #[2, 3] := by decide +kernel
  have hslots : c.slots compiledPopulated.globals.size = #[2, 3] :=
    Except.ok.inj ((Instance.globals_eq hc hnone).symm.trans hglobals)
  have hoffset {pos : Nat} {v : UInt32}
      (hgives : c.Gives populatedBytes compiledPopulated.globals pos .i32 (.i32 (c.offset pos)))
      (hv : Instance.constant compiledPopulated #[2, 3] pos = .ok v.toUInt64) : c.offset pos = v := by
    have h := Instance.constant_offset hc hnone hgives
    rw [hslots, hv] at h
    exact UInt32.toUInt64_inj.1 (Except.ok.inj h).symm
  exact ⟨hoffset (hc.elements ⟨.active 65, [some 1]⟩ (.head _) 65 rfl) (by decide +kernel),
    hoffset (hc.dataSegments ⟨.active 83, ⟨87, 89⟩⟩ (.head _) 83 rfl) (by decide +kernel),
    hoffset (hc.dataSegments ⟨.active 90, ⟨94, 95⟩⟩ (.tail _ (.head _)) 90 rfl)
      (by decide +kernel)⟩

theorem links_populated {c : Constants} (hc : c.AreOf compiledPopulated) :
    compiledPopulated.Links c populatedImports {} := by
  obtain ⟨h₁, h₂, h₃⟩ := offset_populated hc
  exact {
    functions := by
      intro f hf ref href
      simp only [compiledPopulated, populated, List.mem_toArray, List.mem_cons, List.not_mem_nil,
        or_false] at hf
      rcases hf with rfl | rfl
      · cases href
        exact ⟨_, rfl, rfl⟩
      · cases href
    table := by rintro _ ⟨⟩; decide
    memory := by rintro _ ⟨⟩; decide
    globals := by decide
    elements := by
      intro s hs pos hpos
      simp only [compiledPopulated, populated, List.mem_singleton] at hs
      subst hs
      cases hpos
      rw [h₁]
      decide
    dataSegments := by
      intro s hs pos hpos
      simp only [compiledPopulated, populated, List.mem_cons, List.not_mem_nil, or_false] at hs
      rcases hs with rfl | rfl
      · cases hpos
        rw [h₂]
        decide
      · cases hpos
        rw [h₃]
        decide }

/-- The populated module is instantiated in any store, with its import bound to a function of its type. -/
theorem instantiate_populated :
    ∃ c : Constants, c.AreOf compiledPopulated ∧ ∀ (s : Store Unit) (budget : Nat), ∃ id s',
      s.instantiate ⟨0, compiledPopulated⟩ populatedImports {} budget = some (.ok id, s') := by
  obtain ⟨⟨c, hc⟩, hexact⟩ := instantiate_exact (m := ⟨0, compiledPopulated⟩) compile_populatedBytes rfl
  exact ⟨c, hc, fun s budget => (hexact c hc s populatedImports {} budget).1.2 (links_populated hc)⟩

end Module

end WasmEngine
