import WasmEngine.Proofs.Globals.Ledger
import WasmEngine.Proofs.Safety.Visited

/-!
# Proofs/Globals/Declared — globals keep their declared mutability and type

`Store.Traced` are the stores that an embedder gets to, each with all the writes of the code that ran,
and `Store.Passed` adds those in the middle of a run.  In all of them a global that is declared
immutable holds the value of its initialiser; a mutable one holds what was last written to it, and a
global of a 32-bit type has an upper half of zeros (`Store.globals_keep_type`).  This takes imports
that declare at most one result: what a hook answers is checked against the first declared result
only, and a second one may then come from below, at another type (`Store.global_beyond`).
-/

namespace WasmEngine

variable {σ : Type} {loaded : List LoadedModule}

/-- All that runs write, one run after the other. -/
def GlobalWrite.ofRuns (runs : List (Config σ × Nat)) : List GlobalWrite :=
  runs.flatMap fun (c, n) => c.globalWrites n

namespace Store

/-! ## What an embedder does -/

/-- The stores that an embedder gets to, with the modules that have been loaded and the writes to
globals of all instances that there are: it instantiates compiled modules with imports that declare
at most one result, and whoever works on memories keeps them counted in 32 bits. -/
inductive Traced : List LoadedModule → Store σ → List GlobalWrite → Prop where
  | empty (host : σ) : Traced [] { host } []
  | load {ms t log bytes m} (h : Traced ms t log) (hm : Module.compile bytes = .ok m) :
      Traced ((t.load m).1 :: ms) (t.load m).2 log
  | instantiate {ms t log m imports limits budget result t'} (h : Traced ms t log)
      (hm : m ∈ ms) (himports : imports.HaveOneResult) (hobeys : imports.Obeys Memory.StaysSized)
      (hhonest : ∀ inst func, Instance.allocate m imports limits = .ok inst →
        m.module.start = some func → (t.startConfig inst func).IsHonest)
      (hrun : t.instantiate m imports limits budget = some (result, t')) :
      Traced ms t' ((log ++ GlobalWrite.ofRuns (t.startRuns m imports limits budget)).filter
        (·.inst < t'.instances.size))
  | call {ms t log i callee args holds budget result t'} (h : Traced ms t log)
      (hi : i < t.instances.size) (hgenuine : callee.IsGenuine t)
      (hhonest : (t.callConfig i callee args holds).IsHonest)
      (hrun : t.call i callee args holds budget = some (result, t')) :
      Traced ms t' (log ++ GlobalWrite.ofRuns (t.callRuns i callee args holds budget))
  | callStandalone {ms t log f args budget result t'} (h : Traced ms t log)
      (hobeys : ∀ site args, HostM.Obeys Memory.StaysSized (f.body site args))
      (hhonest : (t.standaloneConfig f args).IsHonest)
      (hrun : t.callStandalone f args budget = some (result, t')) :
      Traced ms t' (log ++ GlobalWrite.ofRuns (t.standaloneRuns f args budget))
  | setFuel {ms t log} (i fuel) (h : Traced ms t log) : Traced ms (t.setFuel i fuel) log
  | updateMemory {ms t log α} (i) {op : Memory.Update α} (h : Traced ms t log)
      (hop : op.Obeys Memory.StaysSized) : Traced ms (t.updateMemory? i op).2 log
  | setHost {ms t log} (host : σ) (h : Traced ms t log) : Traced ms { t with host } log

/-- The stores that such operations pass, with all writes so far: between them, and while something
runs. -/
inductive Passed (loaded : List LoadedModule) : Store σ → List GlobalWrite → Prop where
  | between {s log} (h : Traced loaded s log) : Passed loaded s log
  | during {s log c} (h : Traced loaded s log) (hc : s.Opens Memory.StaysSized loaded c)
      (n : Nat) :
      Passed loaded (Config.run n c).store (log ++ c.globalWrites n)

/-! ## What all of them keep -/

/-- **The invariant of a store between operations**, with all writes so far. -/
structure IsKept (loaded : List LoadedModule) (s : Store σ) (log : List GlobalWrite) : Prop where
  compiled : ∀ m ∈ loaded, ∃ bytes, Module.compile bytes = .ok m.module
  isSound : s.outline.IsSound loaded
  obeys : s.Obeys Memory.StaysSized
  isSized : s.IsSized
  accounts : s.Accounts log

theorem IsKept.ofConfig {S : Outline σ} {ts : List ValType} {c : Config σ} {log : List GlobalWrite}
    (hcompiled : ∀ m ∈ loaded, ∃ bytes, Module.compile bytes = .ok m.module)
    (hsound : S.IsSound loaded) (h : c.IsKept S ts log) : c.store.IsKept loaded log :=
  ⟨hcompiled, h.fit.outline_eq ▸ hsound, h.obeys.store, h.isSized, h.accounts⟩

variable {s s' t : Store σ} {c : Config σ} {inst : Instance σ} {log : List GlobalWrite}

/-- What changes neither instances nor globals enters no writes. -/
theorem Accounts.of_eq (h : s.Accounts log) (houtline : s'.outline = s.outline)
    (hglobals : s'.globals = s.globals) : s'.Accounts log :=
  List.append_nil log ▸ h.replay houtline (List.forall_mem_nil _) hglobals

namespace IsKept

/-- **Work that leaves globals alone** keeps the invariant. -/
theorem of_keeps (h : s.IsKept loaded log) (hs : s.Keeps Memory.StaysSized s')
    (houtline : s'.outline = s.outline) (hglobals : s'.globals = s.globals) :
    s'.IsKept loaded log :=
  ⟨h.compiled, houtline ▸ h.isSound, hs.obeys h.obeys, hs.isSized h.isSized,
    h.accounts.of_eq houtline hglobals⟩

theorem acquireAll (h : s.IsKept loaded log) (holds : List Hold) :
    (s.acquireAll holds).2.IsKept loaded log where
  compiled := h.compiled
  isSound := (outline_acquireAll (s := s) holds) ▸ h.isSound
  obeys := h.obeys.acquireAll holds
  isSized := h.isSized.acquireAll holds
  accounts := h.accounts.of_eq (outline_acquireAll holds) (globals_acquireAll holds)

/-! ### New instances -/

/-- **A new instance** holds what its initialisers tell. -/
theorem holdsLast_of_allocate {m : LoadedModule} {imports : Imports σ} {limits : Limits}
    {bytes : ByteArray} {id : InstanceId} (hm : Module.compile bytes = .ok m.module)
    (halloc : Instance.allocate m imports limits = .ok inst) (hlog : ∀ w ∈ log, w.inst ≠ id) :
    ∃ c, inst.HoldsLast id c log := by
  obtain ⟨-, c, hc, hlinks, hinitial⟩ := Instance.exists_isInitial hm halloc
  rw [← hinitial.module_eq.2] at hc hlinks
  refine ⟨c, hc, hlinks.globals, fun index => ?_⟩
  rw [GlobalWrite.lastTo_eq_none hlog, Option.getD_none, ← Array.getElem?_toList, hinitial.globals,
    List.getElem?_map]
  obtain hlt | hge := Nat.lt_or_ge index inst.module.globals.size
  · have hlt' : index < c.globals.length := hc.length_eq ▸ hlt
    rw [List.getElem?_eq_getElem hlt', Array.getElem?_eq_getElem hlt, ConstExpr.valueAt,
      List.getD_eq_getElem _ _ hlt']
    rfl
  · rw [List.getElem?_eq_none (hc.length_eq ▸ hge), Array.getElem?_eq_none hge]
    rfl

theorem push {m : LoadedModule} {imports : Imports σ} {limits : Limits} (h : s.IsKept loaded log)
    (hm : m ∈ loaded) (himports : imports.HaveOneResult)
    (hobeys : imports.Obeys Memory.StaysSized)
    (halloc : Instance.allocate m imports limits = .ok inst) :
    { s with instances := s.instances.push inst }.IsKept loaded log := by
  obtain ⟨bytes, hbytes⟩ := h.compiled m hm
  refine ⟨h.compiled, ?_, h.obeys.push hbytes hobeys halloc, fun i inst' m' hi hm' => ?_,
    fun w hw => ?_, fun i inst' hi => ?_⟩
  · rw [outline_push]
    exact (h.isSound.push_of_allocate hm himports halloc).1
  · obtain ⟨-, rfl⟩ | hi := of_getElem?_push hi
    · obtain ⟨e, -, hwithin⟩ := Instance.isBounded_of_allocate hbytes halloc m' hm'
      exact hwithin.isSized
    · exact h.isSized i inst' m' hi hm'
  · obtain ⟨sh, g, hs, hg⟩ := h.accounts.declared w hw
    refine ⟨sh, g, ?_, hg⟩
    rw [outline_push, Outline.push, Array.getElem?_push,
      if_neg (Nat.ne_of_lt (Array.getElem?_eq_some_iff.1 hs).1)]
    exact hs
  · obtain ⟨rfl, rfl⟩ | hi := of_getElem?_push hi
    · exact holdsLast_of_allocate hbytes halloc fun w hw => Nat.ne_of_lt (h.accounts.inst_lt hw)
    · exact h.accounts.globals i inst' hi

/-- **An instance that is taken back** takes its writes with it. -/
theorem pop {sh : Shape σ} (h : t.IsKept loaded log) (hs : s.outline.IsSound loaded)
    (houtline : t.outline = s.outline.push sh) :
    { t with instances := t.instances.pop }.IsKept loaded
      (log.filter (·.inst < t.instances.pop.size)) := by
  have houtline' := outline_pop houtline
  have hsize : t.instances.pop.size = s.outline.shapes.size := by
    rw [← houtline', outline, shapes, Array.size_map]
  refine ⟨h.compiled, houtline'.symm ▸ hs, h.obeys.pop,
    fun i inst m hi => h.isSized i inst m (of_getElem?_pop hi), fun w hw => ?_, fun i inst hi => ?_⟩
  · obtain ⟨hw, hlt⟩ := List.mem_filter.1 hw
    obtain ⟨sh', g, hsh', hg⟩ := h.accounts.declared w hw
    rw [houtline, Outline.push, Array.getElem?_push,
      if_neg (Nat.ne_of_lt (hsize ▸ of_decide_eq_true hlt))] at hsh'
    exact houtline'.symm ▸ ⟨sh', g, hsh', hg⟩
  · have hlt : i < t.instances.pop.size := (Array.getElem?_eq_some_iff.1 hi).1
    obtain ⟨c, hc, hnone, hglobals⟩ := h.accounts.globals i inst (of_getElem?_pop hi)
    refine ⟨c, hc, hnone, fun index => ?_⟩
    rw [GlobalWrite.lastTo_filter fun w hw => decide_eq_true (hw ▸ hlt)]
    exact hglobals index

/-- No write is forgotten while instances stay. -/
theorem filter_eq (h : s.IsKept loaded log) : log.filter (·.inst < s.instances.size) = log :=
  List.filter_eq_self.2 fun _ hw => decide_eq_true (h.accounts.inst_lt hw)

/-! ### Runs -/

theorem callConfig {i : InstanceId} {callee : Callee} {args : List Value} {holds : List Hold}
    (h : s.IsKept loaded log) (hi : i < s.instances.size) (hgenuine : callee.IsGenuine s) :
    ∃ ts, (s.callConfig i callee args holds).IsKept s.outline ts log := by
  obtain ⟨sh, hs⟩ := exists_shape hi
  obtain ⟨houtline, hyields⟩ := yields_invocation_of_acquireAll args 0 holds rfl hs
    (h.isSound.sound i sh hs) (hgenuine.fits rfl h.isSound hs)
  have hacquire := h.acquireAll holds
  have hkeeps : (s.acquireAll holds).2.Keeps Memory.StaysSized
      (s.callConfig i callee args holds).store :=
    keeps_invocation Memory.isWorkOrder_staysSized hacquire.obeys callee args 0
  have hglobals : (s.callConfig i callee args holds).store.globals = s.globals :=
    (globals_invocation callee args 0).trans (globals_acquireAll holds)
  exact ⟨_, ⟨houtline, _, hyields, .invocation .nil⟩,
    ⟨hkeeps.obeys hacquire.obeys, h.obeys.bindsOnly.callConfig i callee args holds⟩,
    hkeeps.isSized hacquire.isSized, h.accounts.of_eq houtline hglobals⟩

theorem standaloneConfig {f : HostFunc σ} {args : List Value} (h : s.IsKept loaded log)
    (hobeys : ∀ site args, HostM.Obeys Memory.StaysSized (f.body site args)) :
    (s.standaloneConfig f args).IsKept s.outline f.result.toList log where
  fit := ⟨rfl, _, ⟨⟨by cases f.result <;> simp, nofun⟩, rfl⟩, .nil⟩
  obeys := ⟨h.obeys, h.obeys.bindsOnly, hobeys _ _, List.forall_mem_nil _⟩
  isSized := h.isSized
  accounts := h.accounts

theorem startConfig {m : LoadedModule} {imports : Imports σ} {limits : Limits} {func : Nat}
    (h : s.IsKept loaded log) (hm : m ∈ loaded) (himports : imports.HaveOneResult)
    (hobeys : imports.Obeys Memory.StaysSized)
    (halloc : Instance.allocate m imports limits = .ok inst) (hfunc : m.module.start = some func) :
    (s.outline.push inst.shape).IsSound loaded ∧
      (s.startConfig inst func).IsKept (s.outline.push inst.shape) [] log := by
  have hpushed := h.push hm himports hobeys halloc
  obtain ⟨-, hinst, hmodule⟩ := h.isSound.push_of_allocate hm himports halloc
  obtain ⟨callee, hcallee, htype⟩ := exists_startCallee h.isSound hm hinst hmodule hfunc
  have hyields : Control.Yields (s.outline.push inst.shape) callee.type.results
      (s.startConfig inst func).control :=
    yields_callFunction (outline_push s inst) (s.getElem?_push_shape _) hinst hcallee
      (by rw [htype]; exact .nil)
  rw [htype] at hyields
  have hkeeps : { s with instances := s.instances.push inst }.Keeps Memory.StaysSized
      (s.startConfig inst func).store :=
    keeps_callFunction Memory.isWorkOrder_staysSized hpushed.obeys ..
  exact ⟨outline_push s inst ▸ hpushed.isSound,
    ⟨(outline_callFunction ..).trans (outline_push s inst), [], hyields, .nil⟩,
    ⟨hkeeps.obeys hpushed.obeys, hpushed.obeys.bindsOnly.startConfig func⟩,
    hkeeps.isSized hpushed.isSized,
    hpushed.accounts.of_eq (outline_callFunction ..) (globals_callFunction ..)⟩

/-- **Runs enter their writes.** -/
theorem of_opens (h : s.IsKept loaded log) (hc : s.Opens Memory.StaysSized loaded c) (n : Nat) :
    (Config.run n c).store.IsKept loaded (log ++ c.globalWrites n) := by
  cases hc with
  | call hi hgenuine hholds hhonest =>
    obtain ⟨ts, hkept⟩ := h.callConfig hi hgenuine
    exact ofConfig h.compiled h.isSound (hkept.run h.isSound hhonest n)
  | standalone hobeys hhonest =>
    exact ofConfig h.compiled h.isSound ((h.standaloneConfig hobeys).run h.isSound hhonest n)
  | start hm himports hobeys halloc hfunc hhonest =>
    obtain ⟨hsound, hkept⟩ := h.startConfig hm himports hobeys halloc hfunc
    exact ofConfig h.compiled hsound (hkept.run hsound hhonest n)

/-! ### Operations -/

theorem call {i : InstanceId} {callee : Callee} {args : List Value} {holds : List Hold}
    {budget : Nat} {result : Except Error (List Value)} (h : s.IsKept loaded log)
    (hi : i < s.instances.size) (hgenuine : callee.IsGenuine s)
    (hhonest : (s.callConfig i callee args holds).IsHonest)
    (hrun : s.call i callee args holds budget = some (result, t)) :
    t.IsKept loaded (log ++ GlobalWrite.ofRuns (s.callRuns i callee args holds budget)) := by
  unfold callRuns
  cases hholds : (s.acquireAll holds).1 with
  | ok u =>
    obtain ⟨outcome, -, rfl, -⟩ := of_call hholds hrun
    rw [GlobalWrite.ofRuns, List.flatMap_singleton]
    exact h.of_opens (.call hi hgenuine hholds hhonest) budget
  | error e =>
    have heq : s.acquireAll holds = (.error e, (s.acquireAll holds).2) := Prod.ext hholds rfl
    rw [Store.call, heq] at hrun
    cases hrun
    rw [GlobalWrite.ofRuns, List.flatMap_nil, List.append_nil]
    exact h.acquireAll holds

theorem callStandalone {f : HostFunc σ} {args : List Value} {budget : Nat}
    {result : Except Error (Option Value)} (h : s.IsKept loaded log)
    (hobeys : ∀ site args, HostM.Obeys Memory.StaysSized (f.body site args))
    (hhonest : (s.standaloneConfig f args).IsHonest)
    (hrun : s.callStandalone f args budget = some (result, t)) :
    t.IsKept loaded (log ++ GlobalWrite.ofRuns (s.standaloneRuns f args budget)) := by
  unfold Store.callStandalone at hrun
  unfold standaloneRuns
  split at hrun
  · next hargs =>
    obtain ⟨⟨outcome, s₂⟩, hcomplete, hr⟩ := Option.map_eq_some_iff.1 hrun
    obtain ⟨-, rfl⟩ := exists_of_complete hcomplete
    cases hr
    rw [if_pos hargs, GlobalWrite.ofRuns, List.flatMap_singleton]
    exact h.of_opens (.standalone hobeys hhonest) budget
  · next hargs =>
    cases hrun
    rw [if_neg hargs, GlobalWrite.ofRuns, List.flatMap_nil, List.append_nil]
    exact h

/-- **Instantiation adds an instance** that holds what its initialisers tell and its start function
writes, or none. -/
theorem instantiate {m : LoadedModule} {imports : Imports σ} {limits : Limits} {budget : Nat}
    {result : Except Error InstanceId} (h : s.IsKept loaded log) (hm : m ∈ loaded)
    (himports : imports.HaveOneResult) (hobeys : imports.Obeys Memory.StaysSized)
    (hhonest : ∀ inst func, Instance.allocate m imports limits = .ok inst →
      m.module.start = some func → (s.startConfig inst func).IsHonest)
    (hrun : s.instantiate m imports limits budget = some (result, t)) :
    t.IsKept loaded ((log ++ GlobalWrite.ofRuns (s.startRuns m imports limits budget)).filter
      (·.inst < t.instances.size)) := by
  unfold startRuns
  cases halloc : Instance.allocate m imports limits with
  | error e =>
    simp only [Store.instantiate, halloc] at hrun
    cases hrun
    rw [GlobalWrite.ofRuns, List.flatMap_nil, List.append_nil, h.filter_eq]
    exact h
  | ok inst =>
    have hpushed := h.push hm himports hobeys halloc
    cases hfunc : m.module.start with
    | none =>
      simp only [Store.instantiate, halloc, hfunc] at hrun
      cases hrun
      rw [GlobalWrite.ofRuns, List.flatMap_nil, List.append_nil, hpushed.filter_eq]
      exact hpushed
    | some func =>
      rw [GlobalWrite.ofRuns, List.flatMap_singleton]
      have hstart : s.Opens Memory.StaysSized loaded (s.startConfig inst func) :=
        .start hm himports hobeys halloc hfunc (hhonest inst func halloc hfunc)
      have hran := h.of_opens hstart budget
      obtain ⟨outcome, -, ⟨-, -, -, rfl⟩ | ⟨-, -, -, rfl⟩⟩ := of_instantiate halloc hfunc hrun
      · rw [hran.filter_eq]
        exact hran
      · obtain ⟨hsound, hkept⟩ := h.startConfig hm himports hobeys halloc hfunc
        exact hran.pop h.isSound
          (hkept.run hsound (hhonest inst func halloc hfunc) budget).fit.outline_eq

end IsKept

/-- **What an embedder does keeps the invariant.** -/
theorem Traced.isKept (h : Traced loaded s log) : s.IsKept loaded log := by
  induction h with
  | empty host =>
    exact ⟨List.forall_mem_nil _, (Reachable.empty host).outline_sound,
      fun i inst func type ref binding hi => by simp at hi, fun i inst m hi => by simp at hi,
      List.forall_mem_nil _, fun i inst hi => by simp at hi⟩
  | load _ hm ih =>
    exact ⟨List.forall_mem_cons.2 ⟨⟨_, hm⟩, ih.compiled⟩,
      ih.isSound.load (Module.compile_sound hm).2, ih.obeys, ih.isSized,
      ⟨ih.accounts.declared, ih.accounts.globals⟩⟩
  | instantiate _ hm himports hobeys hhonest hrun ih =>
    exact ih.instantiate hm himports hobeys hhonest hrun
  | call _ hi hgenuine hhonest hrun ih => exact ih.call hi hgenuine hhonest hrun
  | callStandalone _ hobeys hhonest hrun ih => exact ih.callStandalone hobeys hhonest hrun
  | setFuel i fuel _ ih =>
    exact ih.of_keeps (keeps_modifyInstance fun _ => rfl) (outline_modifyInstance fun _ => rfl)
      (globals_modifyInstance fun _ => rfl)
  | updateMemory i _ hop ih =>
    exact ih.of_keeps (keeps_updateMemory? hop) (outline_updateMemory? _) (globals_updateMemory? _)
  | setHost host _ ih => exact ih.of_keeps (keeps_of_map rfl) rfl rfl

theorem Passed.isKept (h : Passed loaded s log) : s.IsKept loaded log := by
  cases h with
  | between h => exact h.isKept
  | during h hc n => exact h.isKept.of_opens hc n

/-! ## Globals -/

/-- **Globals keep their declared mutability and type**, if imports declare at most one result.  In
every store that is passed, between operations or in the middle of a run, whatever calls have failed
and however calls are nested: each global holds the last value that code wrote to it, or else what its
initialiser told; one that is declared immutable holds what its initialiser told; and the slot of an
`i32` or `f32` global has an upper half of zeros.  So an embedder that reads an exported global gets a
value of its declared type, which is the one that was stored. -/
theorem globals_keep_type {id : InstanceId} (h : Passed loaded s log)
    (hinst : s.instances[id]? = some inst) :
    ∃ c : Module.Constants, c.AreOf inst.module ∧ inst.globals.size = inst.module.globals.size ∧
      ∀ index g, inst.module.globals[index]? = some g → ∃ v : Slot,
        inst.globals[index]? = some v ∧
        v = (GlobalWrite.lastTo log id index).getD (ConstExpr.valueAt c.globals index).toSlot ∧
        (g.isMutable = false → v = (ConstExpr.valueAt c.globals index).toSlot) ∧
        (g.type = .i32 ∨ g.type = .f32 → v.toNat < 2 ^ 32) ∧
        ∀ name e, inst.module.export? name = some e → e.kind = .global → e.index = index →
          ∃ value, inst.global? name = some value ∧ value.type = g.type ∧ value.toSlot = v := by
  have haccounts := h.isKept.accounts
  obtain ⟨c, hholds⟩ := haccounts.globals id inst hinst
  refine ⟨c, hholds.constants, hholds.size_eq, fun index g hg => ⟨_, ?_, rfl, fun himmutable => ?_,
    fun hnarrow => ?_, fun name e he hkind hindex => ?_⟩⟩
  · rw [hholds.globals, hg, Option.map_some]
  · cases hv : GlobalWrite.lastTo log id index with
    | none => rfl
    | some v =>
      rw [(haccounts.of_lastTo hinst hg hv).1] at himmutable
      cases himmutable
  · have hfits := haccounts.fits hinst hholds hg
    rcases hnarrow with hnarrow | hnarrow <;> rwa [hnarrow] at hfits
  · subst hindex
    refine ⟨_, ?_, Value.type_ofSlot _ g.type, (haccounts.fits hinst hholds hg).toSlot_ofSlot⟩
    have hslot := hholds.globals e.index
    rw [hg, Option.map_some] at hslot
    simp [Instance.global?, he, hkind, hg, hslot]

end Store

/-! ### A sample -/

namespace Module

/-- A module with a global `g`, initially 5, and a function `f` that sets it to 7. -/
def settingBytes : ByteArray :=
  ⟨#[0x00, 0x61, 0x73, 0x6d, 0x01, 0x00, 0x00, 0x00, 0x01, 0x04, 0x01, 0x60, 0x00, 0x00, 0x03, 0x02,
    0x01, 0x00, 0x06, 0x06, 0x01, 0x7f, 0x01, 0x41, 0x05, 0x0b, 0x07, 0x09, 0x02, 0x01, 0x66, 0x00,
    0x00, 0x01, 0x67, 0x03, 0x00, 0x0a, 0x08, 0x01, 0x06, 0x00, 0x41, 0x07, 0x24, 0x00, 0x0b]⟩

/-- What `settingBytes` compile to. -/
def setting : Module :=
  { bytes := settingBytes, types := #[{}]
    functions := #[{ typeIndex := 0, type := {}, locals := [], body := ⟨42, 47⟩ }]
    globals := #[{ type := .i32, isMutable := true, init := 23 }]
    exports := [{ name := "f", kind := .func, index := 0 }, { name := "g", kind := .global, index := 0 }]
    sideTable := some [] }

theorem compile_settingBytes : compile settingBytes = .ok setting := by decide +kernel

end Module

namespace Store

/-- A store with one instance of `Module.setting`. -/
def setting : Store Unit where
  instances :=
    #[{ moduleId := 0, module := .setting, sideTable := [], functions := #[.code {} 42 0]
        limits := {}, globals := #[5], fuel := none }]
  host := ()
  moduleCount := 1

theorem traced_setting : Traced [⟨0, .setting⟩] setting [] := by
  have hrun : { host := (), moduleCount := 1 : Store Unit }.instantiate ⟨0, .setting⟩ {} {} 0 =
      some (.ok 0, setting) := by cbv
  have hruns : { host := (), moduleCount := 1 : Store Unit }.startRuns ⟨0, .setting⟩ {} {} 0 = [] := by
    cbv
  suffices h : Traced [⟨0, .setting⟩] setting (([] ++ GlobalWrite.ofRuns
      ({ host := (), moduleCount := 1 : Store Unit }.startRuns ⟨0, .setting⟩ {} {} 0)).filter
        (·.inst < setting.instances.size)) by
    rwa [hruns] at h
  refine .instantiate (.load (.empty ()) Module.compile_settingBytes) List.mem_cons_self ?_ ?_ ?_ hrun
  · exact fun _ _ hget => by cases hget
  · exact fun _ _ hget => by cases hget
  · exact fun _ _ _ hfunc => by cases hfunc

theorem isHonest_setting : (setting.callConfig 0 (.export "f") [] []).IsHonest := by
  refine Config.isHonest_of_run (k := 4) (by cbv) fun n hn => ?_
  interval_cases n <;> cbv <;> exact fun _ _ h => by cases h

/-- In the middle of a call that has set the global, it holds the value that was written. -/
theorem globals_keep_type_setting : ∃ (inst : Instance Unit) (value : Value),
    (Config.run 2 (setting.callConfig 0 (.export "f") [] [])).store.instances[0]? = some inst ∧
      (setting.callConfig 0 (.export "f") [] []).globalWrites 2 = [⟨0, 0, 7⟩] ∧
      inst.globals[0]? = some 7 ∧ inst.global? "g" = some value ∧ value.type = .i32 ∧
      value.toSlot = 7 := by
  have hopens : setting.Opens Memory.StaysSized [⟨0, .setting⟩]
      (setting.callConfig 0 (.export "f") [] []) :=
    .call (by decide) trivial rfl isHonest_setting
  have hpassed := Passed.during traced_setting hopens 2
  have hwrites : (setting.callConfig 0 (.export "f") [] []).globalWrites 2 = [⟨0, 0, 7⟩] := by cbv
  obtain ⟨inst, hinst, hmodule⟩ : ∃ inst,
      (Config.run 2 (setting.callConfig 0 (.export "f") [] [])).store.instances[0]? = some inst ∧
        inst.module = .setting := ⟨_, by cbv, rfl⟩
  obtain ⟨c, -, -, hglobals⟩ := globals_keep_type hpassed hinst
  rw [hmodule, hwrites] at hglobals
  obtain ⟨v, hv, hlast, -, -, hexport⟩ := hglobals 0 _ rfl
  obtain rfl : v = 7 := hlast
  obtain ⟨value, hvalue, htype, hslot⟩ := hexport "g" _ rfl rfl rfl
  exact ⟨inst, value, hinst, hwrites, hv, hvalue, htype, hslot⟩

end Store

/-! ## A hook whose answer is at another type -/

namespace Module

/-- A module with a global `g` of type `i32`, and a function `f` that calls an import of the results
`i64` and `i32` and sets the global to the second one. -/
def overflowBytes : ByteArray :=
  ⟨#[0x00, 0x61, 0x73, 0x6d, 0x01, 0x00, 0x00, 0x00, 0x01, 0x09, 0x02, 0x60, 0x00, 0x02, 0x7e, 0x7f,
    0x60, 0x00, 0x00, 0x02, 0x07, 0x01, 0x01, 0x61, 0x01, 0x62, 0x00, 0x00, 0x03, 0x02, 0x01, 0x01,
    0x05, 0x03, 0x01, 0x00, 0x00, 0x06, 0x06, 0x01, 0x7f, 0x01, 0x41, 0x00, 0x0b, 0x07, 0x09, 0x02,
    0x01, 0x66, 0x00, 0x01, 0x01, 0x67, 0x03, 0x00, 0x0a, 0x09, 0x01, 0x07, 0x00, 0x10, 0x00, 0x24,
    0x00, 0x0f, 0x0b]⟩

/-- What `overflowBytes` compile to. -/
def overflow : Module :=
  let type : Signature := { params := [], results := [.i64, .i32] }
  { bytes := overflowBytes, types := #[type, {}]
    imports := [{ ref := { module := "a", name := "b" }, kind := .func }]
    functions := #[{ typeIndex := 0, type, imported := some { module := "a", name := "b" } },
      { typeIndex := 1, type := {}, locals := [], body := ⟨61, 67⟩ }]
    memory := some { min := 0, max := none }
    globals := #[{ type := .i32, isMutable := true, init := 42 }]
    exports := [{ name := "f", kind := .func, index := 1 }, { name := "g", kind := .global, index := 0 }]
    sideTable := some [] }

theorem compile_overflowBytes : compile overflowBytes = .ok overflow := by decide +kernel

end Module

/-- A hook that declares an `i64` and an `i32` and answers with the first one only. -/
def MemoryHook.wide : MemoryHook Unit where
  id := 0
  signature := { params := [], results := [.i64, .i32] }
  run _ := pure (some (.i64 0x100000000))

namespace Store

/-- A store with one instance of `Module.overflow`, whose import is bound to `MemoryHook.wide`. -/
def wide : Store Unit where
  instances :=
    #[{ moduleId := 0, module := .overflow, sideTable := []
        functions := #[.imported { params := [], results := [.i64, .i32] }
          { module := "a", name := "b" } (.hook .wide), .code {} 61 0]
        limits := {}, memory := some (Memory.new 0 Memory.maxPages), globals := #[0], fuel := none }]
  host := ()
  moduleCount := 1

/-- **A hook that declares two results may break a global**: its one answer, an `i64`, is taken for
the `i32` that the global is set to, and the value that an embedder reads is not the one that was
stored. -/
theorem global_beyond :
    (∃ imports : Imports Unit, imports.get? { module := "a", name := "b" } = some (.hook .wide) ∧
      ({ host := (), moduleCount := 1 } : Store Unit).instantiate ⟨0, .overflow⟩ imports {} 0 =
        some (.ok 0, wide)) ∧
    Module.compile Module.overflowBytes = .ok .overflow ∧
    ∃ t inst, wide.invoke 0 "f" [] 8 = some (.ok [], t) ∧ t.instances[0]? = some inst ∧
      inst.module.globals[0]?.map (·.type) = some .i32 ∧
      inst.globals[0]? = some 0x100000000 ∧ inst.global? "g" = some (.i32 0) := by
  exact ⟨⟨⟨[({ module := "a", name := "b" }, .hook .wide)]⟩, rfl, by cbv⟩,
    Module.compile_overflowBytes, (wide.setGlobal 0 0 0x100000000).2, _, by cbv, rfl, rfl, rfl, by cbv⟩

end Store

end WasmEngine
