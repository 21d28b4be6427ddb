import WasmEngine.Proofs.Safety.Soundness
import WasmEngine.Proofs.Structured.Backward

/-!
# Proofs/Structured/Refinement — the machine refines structured code

`Structured.callFunction_refines`: a call of a function of a module without imports ends with an
outcome other than a stack overflow exactly if the call of the structured function does, with the
same outcome, globals and memory, once the limits leave room for it.
-/

namespace WasmEngine

variable {σ : Type}

/-! ## Instances without imports -/

/-- An instance of a module without imports in any state that its code may start from: nothing bounds
the number of instructions, and the memory is not lent. -/
structure Instance.IsStateOf (inst : Instance σ) (m : Module) : Prop where
  module_eq : inst.module = m
  sideTable_eq : m.sideTable = some inst.sideTable
  functions : ∀ (i : Nat) (f : Function), m.functions[i]? = some f → inst.functions[i]? =
    some (.code f.type f.body.start (f.locals.length - f.type.params.length))
  table : ∀ slot func : Nat, inst.table[slot]? = some (some func) → func < m.functions.size
  globals : inst.globals.size = m.globals.size
  memory : inst.memory.isSome = m.memory.isSome
  fuel_eq : inst.fuel = none
  loan_eq : inst.loan = .shared 0

/-- **New instances** are in such a state. -/
theorem Instance.isStateOf_of_allocate {m : LoadedModule} {imports : Imports σ} {limits : Limits}
    {inst : Instance σ} (hm : ∃ table, m.module.IsCompiled table) (himports : m.module.imports = [])
    (hone : imports.HaveOneResult) (hfuel : limits.fuel = none)
    (h : allocate m imports limits = .ok inst) : inst.IsStateOf m.module := by
  obtain ⟨hsound, -, hmodule, hfuel', hloan⟩ := allocate_sound hm hone h
  obtain ⟨moduleId, module⟩ := m
  obtain rfl : inst.module = module := hmodule
  exact {
    module_eq := rfl
    sideTable_eq := hsound.compiled.sideTable_eq
    functions := fun i f hf => by
      obtain ⟨callee, hc, himpl⟩ := hsound.exists_callable hf
      rw [show inst.functions[i]? = some callee from hc]
      cases himpl with
      | code _ hdeclared => rw [← hdeclared, Nat.add_sub_cancel_left]
      | imported himported _ =>
        rw [hsound.compiled.sound.imported_eq_none himports hf] at himported
        cases himported
    table := fun slot func hslot =>
      Nat.lt_of_lt_of_eq (hsound.table slot func hslot) hsound.size_eq
    globals := hsound.globals
    memory := hsound.memory
    fuel_eq := hfuel'.trans hfuel
    loan_eq := hloan }

namespace Store

/-- The store with other limits for an instance. -/
def withLimits (s : Store σ) (id : InstanceId) (limits : Limits) : Store σ :=
  s.modifyInstance id ({ · with limits })

theorem getElem?_withLimits {s : Store σ} {id : InstanceId} {inst : Instance σ}
    (h : s.instances[id]? = some inst) (limits : Limits) :
    (s.withLimits id limits).instances[id]? = some { inst with limits } := by
  rw [withLimits, getElem?_modifyInstance, if_pos rfl, h]
  rfl

/-- The configuration in which a function of an instance is called on a stack of its own. -/
def calling (s : Store σ) (id : InstanceId) (func : Nat) (args : List Slot) (depth : Nat) :
    Config σ :=
  let (control, s) := s.callFunction id func args depth
  { store := s, control }

/-- The configuration in which such a call has ended. -/
def called (s : Store σ) (id : InstanceId) (result : Except Trap (List Slot))
    (globals : Array Slot) (memory : Option Memory) : Config σ where
  store := s.modifyInstance id ({ · with globals, memory })
  control := .done (result.mapError .trap)

end Store

namespace Structured

variable {m : Module} {p : Program} {s : Store σ} {id : InstanceId} {inst : Instance σ}
  {table : SideTable} {func : Nat} {f : Function} {g : Func} {depth : Nat} {args : List Slot}

/-! ## The program of a module -/

/-- **A compiled module without imports has a program**, whatever its table holds. -/
theorem exists_program (hm : m.IsCompiled table) (himports : m.imports = [])
    (entries : Array (Option Nat)) : ∃ p : Program, p.IsOf m ∧ p.table = entries := by
  have hcode (i : Fin m.functions.size) : ∃ code : Code,
      code.EncodesBody (m.bytes.extract m.functions[i].body.start m.functions[i].body.stop).toList := by
    have hf : m.functions[i.1]? = some m.functions[i] := Array.getElem?_eq_getElem i.2
    obtain ⟨code, stop, h⟩ := hm.hasCode i _ hf (hm.sound.imported_eq_none himports hf)
    exact ⟨code, h.encodes⟩
  choose code hcode using hcode
  let functions := Array.ofFn fun i : Fin m.functions.size =>
    (⟨m.functions[i].type, m.functions[i].locals.length - m.functions[i].type.params.length,
      code i⟩ : Func)
  have hget {i : Nat} {f : Function} {g : Func} (hf : m.functions[i]? = some f)
      (hg : functions[i]? = some g) : g.type = f.type ∧
        g.declared = f.locals.length - f.type.params.length ∧
        g.code.EncodesBody (m.bytes.extract f.body.start f.body.stop).toList := by
    obtain ⟨hi, rfl⟩ := Array.getElem?_eq_some_iff.1 hf
    obtain ⟨hi', rfl⟩ := Array.getElem?_eq_some_iff.1 hg
    rw [Array.getElem_ofFn]
    exact ⟨rfl, rfl, hcode ⟨i, hi⟩⟩
  exact ⟨⟨m.types, functions, entries⟩, ⟨rfl, Array.size_ofFn, fun i f g hf hg => (hget hf hg).1,
    fun i f g hf hg => (hget hf hg).2.1, fun i f g hf hg => (hget hf hg).2.2⟩, rfl⟩

/-! ## The start of a call -/

theorem holding_eq (hinst : s.instances[id]? = some inst) (globals : Array Slot)
    (memory : Option Memory) :
    Machine.holding ⟨s, id, inst⟩ globals memory =
      s.modifyInstance id ({ · with globals, memory }) := by
  rw [Store.modifyInstance, Store.withInstance_eq, hinst]
  rfl

theorem Setting.of_isStateOf (hm : m.IsCompiled table) (himports : m.imports = [])
    (hp : p.IsOf m) (hstate : inst.IsStateOf m) (htable : p.table = inst.table) :
    Setting inst.module inst.sideTable p := by
  obtain rfl := hstate.module_eq
  obtain rfl := Option.some.inj (hm.sideTable_eq.symm.trans hstate.sideTable_eq)
  exact ⟨hm, fun _ _ hf => hm.sound.imported_eq_none himports hf, hp,
    fun slot func hslot => hstate.table slot func (htable ▸ hslot)⟩

theorem loads_of_isStateOf (hp : Setting inst.module inst.sideTable p)
    (hinst : s.instances[id]? = some inst) (hstate : inst.IsStateOf m)
    (htable : p.table = inst.table) : Machine.Loads ⟨s, id, inst⟩ p where
  present := (Array.getElem?_eq_some_iff.1 hinst).1
  types_eq := hp.program.types_eq.symm
  table_eq := htable.symm
  fuel_eq := hstate.fuel_eq
  loan_eq := hstate.loan_eq
  entry i g hg := by
    obtain ⟨f, hf, hof⟩ := hp.exists_function hg
    obtain ⟨stop, hcode⟩ := hof.hasCode
    obtain ⟨next, hend⟩ := hcode.ends
    refine ⟨f, _, stop, next, ?_, hcode.lies, hend⟩
    rw [hstate.functions i f (hstate.module_eq ▸ hf), hof.type_eq,
      hp.program.declared_eq i f g hf hg]

theorem holding_self (hinst : s.instances[id]? = some inst) :
    Machine.holding ⟨s, id, inst⟩ inst.globals inst.memory = s := by
  obtain ⟨hlt, rfl⟩ := Array.getElem?_eq_some_iff.1 hinst
  have hset : s.instances.setIfInBounds id s.instances[id] = s.instances := by
    rw [Array.setIfInBounds, dif_pos hlt, Array.set_getElem_self]
  exact congrArg (fun instances => { s with instances }) hset

/-- The activation of a function on a stack of its own. -/
def Activation.root (g : Func) (depth : Nat) : Activation where
  labels := []
  resultCount := g.type.results.length
  base := 0
  depth := depth + 1
  callers := []

/-- What a function starts from. -/
def Conf.start (inst : Instance σ) (g : Func) (args : List Slot) : Conf :=
  Conf.enter ⟨#[], [], inst.globals, inst.memory⟩ g args.reverse

theorem calling_eq_of_code (hinst : s.instances[id]? = some inst) {type : Signature}
    {entry declared : Nat} (hfunc : inst.functions[func]? = some (.code type entry declared)) :
    s.calling id func args depth =
      match Frame.new inst.limits type entry declared args 0 depth with
      | .ok frame => { store := s, control := .run ⟨id, frame, []⟩ }
      | .error e => { store := s, control := .done (.error e) } := by
  simp only [Store.calling, Store.callFunction, hinst, hfunc]
  cases Frame.new inst.limits type entry declared args 0 depth <;> rfl

/-- **A call starts the function**, or the stack overflows. -/
theorem calling_eq (hinst : s.instances[id]? = some inst) {entry : Nat}
    (hfunc : inst.functions[func]? = some (.code g.type entry g.declared)) :
    let M : Machine σ := ⟨s, id, inst⟩
    M.Admits (.root g depth) args g ∧
      s.calling id func args depth = M.running (.root g depth) entry [] (.start inst g args) ∨
    ¬M.Admits (.root g depth) args g ∧
      s.calling id func args depth = M.finished (.start inst g args) stackOverflow := by
  have hself := holding_self hinst
  have hover : Machine.finished ⟨s, id, inst⟩ (.start inst g args) stackOverflow =
      { store := s, control := .done stackOverflow } :=
    congrArg (Config.mk · (.done stackOverflow) []) hself
  rw [calling_eq_of_code hinst hfunc, Frame.new]
  by_cases hdepth : inst.limits.maxCallDepth ≤ depth
  · rw [if_pos hdepth]
    exact .inr ⟨fun h => absurd h.1 (Nat.not_le.2 (Nat.lt_succ_of_le hdepth)), hover.symm⟩
  · rw [if_neg hdepth]
    by_cases hsize : inst.limits.maxValueStack < 0 + args.length + g.declared
    · rw [if_pos hsize]
      exact .inr ⟨fun h => absurd h.2 (Nat.not_le.2 hsize), hover.symm⟩
    · rw [if_neg hsize]
      refine .inl ⟨⟨Nat.not_le.1 hdepth, Nat.not_lt.1 hsize⟩, ?_⟩
      simp only [Machine.running, Activation.frame, Conf.start, Conf.enter, List.reverse_reverse,
        Activation.root, hself]
      rfl

/-! ## The end of a call -/

variable {e : Exit} {z : Conf} {result : Except Trap (List Slot)} {globals : Array Slot}
  {memory : Option Memory}

/-- How the code of a function of `n` results is left if the call yields `result`. -/
def Exit.Yields (e : Exit) (n : Nat) (result : Except Trap (List Slot)) (z : Conf) : Prop :=
  (∃ values, e.returned? n = some (values, z) ∧ result = .ok values.reverse) ∨
    ∃ t, e = .trap t z ∧ result = .error t

theorem Exit.Yields.calls (h : e.Yields g.type.results.length result z)
    (hg : p.functions[func]? = some g) (hargs : args.length = g.type.params.length)
    (he : p.Exec g.code (.start inst g args) e) :
    p.Calls func args inst.globals inst.memory result z.globals z.memory := by
  obtain ⟨values, hret, rfl⟩ | ⟨t, rfl, rfl⟩ := h
  · exact .returned hg hargs he hret
  · exact .trapped hg hargs he

theorem exists_of_calls {globals' : Array Slot} {memory' : Option Memory}
    (hg : p.functions[func]? = some g)
    (h : p.Calls func args inst.globals inst.memory result globals' memory') :
    ∃ e z, p.Exec g.code (.start inst g args) e ∧ e.Yields g.type.results.length result z ∧
      z.globals = globals' ∧ z.memory = memory' := by
  cases h with
  | returned hf _ hbody hret =>
    obtain rfl := Option.some.inj (hg.symm.trans hf)
    exact ⟨_, _, hbody, .inl ⟨_, hret, rfl⟩, rfl, rfl⟩
  | trapped hf _ hbody =>
    obtain rfl := Option.some.inj (hg.symm.trans hf)
    exact ⟨_, _, hbody, .inr ⟨_, rfl, rfl⟩, rfl, rfl⟩

/-- The end of the code is the end of the call. -/
theorem Exit.Yields.exists_lands {M : Machine σ} (h : e.Yields g.type.results.length result z)
    (hM : M.Loads p) {stop next : Nat}
    (hend : Instr.fetch M.inst.module.bytes M.inst.sideTable stop = some (.endMark, next)) :
    ∃ c, M.Lands (.root g depth) stop [] e c ∧ c.Reaches (M.finished z (result.mapError .trap)) := by
  obtain ⟨values, hret, rfl⟩ | ⟨t, rfl, rfl⟩ := h
  · obtain ⟨hvalues, c, hlands, hleft⟩ :=
      hM.reaches_left (a := .root g depth) rfl hend hret
    refine ⟨c, hlands, ?_⟩
    rw [hvalues]
    exact hleft
  · exact ⟨_, .trap, .refl _⟩

theorem Exit.Fits.exists_yields {f : Function}
    (h : e.Fits ⟨m, f⟩ [f.type.results] f.type.results.length) :
    ∃ result z, e.Yields f.type.results.length result z := by
  obtain ⟨values, z, hret⟩ | ⟨t, z, rfl⟩ := h.returned_or_trap
  · exact ⟨_, z, .inl ⟨values, hret, rfl⟩⟩
  · exact ⟨_, z, .inr ⟨t, rfl, rfl⟩⟩

theorem finished_eq (hinst : s.instances[id]? = some inst) :
    Machine.finished ⟨s, id, inst⟩ z (result.mapError .trap) =
      s.called id result z.globals z.memory :=
  congrArg (Config.mk · (.done (result.mapError .trap)) []) (holding_eq hinst z.globals z.memory)

/-! ## The refinement -/

theorem exists_entry (hp : Setting inst.module inst.sideTable p) (hstate : inst.IsStateOf m)
    (hf : m.functions[func]? = some f) :
    ∃ g stop next, p.functions[func]? = some g ∧ g.type = f.type ∧
      inst.functions[func]? = some (.code g.type f.body.start g.declared) ∧
      CodeContext.HasCode ⟨inst.module, f⟩ inst.sideTable g.code stop ∧
      Instr.fetch inst.module.bytes inst.sideTable stop = some (.endMark, next) := by
  obtain ⟨g, hg, hof⟩ := hp.exists_func (hstate.module_eq ▸ hf)
  obtain ⟨stop, hcode⟩ := hof.hasCode
  obtain ⟨next, hend⟩ := hcode.ends
  refine ⟨g, stop, next, hg, hof.type_eq, ?_, hcode, hend⟩
  rw [hstate.functions func f hf, hof.type_eq,
    hp.program.declared_eq func f g (hstate.module_eq ▸ hf) hg]

theorem Conf.fits_start (hp : Setting inst.module inst.sideTable p) (hstate : inst.IsStateOf m)
    (hf : m.functions[func]? = some f) (hg : p.functions[func]? = some g)
    (hargs : args.length = f.type.params.length) :
    (Conf.start inst g args).Fits ⟨inst.module, f⟩ 0 := by
  obtain ⟨g', hg', hof⟩ := hp.exists_func (hstate.module_eq ▸ hf)
  obtain rfl := Option.some.inj (hg.symm.trans hg')
  refine hof.fits_enter ?_ ?_ ?_
  · exact hstate.module_eq ▸ hstate.globals
  · exact hstate.module_eq ▸ hstate.memory
  · rw [List.length_reverse, hargs, hof.type_eq]

/-- **What a call comes to, the structured call comes to.** -/
theorem exists_calls_of_run (hp : Setting inst.module inst.sideTable p)
    (hinst : s.instances[id]? = some inst) (hstate : inst.IsStateOf m)
    (htable : p.table = inst.table) (hf : m.functions[func]? = some f)
    (hargs : args.length = f.type.params.length) {budget : Nat}
    (hends : Ends budget (s.calling id func args depth)) :
    ∃ result globals memory, p.Calls func args inst.globals inst.memory result globals memory ∧
      Config.run budget (s.calling id func args depth) = s.called id result globals memory := by
  obtain ⟨g, stop, next, hg, htype, hfunc, hcode, hend⟩ := exists_entry hp hstate hf
  have hM := loads_of_isStateOf hp hinst hstate htable
  obtain ⟨-, heq⟩ | ⟨-, heq⟩ := calling_eq hinst hfunc
  · rw [heq] at hends ⊢
    have hx := Conf.fits_start hp hstate hf hg hargs
    obtain ⟨e, he⟩ := hM.leaves hp budget _ _ _ _ _ _ _ _ _
      ⟨⟨f, stop, hcode.lies⟩, hcode.typed, hx, ⟨⟨[], rfl, .nil⟩, congrArg (·.results.length) htype⟩⟩
      hends
    have hfit := he.fits hp hcode.typed hx
    rw [List.length_map] at hfit
    obtain ⟨result, z, hyields⟩ := hfit.exists_yields
    replace hyields : e.Yields g.type.results.length result z := htype ▸ hyields
    obtain ⟨n, harrives⟩ := he.arrives (σ := σ)
    obtain ⟨c, hlands, hreaches⟩ := hyields.exists_lands hM hend
    have hreach := (hends.reaches_of_arrives (harrives _ f _ _ _ _ _ hM hcode.lies hlands)).trans
      hreaches
    refine ⟨result, z.globals, z.memory, hyields.calls hg (htype ▸ hargs) he, ?_⟩
    obtain ⟨outcome, hrun, -⟩ := hends
    rw [← hreach.run_eq (by rw [hrun]; rfl), Config.run_of_isSome rfl, finished_eq hinst]
  · rw [heq] at hends
    exact absurd hends Ends.not_overflow

/-- **What a structured call comes to, a call with room enough comes to.** -/
theorem exists_run_of_calls (hp : Setting inst.module inst.sideTable p)
    (hinst : s.instances[id]? = some inst) (hstate : inst.IsStateOf m)
    (htable : p.table = inst.table) (hf : m.functions[func]? = some f)
    (h : p.Calls func args inst.globals inst.memory result globals memory) :
    ∃ room, ∀ limits : Limits, depth + room ≤ limits.maxCallDepth →
      room ≤ limits.maxValueStack →
      ∃ budget, Config.run budget ((s.withLimits id limits).calling id func args depth) =
        (s.withLimits id limits).called id result globals memory := by
  obtain ⟨g, stop, next, hg, htype, hfunc, hcode, hend⟩ := exists_entry hp hstate hf
  obtain ⟨e, z, he, hyields, rfl, rfl⟩ := exists_of_calls hg h
  obtain ⟨n, harrives⟩ := he.arrives (σ := σ)
  refine ⟨n + args.length + g.declared + 1, fun limits hdepth hsize => ?_⟩
  have hinst' := Store.getElem?_withLimits hinst limits
  have hstate' : Instance.IsStateOf { inst with limits } m := { hstate with }
  have hM : Machine.Loads ⟨_, id, { inst with limits }⟩ p :=
    loads_of_isStateOf hp hinst' hstate' htable
  have hadmits : Machine.Admits ⟨s.withLimits id limits, id, { inst with limits }⟩ (.root g depth)
      args g := by
    constructor
    · show depth + 1 ≤ limits.maxCallDepth
      omega
    · show 0 + args.length + g.declared ≤ limits.maxValueStack
      omega
  obtain ⟨-, heq⟩ | ⟨hno, -⟩ := calling_eq hinst' hfunc
  · obtain ⟨c, hlands, hreaches⟩ := hyields.exists_lands hM hend
    obtain hreach | ⟨hno, -⟩ := harrives _ f _ _ _ _ _ hM hcode.lies hlands
    · rw [heq, ← finished_eq hinst']
      exact hreach.trans hreaches
    · refine absurd ⟨?_, ?_⟩ hno
      · show depth + 1 + n ≤ limits.maxCallDepth
        omega
      · show 0 + 0 + n ≤ limits.maxValueStack
        omega
  · exact absurd hadmits hno

/-- **A call of a function does what the structured call does**: whatever a call comes to within any
limits, other than a stack overflow, the structured call comes to as well, with the same globals and
memory; and whatever the structured call comes to, the call does within limits that are large
enough. -/
theorem callFunction_refines {bytes : ByteArray} {args : List Value}
    (hm : Module.compile bytes = .ok m) (himports : m.imports = []) (hp : p.IsOf m)
    (hinst : s.instances[id]? = some inst) (hstate : inst.IsStateOf m)
    (htable : p.table = inst.table) (hf : m.functions[func]? = some f)
    (hargs : Value.HaveTypes args f.type.params) (depth : Nat) :
    let slots := args.map Value.toSlot
    (∀ budget outcome,
      (Config.run budget (s.calling id func slots depth)).outcome? = some outcome →
      outcome ≠ stackOverflow →
      ∃ result globals memory, p.Calls func slots inst.globals inst.memory result globals memory ∧
        Config.run budget (s.calling id func slots depth) = s.called id result globals memory) ∧
    ∀ result globals memory, p.Calls func slots inst.globals inst.memory result globals memory →
      ∃ room, ∀ limits : Limits, depth + room ≤ limits.maxCallDepth →
        room ≤ limits.maxValueStack →
        ∃ budget, Config.run budget ((s.withLimits id limits).calling id func slots depth) =
          (s.withLimits id limits).called id result globals memory := by
  obtain ⟨-, table, hcompiled⟩ := Module.compile_sound hm
  have hsetting := Setting.of_isStateOf hcompiled himports hp hstate htable
  have hlen : (args.map Value.toSlot).length = f.type.params.length := by
    rw [← hargs, List.length_map, List.length_map]
  exact ⟨fun _ outcome hrun hne =>
      exists_calls_of_run hsetting hinst hstate htable hf hlen ⟨outcome, hrun, hne⟩,
    fun _ _ _ h => exists_run_of_calls hsetting hinst hstate htable hf h⟩

/-! ## A sample -/

/-- The program of `Module.compiledSample`. -/
def sampleProgram : Program where
  types := #[{ params := [.i32], results := [.i32] }]
  functions :=
    #[{ type := { params := [.i32], results := [.i32] }, declared := 0
        code := .plain (.localGet 0) <| .ifElse (.value .i32) (.plain (.const (.i32 7)) .nil)
          (.plain .unreachable .nil) .nil }]
  table := #[]

theorem encodesBody_sample : Code.EncodesBody
    (.plain (.localGet 0) <| .ifElse (.value .i32) (.plain (.const (.i32 7)) .nil)
      (.plain .unreachable .nil) .nil)
    (Module.sampleBytes.extract 32 42).toList := by
  have hget : (Instr.localGet 0 : Instr BlockType).Encodes [0x20, 0x00] :=
    .localGet ⟨Leb128.isGroups_singleton.2 (by decide), by decide, rfl, by decide⟩
  have hconst : (Instr.const (.i32 7) : Instr BlockType).Encodes [0x41, 0x07] :=
    .constI32 ⟨Leb128.isGroups_singleton.2 (by decide), by decide, by decide, by decide, by decide⟩
  exact ⟨_, .plain trivial hget (.ifElse (.ifThen (.value .i32)) (.plain trivial hconst .nil)
    (.plain trivial .unreachable .nil) .nil), by decide +kernel⟩

theorem isOf_sample : sampleProgram.IsOf .compiledSample := by
  have hone {f : Function} {g : Func} {i : Nat} (hf : Module.compiledSample.functions[i]? = some f)
      (hg : sampleProgram.functions[i]? = some g) :
      f = ⟨0, ⟨[.i32], [.i32]⟩, [.i32], ⟨32, 42⟩, none⟩ ∧ sampleProgram.functions[0]? = some g := by
    obtain _ | i := i
    · exact ⟨(Option.some.inj hf).symm, hg⟩
    · cases hf
  refine ⟨rfl, rfl, fun i f g hf hg => ?_, fun i f g hf hg => ?_, fun i f g hf hg => ?_⟩
  · obtain ⟨rfl, hg⟩ := hone hf hg
    cases hg
    rfl
  · obtain ⟨rfl, hg⟩ := hone hf hg
    cases hg
    rfl
  · obtain ⟨rfl, hg⟩ := hone hf hg
    cases hg
    exact encodesBody_sample

theorem isStateOf_sample :
    ∃ inst, Store.sample.instances[0]? = some inst ∧ inst.IsStateOf .compiledSample ∧
      sampleProgram.table = inst.table := by
  refine ⟨_, rfl, ?_, rfl⟩
  exact {
    module_eq := rfl
    sideTable_eq := rfl
    functions := fun i f hf => by
      obtain _ | i := i
      · cases hf
        rfl
      · cases hf
    table := fun slot func h => by cases h
    globals := rfl
    memory := rfl
    fuel_eq := rfl
    loan_eq := rfl }

/-- The sample takes its first branch in both semantics, to the same store. -/
theorem callFunction_sample :
    ∃ result globals memory, sampleProgram.Calls 0 [1] #[] none result globals memory ∧
      Config.run 6 (Store.sample.calling 0 0 [1] 0) = Store.sample.called 0 result globals memory := by
  obtain ⟨inst, hinst, hstate, htable⟩ := isStateOf_sample
  have hf : Module.compiledSample.functions[0]? =
      some ⟨0, ⟨[.i32], [.i32]⟩, [.i32], ⟨32, 42⟩, none⟩ := rfl
  have hargs : Value.HaveTypes [.i32 1] [.i32] := rfl
  have hrun : (Config.run 6 (Store.sample.calling 0 0 [1] 0)).outcome? = some (.ok [7]) := by cbv
  obtain rfl : _ = inst := Option.some.inj hinst
  exact (callFunction_refines Module.compile_sampleBytes rfl isOf_sample hinst hstate htable hf
    hargs 0).1 6 _ hrun (fun h => by cases h)

end Structured

end WasmEngine
