import WasmEngine.Proofs.Nesting.Session

/-!
# Proofs/Nesting/Programs — what all programs of a run have in common

A property of programs is hereditary if what is left of a program has it, whatever its request is
answered.  If the programs in a configuration have such a property, and so have those of all host
functions that are bound in its store, then a run meets no others: `Config.RunsOnly.run`.
-/

namespace WasmEngine

variable {σ α : Type}

/-- A property that what is left of a program keeps, whatever its request is answered. -/
structure HostM.IsHereditary (P : HostM σ α → Prop) : Prop where
  getState : ∀ {k}, P (.getState k) → ∀ s, P (k s)
  setState : ∀ {s k}, P (.setState s k) → P k
  viewMemory : ∀ {k}, P (.viewMemory k) → ∀ m, P (k m)
  updateMemory : ∀ {op k}, P (.updateMemory op k) → ∀ r, P (k r)
  call : ∀ {target callee args holds k}, P (.call target callee args holds k) → ∀ r, P (k r)
  setFuel : ∀ {id fuel k}, P (.setFuel id fuel k) → P k

/-- Whether a program in control has a property. -/
def Control.RunsOnly (P : HostProgram σ → Prop) : Control σ → Prop
  | .host _ program => P program
  | _ => True

/-- Whether a program that waits has a property, whatever it is answered. -/
def Pending.RunsOnly (P : HostProgram σ → Prop) : Pending σ → Prop
  | .host _ _ k => ∀ r, P (k r)
  | _ => True

/-- Whether the programs of all host functions that are bound in a store have a property. -/
def Store.BindsOnly (P : HostProgram σ → Prop) (s : Store σ) : Prop :=
  ∀ (i : InstanceId) (inst : Instance σ) (func : Nat) (type : Signature) (ref : ImportName)
    (f : HostFunc σ), s.instances[i]? = some inst →
    inst.functions[func]? = some (.imported type ref (.func f)) →
    ∀ site args, P (f.body site args)

/-- Whether all programs that a configuration can come to have a property. -/
structure Config.RunsOnly (P : HostProgram σ → Prop) (c : Config σ) : Prop where
  store : c.store.BindsOnly P
  control : c.control.RunsOnly P
  pending : ∀ p ∈ c.pending, p.RunsOnly P

variable {P : HostProgram σ → Prop} {s s' : Store σ} {id : InstanceId} {ps : List (Pending σ)}

namespace Store

/-- The functions of an instance are fixed. -/
theorem isFixed_functions : Instance.IsFixed fun inst : Instance σ => inst.functions :=
  ⟨fun _ => rfl, fun _ _ _ => rfl⟩

theorem BindsOnly.of_map (h : s.BindsOnly P)
    (hs : s'.instances.map (·.functions) = s.instances.map (·.functions)) : s'.BindsOnly P := by
  intro i inst' func type ref f hinst' hf
  have hi := congrArg (·[i]?) hs
  simp only [Array.getElem?_map, hinst', Option.map_some] at hi
  obtain ⟨inst, hinst, hfunctions⟩ := Option.map_eq_some_iff.1 hi.symm
  exact h i inst func type ref f hinst (hfunctions ▸ hf)

theorem BindsOnly.of_cores (h : s.BindsOnly P) (hs : s'.cores = s.cores) : s'.BindsOnly P :=
  h.of_map (map_eq_of_cores isFixed_functions hs)

theorem Entry.control_runsOnly {depth : Nat} {control : Control σ}
    (h : s.Entry id depth (control, s')) (hs : s.BindsOnly P) : control.RunsOnly P := by
  cases h with
  | failed hcores => trivial
  | answered hcores hp => trivial
  | code hinst hroom hd => trivial
  | host args hinst hbound hroom => exact hs _ _ _ _ _ _ hinst hbound _ _

end Store

namespace Config.RunsOnly

theorem turn {r : Run} {t : Transition σ} (h : RunsOnly P ⟨s, .run r, ps⟩) (ht : s.Turn r t) :
    RunsOnly P (ofTransition t ps) := by
  have hstore : t.store.BindsOnly P := h.store.of_map (ht.map_eq Store.isFixed_functions)
  cases ht with
  | fail hs => exact ⟨hstore, trivial, h.pending⟩
  | finish hs hr => exact ⟨hstore, trivial, h.pending⟩
  | stay hs hd => exact ⟨hstore, trivial, h.pending⟩
  | enter hs hinst hroom hd hc => exact ⟨hstore, trivial, h.pending⟩
  | leave hs hr hd => exact ⟨hstore, trivial, h.pending⟩
  | «import» hs hinst himport hd he hc =>
    exact ⟨hstore, he.control_runsOnly (h.store.of_cores hs), List.forall_mem_cons.2
      ⟨trivial, h.pending⟩⟩

theorem serve {call : HostCall} {program : HostProgram σ} (hP : HostM.IsHereditary P)
    (h : RunsOnly P ⟨s, .host call program, ps⟩) :
    RunsOnly P (ofTransition (s.serve call program) ps) := by
  have hstore : (s.serve call program).store.BindsOnly P :=
    h.store.of_map ((s.serve_service call program).map_eq Store.isFixed_functions)
  have hprogram : P program := h.control
  cases program with
  | done outcome => exact ⟨hstore, trivial, h.pending⟩
  | getState k => exact ⟨hstore, hP.getState hprogram _, h.pending⟩
  | setState host k => exact ⟨hstore, hP.setState hprogram, h.pending⟩
  | viewMemory k => exact ⟨hstore, hP.viewMemory hprogram _, h.pending⟩
  | updateMemory op k => exact ⟨hstore, hP.updateMemory hprogram _, h.pending⟩
  | setFuel other fuel k => exact ⟨hstore, hP.setFuel hprogram, h.pending⟩
  | call target callee args holds k =>
    have hk : ∀ r, P (k r) := hP.call hprogram
    simp only [Store.serve] at hstore ⊢
    split at hstore
    · next htarget => exact ⟨hstore, hk _, h.pending⟩
    · next i depth htarget =>
      have hs : (s.acquireAll holds).2.cores = s.cores := Store.cores_acquireAll holds
      split at hstore
      · exact ⟨hstore, trivial, h.pending⟩
      · next s₁ heq =>
        rw [heq] at hs
        have hpending : ∀ p ∈ [Pending.invocation i holds,
            .host call (s₁.invocation i callee args depth).1.2 k] ++ ps, p.RunsOnly P :=
          List.forall_mem_cons.2 ⟨trivial, List.forall_mem_cons.2 ⟨hk, h.pending⟩⟩
        refine ⟨hstore, ?_, hpending⟩
        obtain ⟨e, -, hcontrol, -⟩ | ⟨inst, -, -, he⟩ := s₁.invocation_entry i callee args depth
        · exact hcontrol ▸ trivial
        · exact he.control_runsOnly (h.store.of_cores hs)

theorem deliver {p : Pending σ} {outcome : Except Error (List Slot)}
    (h : RunsOnly P ⟨s, .done outcome, p :: ps⟩) :
    RunsOnly P (ofTransition (s.deliver outcome p) ps) := by
  obtain ⟨hp, hps⟩ := List.forall_mem_cons.1 h.pending
  cases p with
  | run r => cases outcome <;> exact ⟨h.store, trivial, hps⟩
  | host call results k =>
    by_cases hf : Store.IsFault outcome
    · rw [Store.deliver_host_of_fault hf]
      exact ⟨h.store, trivial, hps⟩
    · rw [Store.deliver_host hf]
      exact ⟨h.store, hp _, hps⟩
  | invocation i holds =>
    have hmark : (s.modifyInstance i ({ · with isPoisoned := true })).BindsOnly P :=
      h.store.of_map (Store.map_modifyInstance fun _ => rfl)
    refine ⟨?_, trivial, hps⟩
    cases outcome with
    | ok slots => exact h.store.of_cores (Store.cores_releaseAll holds)
    | error e =>
      simp only [ofTransition, Store.deliver]
      split
      · exact hmark.of_cores (Store.cores_releaseAll holds)
      · exact h.store.of_cores (Store.cores_releaseAll holds)

/-- **A step comes to no other programs.** -/
theorem step {c : Config σ} (hP : HostM.IsHereditary P) (h : c.RunsOnly P) : c.step.RunsOnly P := by
  obtain ⟨s, control, ps⟩ := c
  cases control with
  | run r => exact h.turn (s.dispatch_turn r)
  | host call program => exact h.serve hP
  | done outcome =>
    cases ps with
    | nil => exact h
    | cons p ps => exact h.deliver

theorem run {c : Config σ} (hP : HostM.IsHereditary P) (h : c.RunsOnly P) (n : Nat) :
    (Config.run n c).RunsOnly P :=
  run_induction (P := fun c => c.RunsOnly P) (fun _ => step hP) h n

end Config.RunsOnly

namespace Store

/-! ## Where runs start -/

theorem BindsOnly.callConfig (h : s.BindsOnly P) (id : InstanceId) (callee : Callee)
    (args : List Value) (holds : List Hold) : (s.callConfig id callee args holds).RunsOnly P := by
  obtain ⟨e, s', -, hs, heq⟩ | ⟨s₁, inst, control, s', hs, hinst, -, he, heq⟩ :=
    callConfig_cases s id callee args holds
  · rw [heq]
    exact ⟨h.of_cores hs, trivial, List.forall_mem_singleton.2 trivial⟩
  · rw [heq]
    exact ⟨(h.of_cores hs).of_map (he.map_eq isFixed_functions),
      he.control_runsOnly (h.of_cores hs), List.forall_mem_singleton.2 trivial⟩

theorem BindsOnly.startConfig {inst : Instance σ}
    (h : { s with instances := s.instances.push inst }.BindsOnly P) (func : Nat) :
    (s.startConfig inst func).RunsOnly P := by
  have he := callFunction_entry { s with instances := s.instances.push inst } s.instances.size func
    [] 0
  exact ⟨h.of_map (he.map_eq isFixed_functions), he.control_runsOnly h, List.forall_mem_nil _⟩

end Store

end WasmEngine
