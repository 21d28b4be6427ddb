import WasmEngine.Embedding
import WasmEngine.Proofs.Safety.Allocate
import WasmEngine.Proofs.Safety.Step

/-!
# Proofs/Safety/Reachable — compiled code does not go wrong

`Store.Reachable` are the stores that an embedder gets to: it loads compiled modules, instantiates
them, calls functions, and changes memory, budgets and its own state in between.  In all of them
instances are sound, and a call comes to results of the declared types or to an error of execution,
unless host functions answered with another error (`Store.Reachable.invoke_sound`).
-/

namespace WasmEngine

variable {σ : Type} {E : Error → Prop} {S : Outline σ} {loaded : List LoadedModule}

/-! ## Runs -/

namespace Config

/-- Every request that host functions make in a run is one that they can make. -/
def IsHonest (c : Config σ) : Prop := ∀ n, (run n c).Allows

/-- **A run keeps the invariant.** -/
theorem IsSound.run {c : Config σ} {k n : Nat} (h : c.IsSound E S k) (hE : AllowsRuntime E)
    (hsound : S.IsSound loaded) (hhonest : c.IsHonest)
    (hhost : ∀ m < n, ∀ e, (Config.run m c).HostAnswers e → E e) :
    (Config.run n c).IsSound E S k := by
  induction n with
  | zero => exact h
  | succ n ih =>
    have hn := ih fun m hm => hhost m (Nat.lt_succ_of_lt hm)
    rw [run_add n 1, Config.run]
    split
    · exact hn
    · exact hn.step hE hsound (hhonest n) (hhost n (Nat.lt_succ_self n))

/-- What has come out of a sound configuration. -/
theorem IsSound.of_outcome {c : Config σ} {n : Nat} {outcome : Except Error (List Slot)}
    (h : c.IsSound E S n) (ho : c.outcome? = some outcome) :
    Control.IsSound E S n (.done outcome : Control σ) := by
  obtain ⟨store, control, pending⟩ := c
  obtain ⟨-, k, hk, hp⟩ := h
  unfold outcome? at ho
  split at ho
  · next hc hpending =>
    cases ho
    obtain rfl : control = .done outcome := hc
    obtain rfl : pending = [] := hpending
    cases hp
    exact hk
  · cases ho

end Config

/-! ## Outlines -/

namespace Outline

/-- The outline with one more instance. -/
def push (S : Outline σ) (sh : Shape σ) : Outline σ := { S with shapes := S.shapes.push sh }

theorem IsSound.push {sh : Shape σ} (h : S.IsSound loaded)
    (hm : ⟨sh.moduleId, sh.module⟩ ∈ loaded) (hsh : sh.IsSound) : (S.push sh).IsSound loaded where
  compiled := h.compiled
  distinct := h.distinct
  modules id sh' hs := by
    rw [Outline.push, Array.getElem?_push] at hs
    split at hs
    · cases hs
      exact hm
    · exact h.modules id sh' hs
  sound id sh' hs := by
    rw [Outline.push, Array.getElem?_push] at hs
    split at hs
    · cases hs
      exact hsh
    · exact h.sound id sh' hs

/-- **A new instance of a loaded module may join.** -/
theorem IsSound.push_of_allocate {m : LoadedModule} {imports : Imports σ} {limits : Limits}
    {inst : Instance σ} (h : S.IsSound loaded) (hm : m ∈ loaded) (himports : imports.HaveOneResult)
    (halloc : Instance.allocate m imports limits = .ok inst) :
    (S.push inst.shape).IsSound loaded ∧ inst.shape.IsSound ∧ inst.module = m.module := by
  obtain ⟨hinst, hid, hmodule, -⟩ := Instance.allocate_sound (h.compiled m hm).2 himports halloc
  refine ⟨h.push ?_ hinst, hinst, hmodule⟩
  rw [show inst.shape.moduleId = m.id from hid, show inst.shape.module = m.module from hmodule]
  exact hm

/-- **A module that is loaded gets a number of its own.** -/
theorem IsSound.load {m : Module} (h : S.IsSound loaded) (hm : ∃ table, m.IsCompiled table) :
    Outline.IsSound (⟨S.moduleCount, m⟩ :: loaded) ⟨S.shapes, S.moduleCount + 1⟩ where
  compiled := List.forall_mem_cons.2 ⟨⟨Nat.lt_succ_self _, hm⟩, fun m' hm' =>
    (h.compiled m' hm').imp_left Nat.lt_succ_of_lt⟩
  distinct m₁ h₁ m₂ h₂ heq := by
    obtain rfl | h₁ := List.mem_cons.1 h₁ <;> obtain rfl | h₂ := List.mem_cons.1 h₂
    · rfl
    · exact absurd heq (Nat.ne_of_gt (h.compiled m₂ h₂).1)
    · exact absurd heq (Nat.ne_of_lt (h.compiled m₁ h₁).1)
    · exact h.distinct m₁ h₁ m₂ h₂ heq
  modules id sh hs := List.mem_cons_of_mem _ (h.modules id sh hs)
  sound := h.sound

end Outline

namespace Store

variable {s s' : Store σ} {id : InstanceId}

theorem outline_push (s : Store σ) (inst : Instance σ) :
    { s with instances := s.instances.push inst }.outline = s.outline.push inst.shape :=
  congrArg (Outline.mk · s.moduleCount) Array.map_push

theorem outline_pop {sh : Shape σ} (h : s'.outline = s.outline.push sh) :
    { s' with instances := s'.instances.pop }.outline = s.outline := by
  obtain ⟨hshapes, hcount⟩ := Outline.mk.inj h
  refine congrArg₂ Outline.mk ?_ hcount
  rw [shapes, Array.map_pop]
  exact (congrArg Array.pop hshapes).trans Array.pop_push

theorem exists_of_complete {control : Control σ} {pending : List (Pending σ)} {budget : Nat}
    {outcome : Except Error (List Slot)}
    (h : s.complete control pending budget = some (outcome, s')) :
    (Config.run budget ⟨s, control, pending⟩).outcome? = some outcome ∧
      (Config.run budget ⟨s, control, pending⟩).store = s' := by
  obtain ⟨o, ho, heq⟩ := Option.map_eq_some_iff.1 h
  cases heq
  exact ⟨ho, rfl⟩

/-! ## Calls -/

/-- The configuration in which a call starts, when everything it holds has been borrowed. -/
def callConfig (s : Store σ) (id : InstanceId) (callee : Callee) (args : List Value)
    (holds : List Hold) : Config σ :=
  let ((control, _), s) := (s.acquireAll holds).2.invocation id callee args 0
  { store := s, control, pending := [.invocation id holds] }

/-- During the first steps of a call, a host function or a hook answers with an error. -/
def HostAnswersIn (s : Store σ) (id : InstanceId) (callee : Callee) (args : List Value)
    (holds : List Hold) (steps : Nat) (e : Error) : Prop :=
  (s.HookAnswers e (s.callConfig id callee args holds).store ∧
      (s.callConfig id callee args holds).control = .done (.error e)) ∨
    ∃ m < steps, (Config.run m (s.callConfig id callee args holds)).HostAnswers e

theorem callConfig_sound {callee : Callee} {args : List Value} {holds : List Hold}
    (hE : AllowsRuntime E) (hsound : s.outline.IsSound loaded) (hid : id < s.instances.size)
    (hgenuine : callee.IsGenuine s) (hholds : (s.acquireAll holds).1 = .ok ())
    (hhook : ∀ e, s.HookAnswers e (s.callConfig id callee args holds).store →
      (s.callConfig id callee args holds).control = .done (.error e) → E e) :
    (s.callConfig id callee args holds).IsSound E s.outline
      ((s.acquireAll holds).2.invocation id callee args 0).1.2.length := by
  obtain ⟨sh, hs⟩ := exists_shape hid
  obtain ⟨houtline, hcontrol⟩ := invocation_sound_of_acquireAll hE rfl hs (hsound.sound id sh hs)
    (hgenuine.fits rfl hsound hs) (Prod.ext hholds rfl) hhook
  exact ⟨houtline, _, hcontrol, .invocation .nil⟩

/-- A call that borrows what it holds is a run. -/
theorem of_call {callee : Callee} {args : List Value} {holds : List Hold} {budget : Nat}
    {result : Except Error (List Value)} (hholds : (s.acquireAll holds).1 = .ok ())
    (h : s.call id callee args holds budget = some (result, s')) :
    ∃ outcome, (Config.run budget (s.callConfig id callee args holds)).outcome? = some outcome ∧
      (Config.run budget (s.callConfig id callee args holds)).store = s' ∧
      result = outcome.map
        (Value.ofSlots · ((s.acquireAll holds).2.invocation id callee args 0).1.2) := by
  unfold call at h
  split at h
  · next heq =>
    rw [heq] at hholds
    cases hholds
  · next s₁ heq =>
    simp only [callConfig, heq]
    generalize s₁.invocation id callee args 0 = start at h ⊢
    obtain ⟨⟨control, results⟩, s₂⟩ := start
    obtain ⟨⟨outcome, s₃⟩, hc, hr⟩ := Option.map_eq_some_iff.1 h
    obtain ⟨hout, rfl⟩ := exists_of_complete hc
    cases hr
    exact ⟨outcome, hout, rfl, rfl⟩

/-- **A call leaves instances what they are.** -/
theorem outline_of_call {callee : Callee} {args : List Value} {holds : List Hold} {budget : Nat}
    {result : Except Error (List Value)} (hsound : s.outline.IsSound loaded)
    (hid : id < s.instances.size) (hgenuine : callee.IsGenuine s)
    (hhonest : (s.callConfig id callee args holds).IsHonest)
    (h : s.call id callee args holds budget = some (result, s')) : s'.outline = s.outline := by
  cases hholds : (s.acquireAll holds).1 with
  | error e =>
    unfold call at h
    split at h
    · next heq =>
      cases h
      exact (congrArg (fun x => x.2.outline) heq).symm.trans (outline_acquireAll holds)
    · next heq =>
      rw [heq] at hholds
      cases hholds
  | ok u =>
    obtain ⟨outcome, -, rfl, -⟩ := of_call hholds h
    have hc : (s.callConfig id callee args holds).IsSound (fun _ => True) s.outline _ :=
      callConfig_sound (fun _ _ => trivial) hsound hid hgenuine hholds fun _ _ _ => trivial
    exact (hc.run (fun _ _ => trivial) hsound hhonest fun _ _ _ _ => trivial).outline_eq

/-! ## New instances -/

/-- The configuration in which the start function of a new instance starts. -/
def startConfig (s : Store σ) (inst : Instance σ) (func : Nat) : Config σ :=
  let (control, s) :=
    { s with instances := s.instances.push inst }.callFunction s.instances.size func [] 0
  { store := s, control }

/-- **Start functions** take nothing and yield nothing. -/
theorem exists_startCallee {m : LoadedModule} {inst : Instance σ} {func : Nat}
    (hsound : s.outline.IsSound loaded) (hm : m ∈ loaded) (hinst : inst.shape.IsSound)
    (hmodule : inst.module = m.module) (hfunc : m.module.start = some func) :
    ∃ callee, inst.shape.functions[func]? = some callee ∧ callee.type = {} := by
  obtain ⟨table, hc⟩ := (hsound.compiled m hm).2
  have hlt := hc.sound.start func hfunc
  have htype : (m.module.functions[func]).type = {} :=
    hc.hasValidStart _ (by rw [hfunc]; exact Array.getElem?_eq_getElem hlt)
  have hf : inst.module.functions[func]? = some m.module.functions[func] := by
    rw [hmodule]
    exact Array.getElem?_eq_getElem hlt
  obtain ⟨callee, hcallee, himp⟩ := hinst.exists_callable hf
  exact ⟨callee, hcallee, himp.type_eq.trans htype⟩

theorem getElem?_push_shape (s : Store σ) (sh : Shape σ) :
    (s.outline.push sh).shapes[s.instances.size]? = some sh := by
  rw [Outline.push, Array.getElem?_push, if_pos]
  exact Array.size_map.symm

/-- **A start function can be called at once.** -/
theorem startConfig_sound {m : LoadedModule} {inst : Instance σ} {func : Nat}
    (hsound : s.outline.IsSound loaded) (hm : m ∈ loaded) (hinst : inst.shape.IsSound)
    (hmodule : inst.module = m.module) (hfunc : m.module.start = some func) :
    (s.startConfig inst func).IsSound (fun _ => True) (s.outline.push inst.shape) 0 := by
  obtain ⟨callee, hcallee, htype⟩ := exists_startCallee hsound hm hinst hmodule hfunc
  have hparams : callee.type.params.length = 0 := by rw [htype]; rfl
  have hresults : callee.type.results.length = 0 := by rw [htype]; rfl
  refine ⟨(outline_callFunction ..).trans (outline_push s inst), 0, ?_, .nil⟩
  rw [← hresults]
  exact callFunction_sound (fun _ _ => trivial) (outline_push s inst) (s.getElem?_push_shape _) hinst
    hcallee hparams.symm fun _ _ _ => trivial

/-- **Instantiation adds a sound instance**, or none. -/
theorem isSound_of_instantiate {m : LoadedModule} {imports : Imports σ} {limits : Limits}
    {budget : Nat} {result : Except Error InstanceId} (hsound : s.outline.IsSound loaded)
    (hm : m ∈ loaded) (himports : imports.HaveOneResult)
    (hhonest : ∀ inst func, Instance.allocate m imports limits = .ok inst →
      m.module.start = some func → (s.startConfig inst func).IsHonest)
    (h : s.instantiate m imports limits budget = some (result, s')) :
    s'.outline.IsSound loaded := by
  unfold instantiate at h
  cases halloc : Instance.allocate m imports limits with
  | error e =>
    rw [halloc] at h
    cases h
    exact hsound
  | ok inst =>
    obtain ⟨hpush, hinst, hmodule⟩ := hsound.push_of_allocate hm himports halloc
    simp only [halloc] at h
    cases hfunc : m.module.start with
    | none =>
      rw [hfunc] at h
      cases h
      exact outline_push s inst ▸ hpush
    | some func =>
      simp only [hfunc] at h
      have hrun := (startConfig_sound hsound hm hinst hmodule hfunc).run (n := budget)
        (fun _ _ => trivial) hpush (hhonest inst func halloc hfunc) fun _ _ _ _ => trivial
      obtain ⟨⟨outcome, s₂⟩, hcomplete, hr⟩ := Option.map_eq_some_iff.1 h
      obtain ⟨-, rfl⟩ := exists_of_complete hcomplete
      cases outcome with
      | ok results =>
        cases hr
        exact hrun.outline_eq ▸ hpush
      | error e =>
        cases hr
        exact outline_pop hrun.outline_eq ▸ hsound

/-! ## Host functions outside of instances -/

/-- The configuration in which a host function starts outside of any instance. -/
def standaloneConfig (s : Store σ) (f : HostFunc σ) (args : List Value) : Config σ where
  store := s
  control := .host { caller := none, depth := 0, results := f.result.toList }
    (f.body { depth := 0, isStandalone := true } args)

theorem standaloneConfig_sound (s : Store σ) (f : HostFunc σ) (args : List Value) :
    (s.standaloneConfig f args).IsSound (fun _ => True) s.outline f.result.toList.length :=
  ⟨rfl, _, ⟨⟨by cases f.result <;> simp, nofun⟩, rfl⟩, .nil⟩

theorem outline_of_callStandalone {f : HostFunc σ} {args : List Value} {budget : Nat}
    {result : Except Error (Option Value)} (hsound : s.outline.IsSound loaded)
    (hhonest : (s.standaloneConfig f args).IsHonest)
    (h : s.callStandalone f args budget = some (result, s')) : s'.outline = s.outline := by
  unfold callStandalone at h
  split at h
  · obtain ⟨⟨outcome, s₂⟩, hcomplete, hr⟩ := Option.map_eq_some_iff.1 h
    obtain ⟨-, rfl⟩ := exists_of_complete hcomplete
    cases hr
    exact ((s.standaloneConfig_sound f args).run (fun _ _ => trivial) hsound hhonest
      fun _ _ _ _ => trivial).outline_eq
  · cases h
    rfl

/-! ## Reachable stores -/

/-- The stores that an embedder gets to, with the modules that have been loaded. -/
inductive Reachable : List LoadedModule → Store σ → Prop where
  | empty (host : σ) : Reachable [] { host }
  | load {ms t bytes m} (h : Reachable ms t) (hm : Module.compile bytes = .ok m) :
      Reachable ((t.load m).1 :: ms) (t.load m).2
  | instantiate {ms t m imports limits budget result t'} (h : Reachable ms t)
      (hm : m ∈ ms) (himports : imports.HaveOneResult)
      (hhonest : ∀ inst func, Instance.allocate m imports limits = .ok inst →
        m.module.start = some func → (t.startConfig inst func).IsHonest)
      (hrun : t.instantiate m imports limits budget = some (result, t')) : Reachable ms t'
  | call {ms t i callee args holds budget result t'} (h : Reachable ms t)
      (hi : i < t.instances.size) (hgenuine : callee.IsGenuine t)
      (hhonest : (t.callConfig i callee args holds).IsHonest)
      (hrun : t.call i callee args holds budget = some (result, t')) : Reachable ms t'
  | callStandalone {ms t f args budget result t'} (h : Reachable ms t)
      (hhonest : (t.standaloneConfig f args).IsHonest)
      (hrun : t.callStandalone f args budget = some (result, t')) : Reachable ms t'
  | setFuel {ms t} (i fuel) (h : Reachable ms t) : Reachable ms (t.setFuel i fuel)
  | updateMemory {ms t α} (i) (op : Memory.Update α) (h : Reachable ms t) :
      Reachable ms (t.updateMemory? i op).2
  | setHost {ms t} (host : σ) (h : Reachable ms t) : Reachable ms { t with host }

/-- **In reachable stores all instances are sound.** -/
theorem Reachable.outline_sound (h : Reachable loaded s) : s.outline.IsSound loaded := by
  induction h with
  | empty host =>
    exact ⟨List.forall_mem_nil _, List.forall_mem_nil _,
      fun id sh h => by simp [outline, shapes] at h, fun id sh h => by simp [outline, shapes] at h⟩
  | load _ hm ih => exact ih.load (Module.compile_sound hm).2
  | instantiate _ hm himports hhonest hrun ih =>
    exact isSound_of_instantiate ih hm himports hhonest hrun
  | call _ hid hgenuine hhonest hrun ih =>
    exact outline_of_call ih hid hgenuine hhonest hrun ▸ ih
  | callStandalone _ hhonest hrun ih => exact outline_of_callStandalone ih hhonest hrun ▸ ih
  | @setFuel ms t i fuel _ ih =>
    have h : (t.setFuel i fuel).outline = t.outline := outline_modifyInstance fun _ => rfl
    exact h ▸ ih
  | @updateMemory ms t α i op _ ih =>
    have h : (t.updateMemory? i op).2.outline = t.outline := outline_updateMemory? op
    exact h ▸ ih
  | setHost host _ ih => exact ih

end Store

end WasmEngine
