import WasmEngine.Proofs.Limits.Rebound
import WasmEngine.Proofs.Memory.Operations
import WasmEngine.Proofs.Nesting.Programs

/-!
# Proofs/Memory/Work — what a step does to memories and loans

Whatever runs changes a memory through updates, and an update changes nothing while a view of the memory
is held.  `Store.Keeps` says so of one piece of work; nothing that runs changes a loan.  Only a call that
borrows something and the end of that call do: `Store.Passage` is what one step comes to, and
`Config.Obeys.passage` says that there is nothing else.  How memories change is left to a relation, which
all updates that programs ask for obey.
-/

namespace WasmEngine

variable {σ α : Type} {T : Memory → Memory → Prop}

/-! ## Programs that change memory as a relation allows -/

/-- A relation between memories that allows their operations, one after another. -/
structure Memory.IsWorkOrder (T : Memory → Memory → Prop) : Prop where
  becomes : ∀ {m m'}, m.Becomes m' → T m m'
  trans : ∀ {m m' m''}, T m m' → T m' m'' → T m m''

/-- Operations of the memory may follow each other. -/
theorem Memory.isWorkOrder_becomes : IsWorkOrder Becomes := ⟨id, Becomes.trans⟩

theorem Memory.isWorkOrder_any : IsWorkOrder fun _ _ => True := ⟨fun _ => trivial, fun _ _ => trivial⟩

/-- Whether an update changes memory as a relation allows. -/
def Memory.Update.Obeys (T : Memory → Memory → Prop) (op : Update α) : Prop := ∀ m, T m (op.after m)

/-- Whether a program asks for such updates only. -/
def HostM.Obeys (T : Memory → Memory → Prop) : HostM σ α → Prop
  | .done _ => True
  | .getState k => ∀ s, (k s).Obeys T
  | .setState _ k => k.Obeys T
  | .viewMemory k => ∀ m, (k m).Obeys T
  | .updateMemory op k => op.Obeys T ∧ ∀ r, (k r).Obeys T
  | .call _ _ _ _ k => ∀ r, (k r).Obeys T
  | .setFuel _ _ k => k.Obeys T

/-- The memory that a hook leaves. -/
def MemoryHook.after (h : MemoryHook σ) (args : List Value) (host : σ) (m : Memory) : Memory :=
  match h.run args (host, m) with
  | .ok _ (_, m') | .error _ (_, m') => m'

/-- Whether what is bound to an import changes memory as a relation allows. -/
def ImportBinding.Obeys (T : Memory → Memory → Prop) : ImportBinding σ → Prop
  | .func f => ∀ site args, HostM.Obeys T (f.body site args)
  | .hook h => ∀ args host m, T m (h.after args host m)

/-- Whether everything that is bound in a store does. -/
def Store.Obeys (T : Memory → Memory → Prop) (s : Store σ) : Prop :=
  ∀ (i : InstanceId) (inst : Instance σ) (func : Nat) (type : Signature) (ref : ImportName)
    (binding : ImportBinding σ), s.instances[i]? = some inst →
    inst.functions[func]? = some (.imported type ref binding) → binding.Obeys T

/-- Whether everything that can run in a configuration does. -/
structure Config.Obeys (T : Memory → Memory → Prop) (c : Config σ) : Prop where
  store : c.store.Obeys T
  programs : c.RunsOnly (HostM.Obeys T)

/-- What goes on with a program that obeys obeys. -/
theorem HostM.isHereditary_obeys : IsHereditary (HostM.Obeys T : HostM σ α → Prop) where
  getState h := h
  setState h := h
  viewMemory h := h
  updateMemory h := h.2
  call h := h
  setFuel h := h

/-- **The allocator works on memory by its operations.** -/
theorem Heap.hook_obeys (id : Nat) (get : σ → HeapStats) (set : HeapStats → σ → σ) :
    ImportBinding.Obeys Memory.Becomes (.hook (hook id get set)) := by
  intro args host m
  have hworks := works_request args
  simp only [MemoryHook.after, hook, withStats]
  cases hrun : request args ⟨m, get host⟩ with
  | ok a heap => exact hworks.ok hrun
  | error e heap => exact hworks.error hrun

/-! ## Work -/

/-- An instance after something has worked on it: its memory may have changed if nobody held it. -/
structure Instance.Keeps (T : Memory → Memory → Prop) (inst inst' : Instance σ) : Prop where
  module : inst'.module = inst.module
  functions : inst'.functions = inst.functions
  limits : inst'.limits = inst.limits
  loan : inst'.loan = inst.loan
  memory : inst'.memory = inst.memory ∨
    inst.loan = .shared 0 ∧ ∃ m m', inst.memory = some m ∧ inst'.memory = some m' ∧ T m m'

/-- A store after something has worked on its instances. -/
structure Store.Keeps (T : Memory → Memory → Prop) (s s' : Store σ) : Prop where
  size : s'.instances.size = s.instances.size
  instances : ∀ {id : InstanceId} {inst}, s.instances[id]? = some inst →
    ∃ inst', s'.instances[id]? = some inst' ∧ inst.Keeps T inst'

namespace Instance

variable {inst inst' inst'' : Instance σ}

/-- What work leaves of an instance, and its memory. -/
def kept (inst : Instance σ) :
    Module × Array (Callable σ) × Limits × Loan × Option Memory :=
  (inst.module, inst.functions, inst.limits, inst.loan, inst.memory)

/-- Whoever keeps the memory and the functions of an instance has done no work on it. -/
theorem keeps_of_kept (h : inst'.kept = inst.kept) : inst.Keeps T inst' := by
  obtain ⟨hmodule, hfunctions, hlimits, hloan, hmemory⟩ :
      inst'.module = inst.module ∧ inst'.functions = inst.functions ∧ inst'.limits = inst.limits ∧
        inst'.loan = inst.loan ∧ inst'.memory = inst.memory := by
    simpa only [kept, Prod.mk.injEq] using h
  exact ⟨hmodule, hfunctions, hlimits, hloan, .inl hmemory⟩

/-- Work may be done one piece after the other. -/
theorem Keeps.trans (hT : Memory.IsWorkOrder T) (h : inst.Keeps T inst') (h' : inst'.Keeps T inst'') :
    inst.Keeps T inst'' where
  module := h'.module.trans h.module
  functions := h'.functions.trans h.functions
  limits := h'.limits.trans h.limits
  loan := h'.loan.trans h.loan
  memory := by
    obtain heq | ⟨hloan, m, m', hm, hm', hT₁⟩ := h.memory
    · rw [← heq, ← h.loan]
      exact h'.memory
    · obtain heq | ⟨-, m₁, m'', hm₁, hm'', hT₂⟩ := h'.memory
      · exact .inr ⟨hloan, m, m', hm, heq.trans hm', hT₁⟩
      · obtain rfl := Option.some.inj (hm'.symm.trans hm₁)
        exact .inr ⟨hloan, m, m'', hm, hm'', hT.trans hT₁ hT₂⟩

/-- Changes the memory of an instance, unless somebody holds it. -/
def update (op : Memory.Update α) (inst : Instance σ) : Option (Except Error α) × Instance σ :=
  match inst.memory with
  | none => (none, inst)
  | some memory =>
    if inst.loan = .shared 0 then
      match op memory with
      | .ok a memory => (some (.ok a), { inst with memory := some memory })
      | .error e memory => (some (.error e), { inst with memory := some memory })
    else (some (.error .memoryBorrowed), inst)

/-- An update that obeys is work, and is refused if the memory is lent. -/
theorem keeps_update {op : Memory.Update α} (hop : op.Obeys T) (inst : Instance σ) :
    inst.Keeps T (inst.update op).2 := by
  unfold update
  cases hmemory : inst.memory with
  | none => exact keeps_of_kept rfl
  | some m =>
    by_cases hloan : inst.loan = .shared 0
    · have hT : T m (op.after m) := hop m
      unfold Memory.Update.after at hT
      simp only [if_pos hloan]
      cases hrun : op m with
      | ok a m' =>
        rw [hrun] at hT
        exact ⟨rfl, rfl, rfl, rfl, .inr ⟨hloan, m, m', hmemory, rfl, hT⟩⟩
      | error e m' =>
        rw [hrun] at hT
        exact ⟨rfl, rfl, rfl, rfl, .inr ⟨hloan, m, m', hmemory, rfl, hT⟩⟩
    · simp only [if_neg hloan]
      exact keeps_of_kept rfl

/-- **A memory that is held stays as it is.** -/
theorem Keeps.memory_eq (h : inst.Keeps T inst') (hloan : inst.loan ≠ .shared 0) :
    inst'.memory = inst.memory :=
  h.memory.resolve_right fun h => hloan h.1

end Instance

namespace Store

variable {s s' s'' : Store σ} {id : InstanceId}

theorem keeps_of_map (h : s'.instances.map Instance.kept = s.instances.map Instance.kept) :
    s.Keeps T s' where
  size := by
    have hsize := congrArg Array.size h
    rwa [Array.size_map, Array.size_map] at hsize
  instances := by
    intro id inst hinst
    have hi := congrArg (·[id]?) h
    simp only [Array.getElem?_map, hinst, Option.map_some] at hi
    obtain ⟨inst', hinst', hkept⟩ := Option.map_eq_some_iff.1 hi
    exact ⟨inst', hinst', Instance.keeps_of_kept hkept⟩

theorem keeps_of_view (h : s'.view Instance.kept = s.view Instance.kept) : s.Keeps T s' :=
  keeps_of_map (congrArg Prod.fst h)

theorem Keeps.refl (s : Store σ) : s.Keeps T s := keeps_of_map rfl

theorem Keeps.trans (hT : Memory.IsWorkOrder T) (h : s.Keeps T s') (h' : s'.Keeps T s'') :
    s.Keeps T s'' where
  size := h'.size.trans h.size
  instances := by
    intro id inst hinst
    obtain ⟨inst', hinst', hkeeps⟩ := h.instances hinst
    obtain ⟨inst'', hinst'', hkeeps'⟩ := h'.instances hinst'
    exact ⟨inst'', hinst'', hkeeps.trans hT hkeeps'⟩

theorem keeps_modifyInstance {f : Instance σ → Instance σ} (hf : ∀ inst, (f inst).kept = inst.kept) :
    s.Keeps T (s.modifyInstance id f) :=
  keeps_of_view (view_modifyInstance hf)

/-- Instances are as many as before, each with its work. -/
theorem Keeps.exists_of_some (h : s.Keeps T s') {inst' : Instance σ}
    (hinst' : s'.instances[id]? = some inst') :
    ∃ inst, s.instances[id]? = some inst ∧ inst.Keeps T inst' := by
  have hlt : id < s.instances.size := h.size ▸ (Array.getElem?_eq_some_iff.1 hinst').1
  have hinst := Array.getElem?_eq_getElem hlt
  obtain ⟨inst₁, hinst₁, hkeeps⟩ := h.instances hinst
  obtain rfl := Option.some.inj (hinst'.symm.trans hinst₁)
  exact ⟨_, hinst, hkeeps⟩

/-- Work changes no binding: who obeyed obeys. -/
theorem Keeps.obeys (h : s.Keeps T s') (hs : s.Obeys T) : s'.Obeys T := by
  intro i inst' func type ref binding hinst' hf
  obtain ⟨inst, hinst, hkeeps⟩ := h.exists_of_some hinst'
  exact hs i inst func type ref binding hinst (hkeeps.functions ▸ hf)

theorem Obeys.of_map (hs : s.Obeys T)
    (h : s'.instances.map (·.functions) = s.instances.map (·.functions)) : s'.Obeys T := by
  intro i inst' func type ref binding hinst' hf
  have hi := congrArg (·[i]?) h
  simp only [Array.getElem?_map, hinst', Option.map_some] at hi
  obtain ⟨inst, hinst, hfunctions⟩ := Option.map_eq_some_iff.1 hi.symm
  exact hs i inst func type ref binding hinst (hfunctions ▸ hf)

theorem Obeys.bindsOnly (hs : s.Obeys T) : s.BindsOnly (HostM.Obeys T) :=
  fun i inst func type ref _ hinst hf => hs i inst func type ref _ hinst hf

theorem Obeys.acquireAll (hs : s.Obeys T) (holds : List Hold) : (s.acquireAll holds).2.Obeys T :=
  hs.of_map (congrArg Prod.fst (view_acquireAll (fun _ _ => rfl) holds))

theorem Obeys.releaseAll (hs : s.Obeys T) (holds : List Hold) : (s.releaseAll holds).Obeys T :=
  hs.of_map (congrArg Prod.fst (view_releaseAll (fun _ _ => rfl) holds))

/-! ## Updates -/

/-- **An update changes memory that nobody holds**, as the relation allows. -/
theorem keeps_updateMemory? {op : Memory.Update α} (hop : op.Obeys T) :
    s.Keeps T (s.updateMemory? id op).2 := by
  have hupdate : s.updateMemory? id op = s.withInstance id none (·.update op) := rfl
  rw [hupdate]
  constructor
  · have hview : (s.withInstance id none (·.update op)).2.view (fun _ => ()) = s.view fun _ => () :=
      view_withInstance fun _ => rfl
    have hsize := congrArg (fun v => v.1.size) hview
    rwa [view, view, Array.size_map, Array.size_map] at hsize
  · intro i inst hinst
    rw [getElem?_withInstance, hinst]
    split
    · exact ⟨_, rfl, Instance.keeps_update hop inst⟩
    · exact ⟨_, rfl, Instance.keeps_of_kept rfl⟩

/-- To write a global is no work on memory. -/
theorem keeps_setGlobal (index : Nat) (v : Slot) : s.Keeps T (s.setGlobal id index v).2 := by
  have h : (s.setGlobal id index v).2.view Instance.kept = s.view Instance.kept := by
    refine view_withInstance fun inst => ?_
    split <;> rfl
  exact keeps_of_view h

theorem keeps_changeMemory {op : Memory.Update α} (hop : op.Obeys T) :
    s.Keeps T (s.changeMemory id op).2 := by
  have h : s.Keeps T (s.updateMemory? id op).2 := keeps_updateMemory? hop
  unfold changeMemory
  split
  all_goals
    next heq =>
    rw [heq] at h
    exact h

/-- A host function works on the memory of the instance that has called it. -/
theorem keeps_updateCallerMemory {op : Memory.Update α} (hop : op.Obeys T) (call : HostCall) :
    s.Keeps T (s.updateCallerMemory call op).2 := by
  unfold updateCallerMemory
  split
  · exact .refl s
  · exact keeps_updateMemory? hop

/-! ## The machine -/

/-- The update that running a hook is. -/
def hookUpdate (h : MemoryHook σ) (args : List Value) (host : σ) (isHeld : Bool) :
    Memory.Update (Except Error (Option Value) × σ) := fun memory =>
  if isHeld then .error (.hostAbort "memory hook is already running") memory
  else
    match h.run args (host, memory) with
    | .ok a (host, memory) => .ok (.ok a, host) memory
    | .error e (host, memory) => .ok (.error e, host) memory

section Machine

variable (hT : Memory.IsWorkOrder T)

include hT

theorem obeys_of_isWrite {op : Memory.Update Unit} (h : op.IsWrite) : op.Obeys T :=
  fun _ => hT.becomes (.write h .refl)

/-- Growth is allowed wherever the memory's own operations are. -/
theorem obeys_growMemory (delta : Slot) : (growMemory delta).Obeys T :=
  fun _ => hT.becomes (.grow _ .refl)

/-- **Instructions change memory by its operations.** -/
theorem keeps_access (instr : Instr BlockJump) (operands : List Slot) :
    s.Keeps T (s.access id instr operands).2 := by
  unfold access
  split
  · exact .refl s
  · exact keeps_setGlobal ..
  · exact .refl s
  · exact keeps_changeMemory (obeys_of_isWrite hT (.store ..))
  · exact .refl s
  · exact keeps_changeMemory (obeys_growMemory hT _)
  · exact keeps_changeMemory (obeys_of_isWrite hT (.copy ..))
  · exact keeps_changeMemory (obeys_of_isWrite hT (.fill ..))
  · exact .refl s

/-- A hook that works on memory as the relation allows is such an update. -/
theorem obeys_hookUpdate {h : MemoryHook σ} (hobeys : ImportBinding.Obeys T (.hook h))
    (args : List Value) (host : σ) (isHeld : Bool) : (hookUpdate h args host isHeld).Obeys T := by
  intro m
  unfold hookUpdate
  cases isHeld with
  | true => exact hT.becomes .refl
  | false =>
    have hafter : T m (h.after args host m) := hobeys args host m
    unfold MemoryHook.after at hafter
    simp only [Memory.Update.after, Bool.false_eq_true, if_false]
    cases hrun : h.run args (host, m) <;> rwa [hrun] at hafter

/-- A hook works on the memory of the instance that calls it. -/
theorem keeps_runHook {h : MemoryHook σ} (hobeys : ImportBinding.Obeys T (.hook h))
    (args : List Value) : s.Keeps T (s.runHook id h args).2 := by
  have hkeeps : s.Keeps T
      (s.updateMemory? id (hookUpdate h args s.host (s.heldHooks.contains h.id))).2 :=
    keeps_updateMemory? (obeys_hookUpdate hT hobeys args s.host _)
  unfold runHook
  simp only
  split
  all_goals
    next heq =>
    rw [show s.updateMemory? id (hookUpdate h args s.host (s.heldHooks.contains h.id)) = _ from heq]
      at hkeeps
    exact ⟨hkeeps.size, hkeeps.instances⟩

/-- Calling a host function is no work yet; calling a hook is the hook's. -/
theorem keeps_callImport {type : Signature} {ref : ImportName} {binding : ImportBinding σ}
    (hobeys : binding.Obeys T) (args : List Slot) (depth : Nat) :
    s.Keeps T (s.callImport id type ref binding args depth).2 := by
  cases binding with
  | hook h => exact keeps_runHook hT hobeys _
  | func f => exact keeps_of_view (view_callImport (fun _ _ _ => rfl) type ref f args depth)

theorem keeps_callFunction (hs : s.Obeys T) (func : Nat) (args : List Slot) (depth : Nat) :
    s.Keeps T (s.callFunction id func args depth).2 := by
  unfold callFunction
  split
  · exact .refl s
  · next inst hinst =>
    split
    · exact .refl s
    · next type ref binding hf => exact keeps_callImport hT (hs _ _ _ _ _ _ hinst hf) args depth
    · split <;> exact .refl s

theorem keeps_invocation (hs : s.Obeys T) (callee : Callee) (args : List Value) (depth : Nat) :
    s.Keeps T (s.invocation id callee args depth).2 := by
  unfold invocation
  split
  · exact .refl s
  · split
    · exact .refl s
    · split
      · exact .refl s
      · exact keeps_callFunction hT hs ..

theorem keeps_callFrom (hs : s.Obeys T) (r : Run) (func : Nat) :
    s.Keeps T (s.callFrom r func).store := by
  obtain ⟨id, frame, callers⟩ := r
  simp only [callFrom]
  cases hinst : s.instances[id]? with
  | none => exact .refl s
  | some inst =>
    simp only
    cases hf : inst.functions[func]? with
    | none => exact .refl s
    | some callee =>
      simp only
      split
      · exact .refl s
      · cases callee with
        | imported type ref binding => exact keeps_callImport hT (hs _ _ _ _ _ _ hinst hf) ..
        | code type entry declared =>
          simp only
          split <;> exact .refl s

/-- Of the instructions that need more than a frame, stores, fills, copies and growth work on
memory. -/
theorem keeps_execOutside (hs : s.Obeys T) (r : Run) (instr : Instr BlockJump) :
    s.Keeps T (s.execOutside r instr).store := by
  unfold execOutside
  split
  · exact keeps_callFrom hT hs r _
  · split
    · exact .refl s
    · split
      · exact keeps_callFrom hT hs _ _
      · exact .refl s
  · have haccess : s.Keeps T (s.access r.inst _ r.frame.operands).2 := keeps_access hT instr _
    split
    all_goals
      next heq =>
      rw [heq] at haccess
      exact haccess

/-- **A dispatch loop works.** -/
theorem keeps_dispatch (hs : s.Obeys T) (r : Run) : s.Keeps T (s.dispatch r).store := by
  have hspend : s.Keeps T (s.spendFuel r.inst).2 := keeps_of_view (view_spendFuel fun _ _ => rfl)
  have hleave (s : Store σ) (r : Run) : s.Keeps T (s.leave r).store := by
    obtain ⟨id, frame, callers⟩ := r
    simp only [leave]
    split
    · exact .refl s
    · cases callers <;> exact .refl s
  unfold dispatch
  split
  · next heq =>
    rw [heq] at hspend
    exact hspend
  · next s₁ heq =>
    rw [heq] at hspend
    refine hspend.trans hT ?_
    have hs₁ : s₁.Obeys T := hspend.obeys hs
    obtain ⟨id, frame, callers⟩ := r
    simp only
    split
    · exact .refl s₁
    · split
      · exact .refl s₁
      · exact hleave s₁ _
      · exact keeps_execOutside hT hs₁ _ _
      · exact .refl s₁

end Machine

/-- The end of a host call gives back its frame. -/
theorem keeps_endHostCall (call : HostCall) (outcome : Except Error (Option Value)) :
    s.Keeps T (s.endHostCall call outcome).2 := by
  have hcounters (c : HostCaller) : s.Keeps T (s.modifyInstance c.inst fun inst =>
      { inst with hostDepth := c.outerHostDepth, reentryDepth := c.outerReentryDepth }) :=
    keeps_modifyInstance fun _ => rfl
  unfold endHostCall
  split
  · exact .refl s
  · exact hcounters _

/-- An outcome that ends an invocation may poison its instance. -/
theorem exists_deliver_invocation (s : Store σ) (id : InstanceId)
    (outcome : Except Error (List Slot)) (holds : List Hold) :
    ∃ s₁, s.Keeps T s₁ ∧
      s.deliver outcome (.invocation id holds) = (s₁.releaseAll holds).finish outcome := by
  cases outcome with
  | ok slots => exact ⟨s, .refl s, rfl⟩
  | error e =>
    by_cases he : e.IsFatal
    · refine ⟨s.modifyInstance id ({ · with isPoisoned := true }),
        keeps_modifyInstance fun _ => rfl, ?_⟩
      simp only [deliver, if_pos he]
    · refine ⟨s, .refl s, ?_⟩
      simp only [deliver, if_neg he]

end Store

/-! ## Steps -/

/-- What is borrowed for an invocation that waits. -/
def Pending.holds : Pending σ → List Hold
  | .invocation _ holds => holds
  | _ => []

/-- What is borrowed for the invocations of a configuration. -/
def Config.held (c : Config σ) : List Hold := c.pending.flatMap Pending.holds

/-- What one step comes to for memories and loans, where `held` is borrowed for invocations. -/
inductive Store.Passage (T : Memory → Memory → Prop) (s : Store σ) (held : List Hold) :
    Store σ → List Hold → Prop where
  | work {s' : Store σ} (h : s.Keeps T s') : Passage T s held s' held
  /-- A call borrows something and begins. -/
  | borrow {holds : List Hold} {s' : Store σ} (hok : (s.acquireAll holds).1 = .ok ())
      (h : (s.acquireAll holds).2.Keeps T s') : Passage T s held s' (holds ++ held)
  /-- A call cannot borrow what it wants. -/
  | conflict {holds : List Hold} {e : Error} (herror : (s.acquireAll holds).1 = .error e) :
      Passage T s held (s.acquireAll holds).2 held
  /-- A call ends and gives back what it borrowed. -/
  | giveBack {holds rest : List Hold} {s₁ : Store σ} (hheld : held = holds ++ rest)
      (h : s.Keeps T s₁) : Passage T s held (s₁.releaseAll holds) rest

/-- A passage changes no binding. -/
theorem Store.Passage.obeys {s s' : Store σ} {held held' : List Hold}
    (h : s.Passage T held s' held') (hs : s.Obeys T) : s'.Obeys T := by
  cases h with
  | work h => exact h.obeys hs
  | borrow hok h => exact h.obeys (hs.acquireAll _)
  | conflict herror => exact hs.acquireAll _
  | giveBack hheld h => exact (h.obeys hs).releaseAll _

namespace Config.Obeys

variable {c : Config σ} {s : Store σ} {ps : List (Pending σ)}

theorem holds_dispatch (s : Store σ) (r : Run) :
    (s.dispatch r).waiting.flatMap Pending.holds = [] := by
  have ht := s.dispatch_turn r
  generalize s.dispatch r = t at ht
  cases ht <;> rfl

theorem serve (hT : Memory.IsWorkOrder T) {call : HostCall} {program : HostProgram σ}
    (h : Obeys T ⟨s, .host call program, ps⟩) (held : List Hold) :
    s.Passage T held (s.serve call program).store
      ((s.serve call program).waiting.flatMap Pending.holds ++ held) := by
  have hprogram : program.Obeys T := h.programs.control
  cases program with
  | done outcome => exact .work (Store.keeps_endHostCall ..)
  | getState k => exact .work (.refl s)
  | setState host k => exact .work (Store.keeps_of_map rfl)
  | viewMemory k => exact .work (.refl s)
  | updateMemory op k => exact .work (Store.keeps_updateCallerMemory hprogram.1 call)
  | setFuel id fuel k =>
    have hfuel : s.Keeps T (s.modifyInstance id fun inst => { inst with fuel }) :=
      Store.keeps_modifyInstance fun _ => rfl
    exact .work hfuel
  | call target callee args holds k =>
    simp only [Store.serve]
    split
    · exact .work (.refl s)
    · next id depth _ =>
      split
      · next s₁ heq =>
        have hconflict : s.Passage T held (s.acquireAll holds).2 held :=
          .conflict (congrArg Prod.fst heq)
        rw [heq] at hconflict
        exact hconflict
      · next s₁ heq =>
        have hs₁ : s₁.Obeys T := by
          have hobeys := h.store.acquireAll holds
          rwa [heq] at hobeys
        have hborrow : s.Passage T held (s₁.invocation id callee args depth).2 (holds ++ held) := by
          refine .borrow (congrArg Prod.fst heq) ?_
          rw [heq]
          exact Store.keeps_invocation hT hs₁ callee args depth
        simpa [Pending.holds] using hborrow

/-- **A step works, or borrows or gives back what a call has borrowed.** -/
theorem passage (hT : Memory.IsWorkOrder T) (h : c.Obeys T) :
    c.store.Passage T c.held c.step.store c.step.held := by
  obtain ⟨s, control, ps⟩ := c
  have hheld (t : Transition σ) : (ofTransition t ps).held =
      t.waiting.flatMap Pending.holds ++ ps.flatMap Pending.holds := List.flatMap_append
  cases control with
  | run r =>
    have hwork : s.Passage T (ps.flatMap Pending.holds) (s.dispatch r).store
        (ps.flatMap Pending.holds) := .work (Store.keeps_dispatch hT h.store r)
    change s.Passage T (ps.flatMap Pending.holds) (s.dispatch r).store
      (ofTransition (s.dispatch r) ps).held
    rwa [hheld, holds_dispatch]
  | host call program =>
    change s.Passage T (ps.flatMap Pending.holds) (s.serve call program).store
      (ofTransition (s.serve call program) ps).held
    rw [hheld]
    exact h.serve hT _
  | done outcome =>
    cases ps with
    | nil => exact .work (.refl s)
    | cons p ps =>
      cases p with
      | run r => cases outcome <;> exact .work (.refl s)
      | host call results k =>
        by_cases hf : Store.IsFault outcome
        · have hstep : step ⟨s, .done outcome, .host call results k :: ps⟩ =
            ofTransition (s.finish outcome) ps :=
            congrArg (ofTransition · ps) (Store.deliver_host_of_fault hf s call results k)
          rw [hstep]
          exact .work (.refl s)
        · have hstep : step ⟨s, .done outcome, .host call results k :: ps⟩ = ofTransition
            (s.proceed call (k (outcome.map (Value.ofSlots · results)))) ps :=
            congrArg (ofTransition · ps) (Store.deliver_host hf s call results k)
          rw [hstep]
          exact .work (.refl s)
      | invocation id holds =>
        obtain ⟨s₁, hs₁, heq⟩ := s.exists_deliver_invocation (T := T) id outcome holds
        have hstep : step ⟨s, .done outcome, .invocation id holds :: ps⟩ =
            ofTransition ((s₁.releaseAll holds).finish outcome) ps :=
          congrArg (ofTransition · ps) heq
        rw [hstep]
        exact .giveBack rfl hs₁

theorem step (hT : Memory.IsWorkOrder T) (h : c.Obeys T) : c.step.Obeys T where
  store := (h.passage hT).obeys h.store
  programs := h.programs.step HostM.isHereditary_obeys

theorem run (hT : Memory.IsWorkOrder T) (h : c.Obeys T) (n : Nat) : (Config.run n c).Obeys T :=
  run_induction (P := fun c => c.Obeys T) (fun _ => step hT) h n

end Config.Obeys

end WasmEngine
