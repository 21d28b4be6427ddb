import WasmEngine.Proofs.Located.Compiled
import WasmEngine.Proofs.Safety.Frame
import WasmEngine.Proofs.Safety.Shape

/-!
# Proofs/Safety/Config — the invariant of a configuration

`Shape.IsSound` says of an instance what compilation and instantiation promise.  `Config.IsSound` ties
together what acts next and everything that waits for it: each activation can go on with the results
of the one above it, and each invocation ends with as many results as its type declares.
-/

namespace WasmEngine

variable {σ : Type}

/-! ## Errors -/

/-- The errors that running compiled code may end in by itself.  The others are those of a module
that is no good, and all faults but one: the embedder may borrow what is lent already. -/
def Error.IsRuntime : Error → Prop
  | malformed _ | validation _ _ => False
  | fault f => f = .conflictingLoan
  | _ => True

/-- A hook that an instance is bound to fails with an error.  It runs on the memory of that instance
and on the state of the embedder, and `s'` has what it leaves of them. -/
def Store.HookAnswers (s : Store σ) (e : Error) (s' : Store σ) : Prop :=
  ∃ (id : InstanceId) (inst : Instance σ) (func : Nat) (type : Signature) (ref : ImportName)
    (h : MemoryHook σ) (args : List Value) (memory : Memory) (rest : σ × Memory),
    s.instances[id]? = some inst ∧ inst.functions[func]? = some (.imported type ref (.hook h)) ∧
      inst.memory = some memory ∧ h.run args (s.host, memory) = .error e rest ∧
      s'.host = rest.1 ∧ s'.instances[id]?.bind (·.memory) = some rest.2

/-- The next step takes an error from a host function or from a hook. -/
def Config.HostAnswers (c : Config σ) (e : Error) : Prop :=
  (∃ call, c.control = .host call (.done (.error e))) ∨
    (c.store.HookAnswers e c.step.store ∧ c.step.control = .done (.error e))

/-- Hooks answer as they do in any store that looks the same to them. -/
theorem Store.HookAnswers.of_view {s s₁ s' : Store σ} {e : Error} (h : s₁.HookAnswers e s')
    (hview : s₁.view (fun inst => (inst.functions, inst.memory)) =
      s.view fun inst => (inst.functions, inst.memory)) : s.HookAnswers e s' := by
  obtain ⟨id, inst₁, func, type, ref, hook, args, memory, rest, hinst, hfunc, hmem, hrun, hleft⟩ := h
  obtain ⟨hmap, hrest⟩ := Prod.mk.inj hview
  have hid := congrArg (·[id]?) hmap
  simp only [Array.getElem?_map, hinst, Option.map_some] at hid
  obtain ⟨inst, hinst', heq⟩ := Option.map_eq_some_iff.1 hid.symm
  obtain ⟨hfuncs, hmems⟩ := Prod.mk.inj heq
  exact ⟨id, inst, func, type, ref, hook, args, memory, rest, hinst', hfuncs ▸ hfunc, hmems ▸ hmem,
    (Prod.mk.inj hrest).1 ▸ hrun, hleft⟩

/-! ## Instances -/

/-- What an instance calls is the function that its module has at that place. -/
inductive Callable.Implements (f : Function) : Callable σ → Prop where
  | code {declared} (hlocal : f.imported = none)
      (hlocals : f.type.params.length + declared = f.locals.length) :
      Implements f (.code f.type f.body.start declared)
  | imported {ref binding} (himported : f.imported = some ref) (h : f.type.results.length ≤ 1) :
      Implements f (.imported f.type ref binding)

theorem Callable.Implements.type_eq {f : Function} {callee : Callable σ}
    (h : callee.Implements f) : callee.type = f.type := by
  cases h <;> rfl

/-- What compilation and instantiation promise about an instance. -/
structure Shape.IsSound (sh : Shape σ) : Prop where
  compiled : sh.module.IsCompiled sh.sideTable
  size_eq : sh.functions.size = sh.module.functions.size
  functions : ∀ (i : Nat) (f : Function) (callee : Callable σ), sh.module.functions[i]? = some f →
    sh.functions[i]? = some callee → callee.Implements f
  table : ∀ (slot func : Nat), sh.table[slot]? = some (some func) → func < sh.functions.size
  globals : sh.globalCount = sh.module.globals.size
  memory : sh.hasMemory = sh.module.memory.isSome

theorem Shape.IsSound.exists_callable {sh : Shape σ} (h : sh.IsSound) {i : Nat} {f : Function}
    (hf : sh.module.functions[i]? = some f) :
    ∃ callee, sh.functions[i]? = some callee ∧ callee.Implements f := by
  have hi : i < sh.functions.size := h.size_eq ▸ (Array.getElem?_eq_some_iff.1 hf).1
  exact ⟨_, Array.getElem?_eq_getElem hi, h.functions i f _ hf (Array.getElem?_eq_getElem hi)⟩

theorem Shape.IsSound.exists_function {sh : Shape σ} (h : sh.IsSound) {i : Nat}
    {callee : Callable σ} (hc : sh.functions[i]? = some callee) :
    ∃ f, sh.module.functions[i]? = some f ∧ callee.Implements f := by
  have hi : i < sh.module.functions.size := h.size_eq ▸ (Array.getElem?_eq_some_iff.1 hc).1
  exact ⟨_, Array.getElem?_eq_getElem hi, h.functions i _ callee (Array.getElem?_eq_getElem hi) hc⟩

/-- What the outline of a store promises when all its instances are those of loaded modules. -/
structure Outline.IsSound (loaded : List LoadedModule) (S : Outline σ) : Prop where
  /-- Loaded modules have been compiled, and each has a number of its own. -/
  compiled : ∀ m ∈ loaded, m.id < S.moduleCount ∧ ∃ table, m.module.IsCompiled table
  distinct : ∀ m ∈ loaded, ∀ m' ∈ loaded, m.id = m'.id → m = m'
  modules : ∀ (id : Nat) (sh : Shape σ), S.shapes[id]? = some sh → ⟨sh.moduleId, sh.module⟩ ∈ loaded
  sound : ∀ (id : Nat) (sh : Shape σ), S.shapes[id]? = some sh → sh.IsSound

/-- **Instances of one module number are instances of one module.** -/
theorem Outline.IsSound.module_eq {loaded : List LoadedModule} {S : Outline σ}
    (h : S.IsSound loaded) {id id' : Nat} {sh sh' : Shape σ} (hs : S.shapes[id]? = some sh)
    (hs' : S.shapes[id']? = some sh') (heq : sh.moduleId = sh'.moduleId) :
    sh.module = sh'.module := by
  have hm := h.distinct _ (h.modules id sh hs) _ (h.modules id' sh' hs') heq
  exact congrArg LoadedModule.module hm

/-! ## Activations -/

/-- `sh.Supports frames k n`: the innermost of the activations awaits `k` more operands, each of
the others the results of the one before it, and the outermost yields `n` results. -/
def Shape.Supports (sh : Shape σ) : List Frame → (k n : Nat) → Prop
  | [], k, n => k = n
  | f :: frames, k, n =>
    (∃ func, CodeContext.CanRun ⟨sh.module, func⟩ sh.sideTable f (f.operands.length + k)) ∧
      sh.Supports frames f.resultCount n

/-- A dispatch loop that awaits `k` more operands yields `n` results. -/
def Run.Awaits (S : Outline σ) (r : Run) (k n : Nat) : Prop :=
  ∃ sh, S.shapes[r.inst]? = some sh ∧ sh.Supports (r.frame :: r.callers) k n

/-- A host function that yields at most one result, for an instance that exists. -/
structure HostCall.IsSound (S : Outline σ) (call : HostCall) : Prop where
  results : call.results.length ≤ 1
  caller : ∀ c ∈ call.caller, c.inst < S.shapes.size

/-- What acts next yields `n` results or an error from `E`. -/
def Control.IsSound (E : Error → Prop) (S : Outline σ) (n : Nat) : Control σ → Prop
  | .run r => r.Awaits S 0 n
  | .host call _ => call.IsSound S ∧ call.results.length = n
  | .done (.ok slots) => slots.length = n
  | .done (.error e) => E e

/-- What waits for `k` results passes on `n`. -/
inductive PendingSound (S : Outline σ) : List (Pending σ) → (k n : Nat) → Prop where
  | nil {n} : PendingSound S [] n n
  | run {r rest k m n} (h : r.Awaits S k m) (hrest : PendingSound S rest m n) :
      PendingSound S (.run r :: rest) k n
  | invocation {id holds rest k n} (hrest : PendingSound S rest k n) :
      PendingSound S (.invocation id holds :: rest) k n
  | host {call : HostCall} {results k rest m n} (h : call.IsSound S)
      (hrest : PendingSound S rest call.results.length n) :
      PendingSound S (.host call results k :: rest) m n

theorem PendingSound.append {S : Outline σ} {ps qs : List (Pending σ)} {k m n : Nat}
    (hp : PendingSound S ps k m) (hq : PendingSound S qs m n) :
    PendingSound S (ps ++ qs) k n := by
  induction hp with
  | nil => exact hq
  | run h _ ih => exact .run h (ih hq)
  | invocation _ ih => exact .invocation (ih hq)
  | host h _ ih => exact .host h (ih hq)

/-- A transition after which `n` results or an error from `E` come out. -/
structure Transition.IsSound (E : Error → Prop) (S : Outline σ) (n : Nat)
    (t : Transition σ) : Prop where
  outline_eq : t.store.outline = S
  control : ∃ k, t.control.IsSound E S k ∧ PendingSound S t.waiting k n

/-- **The invariant of a configuration** whose outcome is `n` results or an error from `E`. -/
structure Config.IsSound (E : Error → Prop) (S : Outline σ) (n : Nat) (c : Config σ) :
    Prop where
  outline_eq : c.store.outline = S
  control : ∃ k, c.control.IsSound E S k ∧ PendingSound S c.pending k n

theorem Config.isSound_ofTransition {E : Error → Prop} {S : Outline σ} {m n : Nat}
    {t : Transition σ} {pending : List (Pending σ)} (ht : t.IsSound E S m)
    (hp : PendingSound S pending m n) : (ofTransition t pending).IsSound E S n := by
  obtain ⟨hS, k, hk, hw⟩ := ht
  exact ⟨hS, k, hk, hw.append hp⟩

end WasmEngine
