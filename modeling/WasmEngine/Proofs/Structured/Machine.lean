import WasmEngine.Machine.Step
import WasmEngine.Proofs.Safety.Frame
import WasmEngine.Proofs.Structured.Typing

/-!
# Proofs/Structured/Machine — the machine on an instruction without blocks

A `Machine` is a place for an instance in a store.  `Machine.running` is the configuration in which it
works on a `Conf`: the operands of the innermost block lie above those of the blocks around it.  What
an instruction without blocks does to the `Conf`, the machine does in one step: `Machine.goes_of_act`.
-/

namespace WasmEngine

namespace Memory

variable {m : Memory} {ptr offset : UInt32}

theorem eq_of_effective_eq_error {width : UInt64} {e : Error}
    (h : m.effective ptr offset width = .error e) : e = .trap .memoryOutOfBounds := by
  simp only [effective] at h
  split at h <;> cases h
  rfl

theorem eq_of_load_eq_error {n : Nat} {e : Error} (h : m.load n ptr offset = .error e) :
    e = .trap .memoryOutOfBounds := by
  unfold load at h
  split at h
  · cases h
  · next heq =>
    cases h
    exact eq_of_effective_eq_error heq

/-- Whether an update that goes out of bounds traps and leaves the memory as it was. -/
def Update.TrapsClean {α : Type} (op : Update α) : Prop :=
  ∀ m e m', op m = .error e m' → e = .trap .memoryOutOfBounds ∧ m' = m

theorem trapsClean_store (n : Nat) (ptr offset : UInt32) (v : Nat) :
    (store n ptr offset v).TrapsClean := by
  intro m e m' h
  unfold store at h
  split at h
  · cases h
  · next heq =>
    cases h
    exact ⟨eq_of_effective_eq_error heq, rfl⟩

theorem trapsClean_fill (ptr : UInt32) (value : UInt8) (len : UInt32) :
    (fill ptr value len).TrapsClean := by
  intro m e m' h
  unfold fill at h
  split at h
  · cases h
  · next heq =>
    cases h
    exact ⟨eq_of_effective_eq_error heq, rfl⟩

theorem trapsClean_copy (dst src len : UInt32) : (copy dst src len).TrapsClean := by
  intro m e m' h
  unfold copy at h
  split at h
  · next heq =>
    cases h
    exact ⟨eq_of_effective_eq_error heq, rfl⟩
  · split at h
    · next heq =>
      cases h
      exact ⟨eq_of_effective_eq_error heq, rfl⟩
    · cases h

end Memory

namespace Structured

variable {σ : Type}

/-! ## Configurations -/

/-- A place for an instance in a store. -/
structure Machine (σ : Type) where
  store : Store σ
  id : InstanceId
  inst : Instance σ

/-- What stays as it is while a function works on the code of a block. -/
structure Activation where
  /-- The open blocks, innermost first. -/
  labels : List Label
  resultCount : Nat
  /-- The number of operands and locals of the activations below. -/
  base : Nat
  depth : Nat
  callers : List Frame

/-- The frame of an activation at `pc`, with the operands `below` under those of the block. -/
def Activation.frame (a : Activation) (pc : Nat) (below : List Slot) (x : Conf) : Frame where
  pc := pc
  locals := x.locals
  operands := x.operands ++ below
  labels := a.labels
  resultCount := a.resultCount
  below := a.base
  depth := a.depth

namespace Machine

/-- The store with the instance in its place, at the given globals and memory. -/
def holding (M : Machine σ) (globals : Array Slot) (memory : Option Memory) : Store σ :=
  { M.store with
    instances := M.store.instances.setIfInBounds M.id { M.inst with globals, memory } }

/-- The dispatch loop of an activation, with nothing else at work. -/
def running (M : Machine σ) (a : Activation) (pc : Nat) (below : List Slot) (x : Conf) :
    Config σ where
  store := M.holding x.globals x.memory
  control := .run ⟨M.id, a.frame pc below x, a.callers⟩

/-- Nothing is left to do. -/
def finished (M : Machine σ) (x : Conf) (outcome : Except Error (List Slot)) : Config σ where
  store := M.holding x.globals x.memory
  control := .done outcome

/-- The activation is left, with as many of the operands as it has results. -/
def left (M : Machine σ) (a : Activation) (x : Conf) : Config σ :=
  let results := x.operands.take a.resultCount
  match a.callers with
  | [] => M.finished x (.ok results.reverse)
  | caller :: callers =>
    { store := M.holding x.globals x.memory
      control := .run ⟨M.id, caller.withOperands (results ++ caller.operands), callers⟩ }

/-- What the machine relies on: its instance has the functions and the table of a program, no budget,
and no loan on its memory. -/
structure Loads (M : Machine σ) (p : Program) : Prop where
  present : M.id < M.store.instances.size
  types_eq : M.inst.module.types = p.types
  table_eq : M.inst.table = p.table
  fuel_eq : M.inst.fuel = none
  loan_eq : M.inst.loan = .shared 0
  /-- Each function starts where its code lies, which an `end` follows. -/
  entry : ∀ (i : Nat) (g : Func), p.functions[i]? = some g → ∃ f entry stop next,
    M.inst.functions[i]? = some (.code g.type entry g.declared) ∧
    g.code.Lies ⟨M.inst.module, f⟩ M.inst.sideTable entry stop ∧
    Instr.fetch M.inst.module.bytes M.inst.sideTable stop = some (.endMark, next)

variable {M : Machine σ} {p : Program} {globals : Array Slot} {memory : Option Memory}

/-! ## The store -/

theorem Loads.getElem?_holding (hM : M.Loads p) :
    (M.holding globals memory).instances[M.id]? = some { M.inst with globals, memory } :=
  Array.getElem?_setIfInBounds_self_of_lt hM.present

theorem setIfInBounds_holding {globals' : Array Slot} {memory' : Option Memory} :
    { M.holding globals memory with
      instances := (M.holding globals memory).instances.setIfInBounds M.id
        { M.inst with globals := globals', memory := memory' } } =
      M.holding globals' memory' := by
  simp only [holding, Array.setIfInBounds_setIfInBounds]

theorem Loads.spendFuel_holding (hM : M.Loads p) :
    (M.holding globals memory).spendFuel M.id = (true, M.holding globals memory) := by
  simp only [Store.spendFuel, hM.getElem?_holding, Option.bind_some, hM.fuel_eq]

theorem Loads.fetch?_holding (hM : M.Loads p) (pc : Nat) :
    (M.holding globals memory).fetch? M.id pc =
      Instr.fetch M.inst.module.bytes M.inst.sideTable pc := by
  simp only [Store.fetch?, hM.getElem?_holding, Option.bind_eq_bind, Option.bind_some]

theorem Loads.getGlobal_holding (hM : M.Loads p) {i : Nat} {v : Slot} (h : globals[i]? = some v) :
    (M.holding globals memory).getGlobal M.id i = .ok v := by
  simp only [Store.getGlobal, hM.getElem?_holding, Option.bind_some, h]

theorem Loads.setGlobal_holding (hM : M.Loads p) {i : Nat} (h : i < globals.size) (v : Slot) :
    (M.holding globals memory).setGlobal M.id i v =
      (.ok (), M.holding (globals.setIfInBounds i v) memory) := by
  simp only [Store.setGlobal, Store.withInstance_eq, hM.getElem?_holding, if_pos h]
  rw [setIfInBounds_holding]

theorem Loads.readMemory_holding {α : Type} (hM : M.Loads p) {m : Memory}
    (f : Memory → Except Error α) :
    (M.holding globals (some m)).readMemory M.id f = f m := by
  simp only [Store.readMemory, Store.viewMemory?, hM.getElem?_holding, Option.bind_eq_bind,
    Option.bind_some, hM.loan_eq]
  rfl

theorem Loads.changeMemory_holding {α : Type} (hM : M.Loads p) {m : Memory}
    (op : Memory.Update α) :
    (M.holding globals (some m)).changeMemory M.id op =
      match op m with
      | .ok a m => (.ok a, M.holding globals (some m))
      | .error e m => (.error e, M.holding globals (some m)) := by
  simp only [Store.changeMemory, Store.updateMemory?, Store.withInstance_eq, hM.getElem?_holding,
    if_pos hM.loan_eq]
  cases op m with
  | ok a m' => exact congrArg (Prod.mk _) setIfInBounds_holding
  | error e m' => exact congrArg (Prod.mk _) setIfInBounds_holding

/-! ## Steps -/

variable {a : Activation} {pc p₁ : Nat} {below : List Slot} {x y : Conf}

/-- What a dispatch loop does after it has executed an instruction on its frame. -/
def onward (M : Machine σ) (callers : List Frame) (x : Conf) (i : Instr BlockJump)
    (flow : Except Error Flow) : Config σ :=
  let store := M.holding x.globals x.memory
  .ofTransition
    (match flow with
      | .ok (.next f) => store.resume ⟨M.id, f, callers⟩
      | .ok (.leave f) => store.leave ⟨M.id, f, callers⟩
      | .ok (.outside f) => store.execOutside ⟨M.id, f, callers⟩ i
      | .error e => store.finish (.error e)) []

theorem Loads.step_running (hM : M.Loads p) {i : Instr BlockJump}
    (hf : Instr.fetch M.inst.module.bytes M.inst.sideTable pc = some (i, p₁)) :
    (M.running a pc below x).step = M.onward a.callers x i ((a.frame p₁ below x).exec pc i) := by
  have hf' : (M.holding x.globals x.memory).fetch? M.id (a.frame pc below x).pc = some (i, p₁) :=
    (hM.fetch?_holding pc).trans hf
  simp only [running, Config.step, Store.dispatch, hM.spendFuel_holding, hf']
  rfl

/-- Where an action leads, if the code behind the instruction starts at `pc`. -/
inductive Goes (M : Machine σ) (p : Program) (a : Activation) (pc : Nat) (below : List Slot)
    (x : Conf) : Action → Config σ → Prop where
  | next {z} : Goes M p a pc below x (.next z) (M.running a pc below z)
  | trap {t} : Goes M p a pc below x (.trap t) (M.finished x (.error (.trap t)))
  | branch {depth z i} : Goes M p a pc below x (.branch depth z)
      (M.onward a.callers z i ((a.frame pc below z).branch depth))
  | ret {z i} : Goes M p a pc below x (.ret z)
      (M.onward a.callers z i (.ok (.leave (a.frame pc below z))))
  | call {g z func} (h : p.functions[func]? = some g) : Goes M p a pc below x (.call g z)
      (.ofTransition ((M.holding z.globals z.memory).callFrom
        ⟨M.id, a.frame pc below z, a.callers⟩ func) [])

theorem goes_ofValue {vs : List Slot} (r : Except Trap Slot) {i : Instr BlockJump} :
    M.Goes p a pc below x (.ofValue x vs r) (M.onward a.callers x i
      (match r with
        | .ok v => .ok (.next ((a.frame pc below x).withOperands (v :: (vs ++ below))))
        | .error t => .error (.trap t))) := by
  cases r with
  | ok v => exact .next
  | error t => exact .trap

theorem Loads.goes_ofUpdate (hM : M.Loads p) {vs : List Slot} {op : Memory.Update Unit}
    {m : Memory} (hop : op.TrapsClean) (hm : x.memory = some m) :
    let r := (M.holding x.globals (some m)).changeMemory M.id op
    M.Goes p a pc below x (.ofUpdate x vs (op m)) (.ofTransition
      (match (r.1.map fun () => vs ++ below, r.2) with
        | (.ok operands, s) =>
          s.resume ⟨M.id, (a.frame pc below x).withOperands operands, a.callers⟩
        | (.error e, s) => s.finish (.error e)) []) := by
  obtain ⟨locals, operands, globals, memory⟩ := x
  obtain rfl : memory = some m := hm
  simp only [hM.changeMemory_holding]
  cases ho : op m with
  | ok _ m' => exact .next
  | error e m' =>
    obtain ⟨rfl, rfl⟩ := hop m e m' ho
    exact .trap

theorem goes_setLocal {k : Nat} {v : Slot} {vs : List Slot} {i : Instr BlockJump}
    (hk : k < x.locals.size) :
    M.Goes p a pc below x
      (.next { x with locals := x.locals.setIfInBounds k v, operands := vs })
      (M.onward a.callers x i
        (Frame.exec.setLocal (a.frame pc below (x.withOperands vs)) k v)) := by
  have h : Frame.exec.setLocal (a.frame pc below (x.withOperands vs)) k v = .ok (.next
      (a.frame pc below { x with locals := x.locals.setIfInBounds k v, operands := vs })) := if_pos hk
  rw [h]
  exact .next

/-- What an instruction does that needs no more than its frame. -/
theorem goes_inside {i : Instr Empty} {act : Action} (hi : ¬i.NeedsStore)
    (hact : p.act i x = some act) :
    M.Goes p a p₁ below x act
      (M.onward a.callers x i.embed ((a.frame p₁ below x).exec pc i.embed)) := by
  obtain ⟨locals, operands, globals, memory⟩ := x
  cases i with
  | call | callIndirect | globalGet | globalSet | load | store | memorySize | memoryGrow
  | memoryCopy | memoryFill => exact absurd trivial hi
  | block b | loop b | ifThen b => exact b.elim
  | elseMark | endMark => cases hact
  | unreachable =>
    cases hact
    exact .trap
  | nop | const =>
    cases hact
    exact .next
  | br depth =>
    cases hact
    exact .branch
  | brIf depth =>
    cases operands with
    | nil => cases hact
    | cons c vs =>
      cases hact
      simp only [Instr.embed, Instr.map, Frame.exec, Activation.frame, List.cons_append]
      split
      · exact .branch
      · exact .next
  | brTable targets default =>
    cases operands with
    | nil => cases hact
    | cons k vs =>
      cases hact
      exact .branch
  | ret =>
    cases hact
    exact .ret
  | drop =>
    cases operands with
    | nil => cases hact
    | cons v vs =>
      cases hact
      exact .next
  | select type =>
    obtain _ | ⟨c, _ | ⟨b, _ | ⟨a, vs⟩⟩⟩ := operands
    · cases hact
    · cases hact
    · cases hact
    · cases hact
      exact .next
  | localGet k =>
    simp only [Program.act, Option.map_eq_some_iff] at hact
    obtain ⟨v, hv, rfl⟩ := hact
    simp only [Instr.embed, Instr.map, Frame.exec, Activation.frame, hv]
    exact .next
  | localSet k | localTee k =>
    cases operands with
    | nil => cases hact
    | cons v vs =>
      simp only [Program.act] at hact
      split at hact
      · next hk =>
        cases hact
        exact goes_setLocal hk
      · cases hact
  | numeric op =>
    cases op with
    | unary op =>
      cases operands with
      | nil => cases hact
      | cons v vs =>
        cases hact
        exact goes_ofValue (op.eval v)
    | binary op =>
      obtain _ | ⟨w, _ | ⟨v, vs⟩⟩ := operands
      · cases hact
      · cases hact
      · cases hact
        exact goes_ofValue (op.eval v w)

/-- The callee of an indirect call is looked up in the table, and has to be of the expected type. -/
theorem Loads.goes_callIndirect (hM : M.Loads p) {type table : Nat} {act : Action}
    (hact : p.act (.callIndirect type table) x = some act) :
    M.Goes p a pc below x act (M.onward a.callers x (.callIndirect type table)
      (.ok (.outside (a.frame pc below x)))) := by
  obtain ⟨locals, _ | ⟨k, vs⟩, globals, memory⟩ := x
  · cases hact
  simp only [Program.act] at hact
  simp only [onward, Store.execOutside, Store.tableEntry, Activation.frame, List.cons_append,
    hM.getElem?_holding, hM.table_eq, hM.types_eq]
  rcases hslot : p.table[k.toUInt32.toNat]? with _ | _ | func
  · simp only [hslot] at hact ⊢
    cases hact
    exact .trap
  · simp only [hslot] at hact ⊢
    cases hact
    exact .trap
  · simp only [hslot] at hact ⊢
    rcases hg : p.functions[func]? with _ | g
    · simp only [hg, reduceCtorEq] at hact
    obtain ⟨f, entry, stop, after, hentry, -, -⟩ := hM.entry func g hg
    rcases ht : p.types[type]? with _ | t
    · simp only [hg, ht, reduceCtorEq] at hact
    simp only [hg, ht, Option.some.injEq] at hact
    simp only [hentry]
    by_cases heq : g.type = t
    · rw [if_pos heq] at hact
      rw [if_pos (show (Callable.code g.type entry g.declared).type = t from heq)]
      cases hact
      exact .call hg
    · rw [if_neg heq] at hact
      rw [if_neg (show ¬(Callable.code g.type entry g.declared).type = t from heq)]
      cases hact
      exact .trap

/-- What an instruction does that the frame leaves to the store. -/
theorem Loads.goes_outside (hM : M.Loads p) {i : Instr Empty} {act : Action} (hi : i.NeedsStore)
    (hact : p.act i x = some act) :
    M.Goes p a pc below x act
      (M.onward a.callers x i.embed (.ok (.outside (a.frame pc below x)))) := by
  cases i with
  | callIndirect type table => exact hM.goes_callIndirect hact
  | call func =>
    simp only [Program.act, Option.map_eq_some_iff] at hact
    obtain ⟨g, hg, rfl⟩ := hact
    exact .call hg
  | globalGet k =>
    simp only [Program.act, Option.map_eq_some_iff] at hact
    obtain ⟨v, hv, rfl⟩ := hact
    simp only [Instr.embed, Instr.map, onward, Store.execOutside, Store.access,
      hM.getGlobal_holding hv]
    exact .next
  | globalSet k =>
    obtain ⟨locals, _ | ⟨v, vs⟩, globals, memory⟩ := x
    · cases hact
    · simp only [Program.act] at hact
      split at hact
      · next hk =>
        cases hact
        simp only [Instr.embed, Instr.map, onward, Store.execOutside, Store.access,
          Activation.frame, List.cons_append, hM.setGlobal_holding hk]
        exact .next
      · cases hact
  | load op arg =>
    obtain ⟨locals, _ | ⟨ptr, vs⟩, globals, memory⟩ := x
    · cases hact
    · simp only [Program.act, Option.map_eq_some_iff] at hact
      obtain ⟨m, rfl, rfl⟩ := hact
      simp only [Instr.embed, Instr.map, onward, Store.execOutside, Store.access,
        Activation.frame, List.cons_append, hM.readMemory_holding]
      cases hr : m.load (1 <<< op.logWidth) ptr.toUInt32 arg.offset with
      | ok n => exact .next
      | error e =>
        obtain rfl := Memory.eq_of_load_eq_error hr
        exact .trap
  | store op arg =>
    obtain ⟨locals, _ | ⟨v, _ | ⟨ptr, vs⟩⟩, globals, memory⟩ := x
    · cases hact
    · cases hact
    · simp only [Program.act, Option.map_eq_some_iff] at hact
      obtain ⟨m, rfl, rfl⟩ := hact
      exact hM.goes_ofUpdate (x := ⟨locals, v :: ptr :: vs, globals, some m⟩)
        (Memory.trapsClean_store _ _ _ _) rfl
  | memoryCopy =>
    obtain ⟨locals, _ | ⟨len, _ | ⟨src, _ | ⟨dst, vs⟩⟩⟩, globals, memory⟩ := x
    · cases hact
    · cases hact
    · cases hact
    · simp only [Program.act, Option.map_eq_some_iff] at hact
      obtain ⟨m, rfl, rfl⟩ := hact
      exact hM.goes_ofUpdate (x := ⟨locals, len :: src :: dst :: vs, globals, some m⟩)
        (Memory.trapsClean_copy _ _ _) rfl
  | memoryFill =>
    obtain ⟨locals, _ | ⟨len, _ | ⟨value, _ | ⟨dst, vs⟩⟩⟩, globals, memory⟩ := x
    · cases hact
    · cases hact
    · cases hact
    · simp only [Program.act, Option.map_eq_some_iff] at hact
      obtain ⟨m, rfl, rfl⟩ := hact
      exact hM.goes_ofUpdate (x := ⟨locals, len :: value :: dst :: vs, globals, some m⟩)
        (Memory.trapsClean_fill _ _ _) rfl
  | memorySize =>
    obtain ⟨locals, operands, globals, memory⟩ := x
    simp only [Program.act, Option.map_eq_some_iff] at hact
    obtain ⟨m, rfl, rfl⟩ := hact
    simp only [Instr.embed, Instr.map, onward, Store.execOutside, Store.access,
      hM.readMemory_holding]
    exact .next
  | memoryGrow =>
    obtain ⟨locals, _ | ⟨n, vs⟩, globals, memory⟩ := x
    · cases hact
    · simp only [Program.act, Option.map_eq_some_iff] at hact
      obtain ⟨m, rfl, rfl⟩ := hact
      simp only [Instr.embed, Instr.map, onward, Store.execOutside, Store.access,
        Activation.frame, List.cons_append, hM.changeMemory_holding]
      exact .next
  | _ => exact hi.elim

/-- **The machine does what the instruction does**, in one step. -/
theorem Loads.goes_of_act (hM : M.Loads p) {i : Instr Empty} {act : Action}
    (hact : p.act i x = some act)
    (hf : Instr.fetch M.inst.module.bytes M.inst.sideTable pc = some (i.embed, p₁)) :
    M.Goes p a p₁ below x act (M.running a pc below x).step := by
  rw [hM.step_running hf]
  by_cases hi : i.NeedsStore
  · rw [Frame.exec_of_needsStore hi]
    exact hM.goes_outside hi hact
  · exact goes_inside hi hact

end Machine

end Structured

end WasmEngine
