import WasmEngine.Proofs.Safety.Config

/-!
# Proofs/Safety/Access — the instructions on globals, memory and the table

Each finds the global, the memory or the function that its typing rule promises.  What remains are
errors of execution: accesses out of bounds, memory that is lent, and indirect calls that trap.
-/

namespace WasmEngine

variable {σ α : Type}

namespace Memory

variable {m : Memory} {ptr offset : UInt32}

/-- An access out of bounds is a trap. -/
theorem isRuntime_of_effective {width : UInt64} {e : Error}
    (h : m.effective ptr offset width = .error e) : e.IsRuntime := by
  simp only [effective] at h
  split at h
  · cases h
    trivial
  · cases h

/-- A load that fails traps: within bounds the bytes are there. -/
theorem isRuntime_of_load {n : Nat} {e : Error} (h : m.load n ptr offset = .error e) :
    e.IsRuntime := by
  unfold load at h
  split at h
  · cases h
  · next heq =>
    cases h
    exact isRuntime_of_effective heq

/-- An update of memory fails with errors of execution only. -/
def Update.IsRuntime (op : Update α) : Prop :=
  ∀ m e m', op m = .error e m' → e.IsRuntime

/-- So does a store that fails. -/
theorem isRuntime_store (n : Nat) (ptr offset : UInt32) (v : Nat) :
    (store n ptr offset v).IsRuntime := by
  intro m e m' h
  unfold store at h
  split at h
  · cases h
  · next heq =>
    cases h
    exact isRuntime_of_effective heq

/-- So does a fill that fails. -/
theorem isRuntime_fill (ptr : UInt32) (value : UInt8) (len : UInt32) :
    (fill ptr value len).IsRuntime := by
  intro m e m' h
  unfold fill at h
  split at h
  · cases h
  · next heq =>
    cases h
    exact isRuntime_of_effective heq

/-- So does a copy that fails, at its source or at its destination. -/
theorem isRuntime_copy (dst src len : UInt32) : (copy dst src len).IsRuntime := by
  intro m e m' h
  unfold copy at h
  split at h
  · next heq =>
    cases h
    exact isRuntime_of_effective heq
  · split at h
    · next heq =>
      cases h
      exact isRuntime_of_effective heq
    · cases h

end Memory

namespace Store

variable {s : Store σ} {id : InstanceId} {sh : Shape σ}

/-- Growth does not fail: it tells that it could not grow. -/
theorem isRuntime_growMemory (delta : Slot) : (growMemory delta).IsRuntime := nofun

/-- A global that the module declares is there to be read. -/
theorem exists_getGlobal {index : Nat} (h : s.shapes[id]? = some sh) (hi : index < sh.globalCount) :
    ∃ v, s.getGlobal id index = .ok v := by
  obtain ⟨inst, hinst, rfl⟩ := exists_of_shapes h
  have hi : index < inst.globals.size := hi
  exact ⟨inst.globals[index], by simp [getGlobal, hinst, hi]⟩

/-- A global that the module declares is there to be written. -/
theorem setGlobal_eq_ok {index : Nat} (v : Slot) (h : s.shapes[id]? = some sh)
    (hi : index < sh.globalCount) : (s.setGlobal id index v).1 = .ok () := by
  obtain ⟨inst, hinst, rfl⟩ := exists_of_shapes h
  have hi : index < inst.globals.size := hi
  simp [setGlobal, withInstance_eq, hinst, hi]

/-- A memory can be viewed unless it is borrowed exclusively. -/
theorem viewMemory?_eq {inst : Instance σ} {memory : Memory} (h : s.instances[id]? = some inst)
    (hm : inst.memory = some memory) :
    s.viewMemory? id = some (match inst.loan with
      | .shared _ => .ok memory
      | .exclusive => .error .memoryBorrowed) := by
  simp only [viewMemory?, h, hm, Option.bind_eq_bind, Option.bind_some]
  cases inst.loan <;> rfl

/-- A memory can be changed only while nobody has borrowed it. -/
theorem updateMemory?_fst {inst : Instance σ} {memory : Memory} {u : Memory.Update α}
    (h : s.instances[id]? = some inst) (hm : inst.memory = some memory) :
    (s.updateMemory? id u).1 = some (if inst.loan = .shared 0 then
      match u memory with
      | .ok a _ => .ok a
      | .error e _ => .error e else .error .memoryBorrowed) := by
  simp only [updateMemory?, withInstance_eq, h, hm]
  split
  · cases u memory <;> rfl
  · rfl

/-- Where there is a memory, reading it fails as the access does or because it is borrowed. -/
theorem isRuntime_of_readMemory {f : Memory → Except Error α} {e : Error}
    (h : s.shapes[id]? = some sh) (hm : sh.hasMemory = true)
    (hf : ∀ m e, f m = .error e → e.IsRuntime) (he : s.readMemory id f = .error e) :
    e.IsRuntime := by
  obtain ⟨inst, hinst, rfl⟩ := exists_of_shapes h
  obtain ⟨memory, hmemory⟩ := Option.isSome_iff_exists.1 hm
  rw [readMemory, viewMemory?_eq hinst hmemory] at he
  cases hl : inst.loan with
  | shared n =>
    rw [hl] at he
    exact hf _ _ he
  | exclusive =>
    rw [hl] at he
    cases he
    trivial

/-- Where there is a memory, changing it fails as the operation does or because it is borrowed. -/
theorem isRuntime_of_changeMemory {op : Memory.Update α} {e : Error}
    (h : s.shapes[id]? = some sh) (hm : sh.hasMemory = true) (hop : op.IsRuntime)
    (he : (s.changeMemory id op).1 = .error e) : e.IsRuntime := by
  obtain ⟨inst, hinst, rfl⟩ := exists_of_shapes h
  obtain ⟨memory, hmemory⟩ := Option.isSome_iff_exists.1 hm
  have hfst := updateMemory?_fst (u := op) hinst hmemory
  unfold changeMemory at he
  split at he
  · next heq =>
    rw [heq] at hfst
    obtain rfl := Option.some.inj hfst
    simp only at he
    split at he
    · split at he
      · cases he
      · next hrun =>
        cases he
        exact hop _ _ _ hrun
    · cases he
      trivial
  · next heq =>
    rw [heq] at hfst
    cases hfst

/-- What an access may come to when it should leave `n` operands. -/
def AccessSound (n : Nat) (outcome : Except Error (List Slot)) : Prop :=
  match outcome with
  | .ok operands => operands.length = n
  | .error e => e.IsRuntime

/-- An access that leaves as many operands as told, and fails only as a program may, is sound. -/
theorem accessSound_map {n : Nat} {outcome : Except Error α} {g : α → List Slot}
    (hg : ∀ a, (g a).length = n) (he : ∀ e, outcome = .error e → e.IsRuntime) :
    AccessSound n (outcome.map g) := by
  cases outcome with
  | ok a => exact hg a
  | error e => exact he e rfl

/-- **An access finds its global or its memory**, and leaves as many operands as its type says. -/
theorem access_sound {f : Function} {types : LabelTypes} {j : Instr Empty}
    {ps qs : List OperandType} {operands : List Slot} (hs : s.shapes[id]? = some sh)
    (hsound : sh.IsSound) (hj : j.NeedsStore) (hcall : ∀ func, j ≠ .call func)
    (hcall' : ∀ type table, j ≠ .callIndirect type table)
    (ha : HasArrow ⟨sh.module, f⟩ types j ps qs) (hn : ps.length ≤ operands.length) :
    AccessSound (operands.length - ps.length + qs.length)
      (s.access id j.embed operands).1 := by
  obtain ⟨args, rest, rfl, hargs⟩ : ∃ args rest, operands = args ++ rest ∧
      args.length = ps.length :=
    ⟨operands.take ps.length, operands.drop ps.length, (List.take_append_drop ..).symm, by
      rw [List.length_take]; omega⟩
  have hlen : (args ++ rest).length - ps.length + qs.length = rest.length + qs.length := by
    rw [List.length_append]; omega
  rw [hlen]
  have hglobal {index : Nat} {g : Global} (hg : sh.module.globals[index]? = some g) :
      index < sh.globalCount := hsound.globals ▸ (Array.getElem?_eq_some_iff.1 hg).1
  have hmem (hm : sh.module.memory.isSome = true) : sh.hasMemory = true := hsound.memory.trans hm
  cases ha with
  | call => exact absurd rfl (hcall _)
  | callIndirect => exact absurd rfl (hcall' _ _)
  | globalGet hg =>
    obtain rfl := List.length_eq_zero_iff.1 hargs
    obtain ⟨v, hv⟩ := exists_getGlobal hs (hglobal hg)
    simp only [access, Instr.embed, Instr.map, List.nil_append, hv]
    rfl
  | globalSet hg hm =>
    obtain ⟨v, rfl⟩ := List.length_eq_one_iff.1 hargs
    have hv := setGlobal_eq_ok v hs (hglobal hg)
    simp only [access, Instr.embed, Instr.map, List.cons_append, List.nil_append, hv]
    rfl
  | load hm _ =>
    obtain ⟨ptr, rfl⟩ := List.length_eq_one_iff.1 hargs
    exact accessSound_map (fun _ => rfl) fun _ =>
      isRuntime_of_readMemory hs (hmem hm) fun _ _ => Memory.isRuntime_of_load
  | store hm _ =>
    obtain ⟨v, ptr, rfl⟩ := List.length_eq_two.1 hargs
    exact accessSound_map (fun _ => rfl) fun _ =>
      isRuntime_of_changeMemory hs (hmem hm) (Memory.isRuntime_store _ _ _ _)
  | memorySize hm =>
    obtain rfl := List.length_eq_zero_iff.1 hargs
    exact accessSound_map (fun _ => rfl) fun _ =>
      isRuntime_of_readMemory hs (hmem hm) fun _ _ h => by cases h
  | memoryGrow hm =>
    obtain ⟨delta, rfl⟩ := List.length_eq_one_iff.1 hargs
    exact accessSound_map (fun _ => rfl) fun _ =>
      isRuntime_of_changeMemory hs (hmem hm) (isRuntime_growMemory delta)
  | memoryCopy hm =>
    obtain ⟨len, src, dst, rfl⟩ := List.length_eq_three.1 hargs
    exact accessSound_map (fun _ => rfl) fun _ =>
      isRuntime_of_changeMemory hs (hmem hm) (Memory.isRuntime_copy _ _ _)
  | memoryFill hm =>
    obtain ⟨len, value, dst, rfl⟩ := List.length_eq_three.1 hargs
    exact accessSound_map (fun _ => rfl) fun _ =>
      isRuntime_of_changeMemory hs (hmem hm) (Memory.isRuntime_fill _ _ _)
  | _ => exact hj.elim

/-- **An indirect call finds a function of its type**, unless it traps. -/
theorem tableEntry_sound {type n : Nat} {sig : Signature} (hs : s.shapes[id]? = some sh)
    (hsound : sh.IsSound) (hsig : sh.module.types[type]? = some sig) :
    match s.tableEntry id type n with
    | .ok func => ∃ callee, sh.functions[func]? = some callee ∧ callee.type = sig
    | .error e => e.IsRuntime := by
  obtain ⟨inst, hinst, rfl⟩ := exists_of_shapes hs
  have hsig : inst.module.types[type]? = some sig := hsig
  simp only [tableEntry, hinst]
  cases hslot : inst.table[n]? with
  | none => trivial
  | some entry =>
    cases entry with
    | none => trivial
    | some func =>
      have hlt : func < inst.functions.size := hsound.table n func hslot
      simp only [Array.getElem?_eq_getElem hlt, hsig]
      split
      · next heq =>
        split at heq
        · next htype =>
          cases heq
          exact ⟨_, Array.getElem?_eq_getElem hlt, htype⟩
        · cases heq
      · next heq =>
        split at heq
        · cases heq
        · cases heq
          trivial

end Store

end WasmEngine
