import WasmEngine.Proofs.Loans.Borrowing
import WasmEngine.Proofs.Memory.Work

/-!
# Proofs/Loans/Held — memory that is held stays as it is

While somebody holds a shared view of a memory, calls may come and go: the memory stays what it is, and it
can be read.  What a call borrows for its time is counted: the views are those that were held at first and
those that the invocations under way hold (`Config.isLent_run`).
-/

namespace WasmEngine

variable {σ α : Type} {T : Memory → Memory → Prop}

/-! ## Programs of any kind -/

theorem HostM.obeys_any (p : HostM σ α) : p.Obeys fun _ _ => True := by
  induction p with
  | done a => trivial
  | getState k ih => exact ih
  | setState s k ih => exact ih
  | viewMemory k ih => exact ih
  | updateMemory op k ih => exact ⟨fun _ => trivial, ih⟩
  | call target callee args holds k ih => exact ih
  | setFuel id fuel k ih => exact ih

theorem Store.obeys_any (s : Store σ) : s.Obeys fun _ _ => True := by
  intro i inst func type ref binding hinst hf
  cases binding with
  | func f => exact fun site args => HostM.obeys_any _
  | hook h => exact fun _ _ _ => trivial

/-- Any configuration does with memories what it likes. -/
theorem Config.obeys_any (c : Config σ) : c.Obeys fun _ _ => True := by
  refine ⟨c.store.obeys_any, fun i inst func type ref f hinst hf site args => HostM.obeys_any _, ?_,
    fun p hp => ?_⟩
  · cases c.control with
    | host call program => exact HostM.obeys_any program
    | _ => trivial
  · cases p with
    | host call results k => exact fun r => HostM.obeys_any _
    | _ => trivial

namespace Store

variable {s s' t : Store σ} {id : InstanceId} {m : Memory} {k : Nat} {hold : Hold}
  {holds held held' : List Hold}

/-- The memory of an instance and how it is lent. -/
def IsLent (s : Store σ) (id : InstanceId) (m : Memory) (loan : Loan) : Prop :=
  ∃ inst, s.instances[id]? = some inst ∧ inst.memory = some m ∧ inst.loan = loan

/-- The number of shared views of the memory of an instance among things that are borrowed. -/
abbrev views (id : InstanceId) (holds : List Hold) : Nat := holds.count (.memory id false)

theorem views_cons (id : InstanceId) (hold : Hold) (holds : List Hold) :
    views id (hold :: holds) = views id [hold] + views id holds :=
  (List.count_append : ([hold] ++ holds).count (.memory id false) = _)

theorem IsLent.keeps {loan : Loan} (h : s.IsLent id m loan) (hloan : loan ≠ .shared 0)
    (hs : s.Keeps T s') : s'.IsLent id m loan := by
  obtain ⟨inst, hinst, hm, rfl⟩ := h
  obtain ⟨inst', hinst', hkeeps⟩ := hs.instances hinst
  exact ⟨inst', hinst', (hkeeps.memory_eq hloan).trans hm, hkeeps.loan⟩

/-! ## Borrowing and giving back -/

theorem views_memory (id other : InstanceId) (exclusive : Bool) :
    views id [.memory other exclusive] = if other = id ∧ exclusive = false then 1 else 0 := by
  simp [views, List.count_singleton]

/-- What happens to other instances is no matter. -/
theorem IsLent.withInstance_of_ne {missing : α} {other : InstanceId} {loan : Loan}
    {f : Instance σ → α × Instance σ} (h : s.IsLent id m loan) (ho : id ≠ other) :
    (s.withInstance other missing f).2.IsLent id m loan := by
  obtain ⟨inst, hinst, hm, hloan⟩ := h
  refine ⟨inst, ?_, hm, hloan⟩
  rw [getElem?_withInstance, if_neg ho, hinst]

theorem IsLent.acquire_hook {loan : Loan} (h : s.IsLent id m loan) (hook : Nat) :
    (s.acquire (.hook hook)).2.IsLent id m loan := by
  obtain ⟨inst, hinst, hm, hloan⟩ := h
  simp only [Store.acquire]
  split <;> exact ⟨inst, hinst, hm, hloan⟩

/-- **Who borrows is counted.** -/
theorem IsLent.acquire (h : s.IsLent id m (.shared (k + 1))) (hok : (s.acquire hold).1 = .ok ()) :
    (s.acquire hold).2.IsLent id m (.shared (k + 1 + views id [hold])) := by
  cases hold with
  | hook hook => exact h.acquire_hook hook
  | memory other exclusive =>
    rw [acquire_memory] at hok ⊢
    rw [views_memory]
    by_cases ho : other = id
    · obtain ⟨inst, hinst, hm, hloan⟩ := h
      subst ho
      cases exclusive with
      | true => simp [Instance.lend, withInstance_eq, hinst, hm, hloan] at hok
      | false =>
        refine ⟨(inst.lend false).2, ?_, ?_, ?_⟩
        · rw [getElem?_withInstance, if_pos rfl, hinst, Option.map_some]
        · simp [Instance.lend, hm, hloan]
        · simp [Instance.lend, hm, hloan]
    · rw [if_neg fun h => ho h.1]
      exact h.withInstance_of_ne (Ne.symm ho)

/-- **Who gives back is no longer counted.** -/
theorem IsLent.release (h : s.IsLent id m (.shared (k + 1 + views id [hold]))) :
    (s.release hold).IsLent id m (.shared (k + 1)) := by
  cases hold with
  | hook h' => exact h
  | memory other exclusive =>
    rw [release_memory]
    rw [views_memory] at h
    by_cases ho : other = id
    · obtain ⟨inst, hinst, hm, hloan⟩ := h
      subst ho
      refine ⟨inst.takeBack exclusive, ?_, ?_, ?_⟩
      · rw [getElem?_modifyInstance, if_pos rfl, hinst, Option.map_some]
      all_goals cases exclusive <;> simp_all [Instance.takeBack]
    · rw [if_neg fun h => ho h.1] at h
      exact h.withInstance_of_ne (Ne.symm ho)

theorem IsLent.acquireAll (h : s.IsLent id m (.shared (k + 1)))
    (hok : (s.acquireAll holds).1 = .ok ()) :
    (s.acquireAll holds).2.IsLent id m (.shared (k + 1 + views id holds)) := by
  induction holds generalizing s k with
  | nil => exact h
  | cons hold holds ih =>
    obtain ⟨hone, hrest, heq⟩ := acquireAll_cons_of_ok hok
    have hheld : (s.acquire hold).2.IsLent id m (.shared (k + views id [hold] + 1)) := by
      rw [Nat.add_right_comm]
      exact h.acquire hone
    rw [heq, views_cons, ← Nat.add_assoc, Nat.add_right_comm k]
    exact ih hheld hrest

theorem IsLent.releaseAll (h : s.IsLent id m (.shared (k + 1 + views id holds))) :
    (s.releaseAll holds).IsLent id m (.shared (k + 1)) := by
  induction holds generalizing s with
  | nil => exact h
  | cons hold holds ih =>
    have hheld : s.IsLent id m (.shared (k + views id holds + 1 + views id [hold])) := by
      rwa [Nat.add_right_comm k, Nat.add_right_comm, Nat.add_assoc, ← views_cons]
    refine ih (s := s.release hold) ?_
    rw [Nat.add_right_comm]
    exact hheld.release

/-! ## Views that are held -/

/-- Somebody holds a view of the memory of an instance: an exclusive one or not. -/
inductive IsHeld (s : Store σ) (id : InstanceId) (m : Memory) : Bool → Prop where
  | shared {views : Nat} (h : s.IsLent id m (.shared (views + 1))) : IsHeld s id m false
  | exclusive (h : s.IsLent id m .exclusive) : IsHeld s id m true

/-- Who borrows something else lets others keep what they hold. -/
theorem IsHeld.acquire {exclusive : Bool} (h : s.IsHeld id m exclusive)
    (hok : (s.acquire hold).1 = .ok ()) : (s.acquire hold).2.IsHeld id m exclusive := by
  cases h with
  | shared h =>
    have hlent := h.acquire hok
    rw [Nat.add_right_comm] at hlent
    exact .shared hlent
  | exclusive h =>
    cases hold with
    | hook hook => exact .exclusive (h.acquire_hook hook)
    | memory other exclusive =>
      rw [acquire_memory] at hok ⊢
      by_cases ho : other = id
      · obtain ⟨inst, hinst, hm, hloan⟩ := h
        subst ho
        cases exclusive <;> simp [Instance.lend, withInstance_eq, hinst, hm, hloan] at hok
      · exact .exclusive (h.withInstance_of_ne (Ne.symm ho))

theorem IsHeld.acquireAll {exclusive : Bool} (h : s.IsHeld id m exclusive)
    (hok : (s.acquireAll holds).1 = .ok ()) : (s.acquireAll holds).2.IsHeld id m exclusive := by
  induction holds generalizing s with
  | nil => exact h
  | cons hold holds ih =>
    obtain ⟨hone, hrest, heq⟩ := acquireAll_cons_of_ok hok
    rw [heq]
    exact ih (h.acquire hone) hrest

theorem isHeld_acquire {exclusive : Bool} (hm : s.instances[id]?.bind (·.memory) = some m)
    (hok : (s.acquire (.memory id exclusive)).1 = .ok ()) :
    (s.acquire (.memory id exclusive)).2.IsHeld id m exclusive := by
  obtain ⟨inst, hinst, hm⟩ := Option.bind_eq_some_iff.1 hm
  rw [acquire_memory] at hok ⊢
  have hlent : (s.withInstance id (.ok ()) (·.lend exclusive)).2.instances[id]? =
      some (inst.lend exclusive).2 := by
    rw [getElem?_withInstance, if_pos rfl, hinst, Option.map_some]
  rw [withInstance_eq, hinst] at hok
  obtain ⟨_, _, _, _, _, _, memory, loan, _⟩ := inst
  obtain rfl : memory = some m := hm
  obtain (_ | views) | _ := loan
  · cases exclusive
    · exact .shared ⟨_, hlent, rfl, rfl⟩
    · exact .exclusive ⟨_, hlent, rfl, rfl⟩
  · cases exclusive
    · exact .shared ⟨_, hlent, rfl, rfl⟩
    · cases hok
  · cases exclusive <;> cases hok

/-- Borrowing changes the loan of an instance and nothing else. -/
theorem exists_of_acquireAll {inst : Instance σ} (hinst : s.instances[id]? = some inst)
    (holds : List Hold) :
    ∃ loan, (s.acquireAll holds).2.instances[id]? = some { inst with loan } := by
  have hview : (s.acquireAll holds).2.view ({ · with loan := .shared 0 }) =
      s.view ({ · with loan := .shared 0 }) := view_acquireAll (fun _ _ => rfl) holds
  have hid := congrArg (fun v => v.1[id]?) hview
  simp only [view, Array.getElem?_map, hinst, Option.map_some] at hid
  obtain ⟨inst', hinst', heq⟩ := Option.map_eq_some_iff.1 hid
  have hloan : inst' = { inst with loan := inst'.loan } :=
    congrArg (fun i => { i with loan := inst'.loan }) heq
  exact ⟨inst'.loan, hinst'.trans (congrArg some hloan)⟩

/-- **Who has borrowed a view holds it.** -/
theorem isHeld_acquireAll {exclusive : Bool} (hm : s.instances[id]?.bind (·.memory) = some m)
    (hok : (s.acquireAll holds).1 = .ok ()) (hmem : .memory id exclusive ∈ holds) :
    (s.acquireAll holds).2.IsHeld id m exclusive := by
  induction holds generalizing s with
  | nil => cases hmem
  | cons hold holds ih =>
    obtain ⟨hone, hrest, heq⟩ := acquireAll_cons_of_ok hok
    rw [heq]
    obtain rfl | hmem := List.mem_cons.1 hmem
    · exact (isHeld_acquire hm hone).acquireAll hrest
    · refine ih ?_ hrest hmem
      have hview : (s.acquire hold).2.view Instance.memory = s.view Instance.memory :=
        view_acquire (fun _ _ => rfl) hold
      have hid := congrArg (fun v => v.1[id]?) hview
      obtain ⟨inst, hinst, hm⟩ := Option.bind_eq_some_iff.1 hm
      simp only [view, Array.getElem?_map, hinst, Option.map_some] at hid
      obtain ⟨inst', hinst', hmemory⟩ := Option.map_eq_some_iff.1 hid
      rw [hinst']
      exact hmemory.trans hm

/-! ## Runs -/

/-- **One step leaves the memory as it is**, and counts who borrows it. -/
theorem Passage.isLent (hs : s.Passage T held s' held')
    (h : s.IsLent id m (.shared (k + 1 + views id held))) :
    s'.IsLent id m (.shared (k + 1 + views id held')) := by
  have hlent {n : Nat} : Loan.shared (k + 1 + n) ≠ .shared 0 := by
    rw [Nat.add_right_comm]
    nofun
  cases hs with
  | work hkeeps => exact h.keeps hlent hkeeps
  | @borrow holds _ hok hkeeps =>
    have hborrowed : (s.acquireAll holds).2.IsLent id m
        (.shared (k + 1 + views id (holds ++ held))) := by
      rw [Nat.add_right_comm] at h
      have hall := h.acquireAll hok
      rwa [views, List.count_append, Nat.add_comm (List.count _ holds), ← Nat.add_assoc,
        Nat.add_right_comm k]
    exact hborrowed.keeps hlent hkeeps
  | conflict herror => rwa [acquireAll_of_error herror]
  | @giveBack holds _ s₁ hheld hkeeps =>
    have hs₁ := h.keeps hlent hkeeps
    rw [hheld, views, List.count_append, Nat.add_comm (List.count _ holds), ← Nat.add_assoc,
      Nat.add_right_comm k] at hs₁
    rw [Nat.add_right_comm]
    exact hs₁.releaseAll

end Store

/-- **Memory that is held stays as it is in every run**, whatever is borrowed on the way. -/
theorem Config.isLent_run {c : Config σ} {id : InstanceId} {m : Memory} {k : Nat}
    (h : c.store.IsLent id m (.shared (k + 1 + Store.views id c.held))) (n : Nat) :
    (run n c).store.IsLent id m (.shared (k + 1 + Store.views id (run n c).held)) :=
  run_induction
    (P := fun c => c.store.IsLent id m (.shared (k + 1 + Store.views id c.held)))
    (fun c h => (c.obeys_any.passage Memory.isWorkOrder_any).isLent h) h n

namespace Store

variable {s t u : Store σ} {id : InstanceId} {m : Memory} {k : Nat} {holds : List Hold}

/-! ## Calls -/

/-- The calls that an embedder makes, and the stores that they leave. -/
inductive CallStep (s : Store σ) : Store σ → Prop where
  | invoke {i : InstanceId} {name : String} {args : List Value} {budget : Nat}
      {result : Except Error (List Value)} {t : Store σ}
      (h : s.invoke i name args budget = some (result, t)) : CallStep s t
  | execute {i : InstanceId} {name : String} {args : List Value} {budget : Nat}
      {result : Except Error Outcome} {t : Store σ}
      (h : s.execute i name args budget = some (result, t)) : CallStep s t
  | callTyped {i : InstanceId} {f : TypedFunc} {args : List Value} {budget : Nat}
      {result : Except Error (List Value)} {t : Store σ}
      (h : s.callTyped i f args budget = some (result, t)) : CallStep s t
  /-- A call with more borrowed meanwhile. -/
  | call {i : InstanceId} {callee : Callee} {args : List Value} {holds : List Hold} {budget : Nat}
      {result : Except Error (List Value)} {t : Store σ}
      (h : s.call i callee args holds budget = some (result, t)) : CallStep s t

/-- The stores that calls lead to. -/
inductive CallsTo (s : Store σ) : Store σ → Prop where
  | refl : CallsTo s s
  | step {t t' : Store σ} (h : CallsTo s t) (hcall : t.CallStep t') : CallsTo s t'

/-- The stores that calls pass: between them, and while one of them runs. -/
inductive CallsPass (s : Store σ) : Store σ → Prop where
  | between {t : Store σ} (h : s.CallsTo t) : CallsPass s t
  | during {t : Store σ} (h : s.CallsTo t) (i : InstanceId) (callee : Callee) (args : List Value)
      {holds : List Hold} (hholds : (t.acquireAll holds).1 = .ok ()) (n : Nat) :
      CallsPass s (Config.run n (t.callConfig i callee args holds)).store

/-- Each of these calls is one of a function of an instance. -/
theorem CallStep.exists_call (h : s.CallStep t) :
    ∃ i callee args holds budget result, s.call i callee args holds budget = some (result, t) := by
  cases h with
  | invoke h => exact ⟨_, _, _, _, _, _, h⟩
  | execute h =>
    obtain ⟨⟨result, t⟩, h, heq⟩ := Option.map_eq_some_iff.1 h
    cases heq
    exact ⟨_, _, _, _, _, _, h⟩
  | callTyped h => exact ⟨_, _, _, _, _, _, h⟩
  | call h => exact ⟨_, _, _, _, _, _, h⟩

/-- **During a call the memory is held** by those who held it before and by the call. -/
theorem IsLent.run_callConfig (h : s.IsLent id m (.shared (k + 1))) (i : InstanceId)
    (callee : Callee) (args : List Value) (hholds : (s.acquireAll holds).1 = .ok ()) (n : Nat) :
    (Config.run n (s.callConfig i callee args holds)).store.IsLent id m (.shared
      (k + 1 + views id (Config.run n (s.callConfig i callee args holds)).held)) := by
  refine Config.isLent_run ?_ n
  have hkeeps : (s.acquireAll holds).2.Keeps (fun _ _ => True)
      (s.callConfig i callee args holds).store :=
    keeps_invocation Memory.isWorkOrder_any (obeys_any _) ..
  have hheld : (s.callConfig i callee args holds).held = holds := List.append_nil holds
  rw [hheld]
  exact (h.acquireAll hholds).keeps (by rw [Nat.add_right_comm]; nofun) hkeeps

theorem IsLent.callStep (h : s.IsLent id m (.shared (k + 1))) (hcall : s.CallStep t) :
    t.IsLent id m (.shared (k + 1)) := by
  obtain ⟨i, callee, args, holds, budget, result, hcall⟩ := hcall.exists_call
  obtain hrefused | ⟨hholds, -⟩ := s.acquireAll_cases holds
  · rw [Store.call, hrefused] at hcall
    cases hcall
    exact h
  · obtain ⟨outcome, hout, rfl, -⟩ := of_call hholds hcall
    have hend : (Config.run budget (s.callConfig i callee args holds)).held = [] := by
      unfold Config.outcome? at hout
      split at hout
      · next hpending => rw [Config.held, hpending, List.flatMap_nil]
      · cases hout
    have hrun := h.run_callConfig i callee args hholds budget
    rwa [hend] at hrun

theorem IsLent.callsTo (h : s.IsLent id m (.shared (k + 1))) (hcalls : s.CallsTo t) :
    t.IsLent id m (.shared (k + 1)) := by
  induction hcalls with
  | refl => exact h
  | step _ hcall ih => exact ih.callStep hcall

/-- **Whatever calls come to pass, memory that is held stays held.** -/
theorem IsLent.callsPass (h : s.IsLent id m (.shared (k + 1))) (hu : s.CallsPass u) :
    ∃ n, u.IsLent id m (.shared n) := by
  cases hu with
  | between hcalls => exact ⟨_, h.callsTo hcalls⟩
  | during hcalls i callee args hholds n =>
    exact ⟨_, (h.callsTo hcalls).run_callConfig i callee args hholds n⟩

/-! ## Reading -/

/-- An instance has a memory, and it can be read. -/
structure Shows (s : Store σ) (id : InstanceId) (m : Memory) : Prop where
  memory : s.instances[id]?.bind (·.memory) = some m
  view : s.viewMemory? id = some (.ok m)
  load : ∀ op arg ptr rest, s.access id (.load op arg) (ptr :: rest) =
    ((m.load (1 <<< op.logWidth) ptr.toUInt32 arg.offset).map fun n => op.extend n :: rest, s)
  size : ∀ rest, s.access id .memorySize rest = (.ok (m.pages.toUInt64 :: rest), s)

/-- **Who holds a memory to read it does not keep others from reading.** -/
theorem IsLent.shows (h : s.IsLent id m (.shared k)) : s.Shows id m := by
  obtain ⟨inst, hinst, hm, hloan⟩ := h
  have hview : s.viewMemory? id = some (.ok m) := by
    simp [viewMemory?, hinst, hm, hloan]
  refine ⟨by rw [hinst]; exact hm, hview, fun op arg ptr rest => ?_, fun rest => ?_⟩
  · simp only [access, readMemory, hview]
  · simp only [access, readMemory, hview]
    rfl

end Store

end WasmEngine
