import WasmEngine.Proofs.Limits.Rebound

/-!
# Proofs/Loans/Borrowing — what is borrowed can be given back

Who cannot borrow changes nothing (`Store.acquireAll_of_error`), and giving back undoes borrowing
(`Store.releaseAll_acquireAll`).  The order in which several things are given back does not matter.
-/

namespace WasmEngine

variable {σ α : Type}

namespace Instance

variable {inst : Instance σ}

/-- Lends the memory of an instance, if there is one. -/
def lend (inst : Instance σ) (exclusive : Bool) : Except Error Unit × Instance σ :=
  if inst.memory.isNone then (.ok (), inst)
  else
    match inst.loan, exclusive with
    | .shared n, false => (.ok (), { inst with loan := .shared (n + 1) })
    | .shared 0, true => (.ok (), { inst with loan := .exclusive })
    | _, _ => (.error (.fault .conflictingLoan), inst)

/-- Takes back the memory of an instance. -/
def takeBack (inst : Instance σ) (exclusive : Bool) : Instance σ :=
  if inst.memory.isNone then inst
  else
    match inst.loan, exclusive with
    | .shared (n + 1), false => { inst with loan := .shared n }
    | .exclusive, true => { inst with loan := .shared 0 }
    | _, _ => inst

/-- **Lending is refused, or can be undone.** -/
theorem lend_cases (inst : Instance σ) (exclusive : Bool) :
    inst.lend exclusive = (.error (.fault .conflictingLoan), inst) ∨
      (inst.lend exclusive).1 = .ok () ∧ (inst.lend exclusive).2.takeBack exclusive = inst := by
  obtain ⟨_, _, _, _, _, _, memory, loan, _⟩ := inst
  cases memory with
  | none => exact .inr ⟨rfl, rfl⟩
  | some memory =>
    obtain (_ | n) | _ := loan
    · cases exclusive <;> exact .inr ⟨rfl, rfl⟩
    · cases exclusive
      · exact .inr ⟨rfl, rfl⟩
      · exact .inl rfl
    · cases exclusive <;> exact .inl rfl

/-- Two views may be taken back in any order. -/
theorem takeBack_comm (inst : Instance σ) (x y : Bool) :
    (inst.takeBack x).takeBack y = (inst.takeBack y).takeBack x := by
  obtain ⟨_, _, _, _, _, _, memory, loan, _⟩ := inst
  cases memory with
  | none => rfl
  | some memory =>
    obtain (_ | n) | _ := loan
    · cases x <;> cases y <;> rfl
    · cases x <;> cases y <;> first | rfl | (cases n <;> rfl)
    · cases x <;> cases y <;> rfl

end Instance

namespace Store

variable {s : Store σ} {id other : InstanceId} {hold : Hold} {holds : List Hold}

theorem acquire_memory (s : Store σ) (id : InstanceId) (exclusive : Bool) :
    s.acquire (.memory id exclusive) = s.withInstance id (.ok ()) (·.lend exclusive) := rfl

theorem release_memory (s : Store σ) (id : InstanceId) (exclusive : Bool) :
    s.release (.memory id exclusive) = s.modifyInstance id (·.takeBack exclusive) := rfl

/-- Changes of instances may be made in any order if those of one instance may. -/
theorem modifyInstance_comm {f g : Instance σ → Instance σ}
    (h : id = other → ∀ inst, g (f inst) = f (g inst)) :
    (s.modifyInstance id f).modifyInstance other g =
      (s.modifyInstance other g).modifyInstance id f := by
  refine ext_of_instances (fun i => ?_) rfl rfl rfl
  rw [getElem?_modifyInstance, getElem?_modifyInstance, getElem?_modifyInstance,
    getElem?_modifyInstance]
  by_cases hid : i = id
  · by_cases ho : i = other
    · rw [if_pos hid, if_pos ho, if_pos ho, if_pos hid, Option.map_map, Option.map_map]
      exact congrArg (Option.map · _) (funext (h (hid.symm.trans ho)))
    · rw [if_pos hid, if_neg ho, if_neg ho, if_pos hid]
  · rw [if_neg hid, if_neg hid]

theorem release_comm (s : Store σ) (x y : Hold) :
    (s.release x).release y = (s.release y).release x := by
  cases x with
  | hook h =>
    cases y with
    | hook h' => exact congrArg (fun heldHooks => { s with heldHooks }) (List.erase_comm ..)
    | memory id exclusive => rfl
  | memory id exclusive =>
    cases y with
    | hook h => rfl
    | memory other exclusive' =>
      exact modifyInstance_comm fun _ inst => inst.takeBack_comm exclusive exclusive'

/-- A change of one instance that leaves the instance as it is leaves the store as it is. -/
theorem withInstance_eq_self {missing : α} {f : Instance σ → α × Instance σ}
    (h : ∀ inst, s.instances[id]? = some inst → (f inst).2 = inst) :
    (s.withInstance id missing f).2 = s := by
  refine ext_of_instances (fun i => ?_) rfl rfl rfl
  rw [getElem?_withInstance]
  split
  · next hi =>
    subst hi
    cases hinst : s.instances[i]? with
    | none => rfl
    | some inst => exact congrArg some (h inst hinst)
  · rfl

theorem modifyInstance_withInstance {missing : α} (f : Instance σ → α × Instance σ)
    (g : Instance σ → Instance σ) :
    (s.withInstance id missing f).2.modifyInstance id g =
      (s.withInstance id missing fun inst => ((f inst).1, g (f inst).2)).2 := by
  refine ext_of_instances (fun i => ?_) rfl rfl rfl
  rw [getElem?_modifyInstance, getElem?_withInstance, getElem?_withInstance]
  split
  · rw [Option.map_map]
    rfl
  · rfl

/-- Changes of an instance may be made before or after something is given back, if its loan does not
matter to them. -/
theorem releaseAll_modifyInstance {f : Instance σ → Instance σ}
    (hf : ∀ inst exclusive, (f inst).takeBack exclusive = f (inst.takeBack exclusive))
    (holds : List Hold) :
    (s.modifyInstance id f).releaseAll holds = (s.releaseAll holds).modifyInstance id f := by
  induction holds generalizing s with
  | nil => rfl
  | cons hold holds ih =>
    have hone : (s.modifyInstance id f).release hold = (s.release hold).modifyInstance id f := by
      cases hold with
      | hook h => rfl
      | memory other exclusive => exact modifyInstance_comm fun _ inst => hf inst exclusive
    exact (congrArg (·.releaseAll holds) hone).trans (ih (s := s.release hold))

/-- **Borrowing is refused, or can be undone.** -/
theorem acquire_cases (s : Store σ) (hold : Hold) :
    s.acquire hold = (.error (.fault .conflictingLoan), s) ∨
      (s.acquire hold).1 = .ok () ∧ (s.acquire hold).2.release hold = s := by
  cases hold with
  | hook h =>
    by_cases hheld : s.heldHooks.contains h
    · exact .inl (if_pos hheld)
    · rw [acquire, if_neg hheld]
      refine .inr ⟨rfl, ?_⟩
      rw [release, List.erase_cons_head]
  | memory id exclusive =>
    rw [acquire_memory, release_memory, modifyInstance_withInstance]
    cases hinst : s.instances[id]? with
    | none =>
      refine .inr ⟨?_, withInstance_eq_self fun inst h => ?_⟩
      · rw [withInstance_eq, hinst]
      · cases hinst.symm.trans h
    | some inst =>
      obtain hrefused | ⟨hok, hback⟩ := inst.lend_cases exclusive
      · refine .inl (Prod.ext ?_ (withInstance_eq_self fun inst₁ h => ?_))
        · simp only [withInstance_eq, hinst, hrefused]
        · obtain rfl := Option.some.inj (hinst.symm.trans h)
          rw [hrefused]
      · refine .inr ⟨?_, withInstance_eq_self fun inst₁ h => ?_⟩
        · rw [withInstance_eq, hinst, hok]
        · obtain rfl := Option.some.inj (hinst.symm.trans h)
          exact hback

theorem releaseAll_cons (s : Store σ) (hold : Hold) (holds : List Hold) :
    s.releaseAll (hold :: holds) = (s.releaseAll holds).release hold := by
  induction holds generalizing s with
  | nil => rfl
  | cons other holds ih =>
    have hswap : (s.release hold).release other = (s.release other).release hold :=
      release_comm ..
    calc s.releaseAll (hold :: other :: holds)
      _ = ((s.release hold).release other).releaseAll holds := rfl
      _ = (s.release other).releaseAll (hold :: holds) := by rw [hswap]; rfl
      _ = (s.releaseAll (other :: holds)).release hold := ih (s.release other)

/-- Several things are borrowed one after another. -/
theorem acquireAll_cons_of_ok (hok : (s.acquireAll (hold :: holds)).1 = .ok ()) :
    (s.acquire hold).1 = .ok () ∧ ((s.acquire hold).2.acquireAll holds).1 = .ok () ∧
      (s.acquireAll (hold :: holds)).2 = ((s.acquire hold).2.acquireAll holds).2 := by
  rw [acquireAll] at hok ⊢
  generalize s.acquire hold = x at hok
  obtain ⟨_ | _, s₁⟩ := x
  · cases hok
  · simp only at hok ⊢
    generalize s₁.acquireAll holds = y at hok
    obtain ⟨_ | _, s₂⟩ := y
    · cases hok
    · exact ⟨trivial, rfl, rfl⟩

/-- **All or nothing is borrowed**, and what is borrowed can be given back. -/
theorem acquireAll_cases (s : Store σ) (holds : List Hold) :
    s.acquireAll holds = (.error (.fault .conflictingLoan), s) ∨
      (s.acquireAll holds).1 = .ok () ∧ (s.acquireAll holds).2.releaseAll holds = s := by
  induction holds generalizing s with
  | nil => exact .inr ⟨rfl, rfl⟩
  | cons hold holds ih =>
    rw [acquireAll]
    obtain hrefused | ⟨hok, hback⟩ := s.acquire_cases hold
    · rw [hrefused]
      exact .inl rfl
    · generalize s.acquire hold = x at hok hback
      obtain ⟨outcome, s₁⟩ := x
      obtain rfl : outcome = .ok () := hok
      simp only at hback ⊢
      obtain hrefused | ⟨hok, hrest⟩ := ih s₁
      · simp only [hrefused]
        exact .inl (congrArg (Prod.mk _) hback)
      · generalize s₁.acquireAll holds = y at hok hrest
        obtain ⟨outcome, s₂⟩ := y
        obtain rfl : outcome = .ok () := hok
        refine .inr ⟨rfl, ?_⟩
        simp only at hrest ⊢
        rw [releaseAll_cons, hrest, hback]

/-- **Who cannot borrow changes nothing.** -/
theorem acquireAll_of_error {e : Error} (herror : (s.acquireAll holds).1 = .error e) :
    (s.acquireAll holds).2 = s := by
  obtain hrefused | ⟨hok, -⟩ := s.acquireAll_cases holds
  · exact congrArg Prod.snd hrefused
  · cases hok.symm.trans herror

/-- **Giving back undoes borrowing.** -/
theorem releaseAll_acquireAll (hok : (s.acquireAll holds).1 = .ok ()) :
    (s.acquireAll holds).2.releaseAll holds = s := by
  obtain hrefused | ⟨-, hback⟩ := s.acquireAll_cases holds
  · cases (congrArg Prod.fst hrefused).symm.trans hok
  · exact hback

end Store

end WasmEngine
