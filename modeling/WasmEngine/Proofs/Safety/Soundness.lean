import WasmEngine.Proofs.Safety.Reachable
import WasmEngine.Proofs.Typing.Validity

/-!
# Proofs/Safety/Soundness — compiled code does not go wrong

`Store.Reachable.invoke_sound`: a call of an exported function never leaves the data of the engine,
comes to no error but those of execution unless a host function answered with it, and yields values
of the types that the function declares.
-/

namespace WasmEngine

/-- A run that ends is honest if it is up to there. -/
theorem Config.isHonest_of_run {σ : Type} {c : Config σ} {k : Nat}
    (hk : (run k c).outcome?.isSome) (h : ∀ n ≤ k, (run n c).Allows) : c.IsHonest := by
  intro n
  obtain hn | hn := Nat.le_total n k
  · exact h n hn
  · rw [run_of_le hk hn]
    exact h k (Nat.le_refl k)

theorem Value.haveTypes_ofSlots {slots : List Slot} {ts : List ValType}
    (h : slots.length = ts.length) : HaveTypes (ofSlots slots ts) ts := by
  induction slots generalizing ts with
  | nil =>
    obtain rfl := List.length_eq_zero_iff.1 h.symm
    rfl
  | cons slot slots ih =>
    obtain ⟨t, ts, rfl⟩ := List.exists_cons_of_length_eq_add_one h.symm
    exact congrArg₂ List.cons (type_ofSlot slot t) (ih (Nat.succ.inj h))

namespace Store

variable {σ : Type} {loaded : List LoadedModule} {s : Store σ} {id : InstanceId} {inst : Instance σ}
  {name : String} {args : List Value} {sig : Signature}

/-- What an invocation by name finds. -/
theorem results_of_signature {depth : Nat} (hinst : s.instances[id]? = some inst)
    (hsig : inst.signature name = .ok sig) (hargs : Value.HaveTypes args sig.params) :
    (s.invocation id (.export name) args depth).1.2 = sig.results := by
  obtain ⟨func, hfunc, htype⟩ := Except.bind_eq_ok_iff.1 hsig
  have hcallee : lookupCallee inst (.export name) args = .ok (func, sig.results) := by
    simp only [lookupCallee, hfunc, bind, Except.bind, htype, if_pos hargs]
    rfl
  simp only [invocation, hinst, hcallee]
  split <;> rfl

/-- **A call of an exported function is safe.**  No step of it leaves the data of the engine; it
comes to no error but those of execution, unless a host function or a hook answered with it before;
and the values that it returns have the types that the function declares. -/
theorem Reachable.invoke_sound (h : Reachable loaded s) (hinst : s.instances[id]? = some inst)
    (hsig : inst.signature name = .ok sig) (hargs : Value.HaveTypes args sig.params)
    (hhonest : (s.callConfig id (.export name) args []).IsHonest) :
    (∀ n fault, (Config.run n (s.callConfig id (.export name) args [])).control =
        .done (.error (.fault fault)) →
      fault = .conflictingLoan ∨ s.HostAnswersIn id (.export name) args [] n (.fault fault)) ∧
    (∀ budget e s', s.invoke id name args budget = some (.error e, s') →
      e.IsRuntime ∨ s.HostAnswersIn id (.export name) args [] budget e) ∧
    ∀ budget values s', s.invoke id name args budget = some (.ok values, s') →
      Value.HaveTypes values sig.results := by
  have hsound := h.outline_sound
  have hlt : id < s.instances.size := (Array.getElem?_eq_some_iff.1 hinst).1
  have hresults : ((s.acquireAll []).2.invocation id (.export name) args 0).1.2 = sig.results :=
    results_of_signature hinst hsig hargs
  -- The errors that may come out of the first `n` steps.
  let E (n : Nat) (e : Error) : Prop :=
    e.IsRuntime ∨ s.HostAnswersIn id (.export name) args [] n e
  have hrun (n : Nat) : (Config.run n (s.callConfig id (.export name) args [])).IsSound (E n)
      s.outline sig.results.length := by
    have hstart : (s.callConfig id (.export name) args []).IsSound (E n) s.outline _ :=
      callConfig_sound (fun _ he => .inl he) hsound hlt trivial rfl
        fun e he hc => .inr (.inl ⟨he, hc⟩)
    rw [hresults] at hstart
    exact hstart.run (fun _ he => .inl he) hsound hhonest
      fun m hm e he => .inr (.inr ⟨m, hm, he⟩)
  refine ⟨fun n fault hc => ?_, fun budget e s' hi => ?_, fun budget values s' hi => ?_⟩
  · obtain ⟨-, k, hk, -⟩ := hrun n
    rw [hc] at hk
    exact hk
  · obtain ⟨outcome, ho, -, hr⟩ := of_call rfl hi
    have hout := (hrun budget).of_outcome ho
    cases outcome with
    | ok slots => cases hr
    | error e' =>
      cases hr
      exact hout
  · obtain ⟨outcome, ho, -, hr⟩ := of_call rfl hi
    have hout := (hrun budget).of_outcome ho
    cases outcome with
    | error e => cases hr
    | ok slots =>
      obtain rfl := Except.ok.inj hr
      rw [hresults]
      exact Value.haveTypes_ofSlots hout

/-! ## Samples -/

/-- A store with one instance of `Module.sample`. -/
def sample : Store Unit where
  instances :=
    #[{ moduleId := 0, module := .compiledSample, sideTable := Module.sampleTable
        functions := #[.code { params := [.i32], results := [.i32] } 32 0], limits := {}
        fuel := none }]
  host := ()
  moduleCount := 1

theorem reachable_sample : Reachable [⟨0, .compiledSample⟩] sample := by
  have hrun : { host := (), moduleCount := 1 : Store Unit }.instantiate ⟨0, .compiledSample⟩ {} {} 0 =
      some (.ok 0, sample) := by cbv
  refine .instantiate (.load (.empty ()) Module.compile_sampleBytes) List.mem_cons_self ?_ ?_ hrun
  · intro name item h
    cases h
  · intro name f h hf
    cases hf

theorem signature_sample :
    ∃ inst, sample.instances[0]? = some inst ∧ inst.signature "f" = .ok ⟨[.i32], [.i32]⟩ :=
  ⟨_, rfl, by cbv⟩

theorem isHonest_sample : (sample.callConfig 0 (.export "f") [.i32 1] []).IsHonest := by
  refine Config.isHonest_of_run (k := 7) (by cbv) fun n hn => ?_
  interval_cases n <;> cbv <;> exact fun _ _ h => by cases h

/-- At one, the sample answers the constant of its first branch, an `i32`. -/
theorem invoke_sample :
    ∃ s', sample.invoke 0 "f" [.i32 1] 7 = some (.ok [.i32 7], s') ∧
      Value.HaveTypes [.i32 7] [.i32] := by
  obtain ⟨inst, hinst, hsig⟩ := signature_sample
  have hargs : Value.HaveTypes [.i32 1] [.i32] := rfl
  refine ⟨_, by cbv, ?_⟩
  exact (reachable_sample.invoke_sound hinst hsig hargs isHonest_sample).2.2 7 _ _ (by cbv)

end Store

namespace Module

/-- A module with an import of type `(i32) -> (i32)`, a function `f` that calls it with its argument,
and a function `g` that adds one to its argument. -/
def askingBytes : ByteArray :=
  ⟨#[0x00, 0x61, 0x73, 0x6d, 0x01, 0x00, 0x00, 0x00, 0x01, 0x06, 0x01, 0x60, 0x01, 0x7f, 0x01, 0x7f,
    0x02, 0x07, 0x01, 0x01, 0x61, 0x01, 0x62, 0x00, 0x00, 0x03, 0x03, 0x02, 0x00, 0x00, 0x07, 0x09,
    0x02, 0x01, 0x66, 0x00, 0x01, 0x01, 0x67, 0x00, 0x02, 0x0a, 0x10, 0x02, 0x06, 0x00, 0x20, 0x00,
    0x10, 0x00, 0x0b, 0x07, 0x00, 0x20, 0x00, 0x41, 0x01, 0x6a, 0x0b]⟩

/-- What `askingBytes` compile to. -/
def asking : Module :=
  let type : Signature := { params := [.i32], results := [.i32] }
  { bytes := askingBytes, types := #[type]
    imports := [{ ref := { module := "a", name := "b" }, kind := .func }]
    functions := #[{ typeIndex := 0, type, imported := some { module := "a", name := "b" } },
      { typeIndex := 0, type, locals := [.i32], body := ⟨46, 51⟩ },
      { typeIndex := 0, type, locals := [.i32], body := ⟨53, 59⟩ }]
    exports := [{ name := "f", kind := .func, index := 1 }, { name := "g", kind := .func, index := 2 }]
    sideTable := some [] }

theorem compile_askingBytes : compile askingBytes = .ok asking := by decide +kernel

end Module

/-- A host function that calls the export `g` of its caller with its own arguments. -/
def HostFunc.asking : HostFunc Unit where
  params := [.i32]
  result := some .i32
  body _ args := do
    match ← HostAction.call .caller (.export "g") args with
    | .ok values => return values.head?
    | .error e => throw e

namespace Store

/-- A store with one instance of `Module.asking`, whose import is bound to `HostFunc.asking`, and which
may have two frames and one host function at a time. -/
def asking : Store Unit where
  instances :=
    #[{ moduleId := 0, module := .asking, sideTable := []
        functions := #[.imported { params := [.i32], results := [.i32] }
          { module := "a", name := "b" } (.func .asking),
          .code { params := [.i32], results := [.i32] } 46 0,
          .code { params := [.i32], results := [.i32] } 53 0]
        limits := { maxCallDepth := 2, maxHostDepth := 1 }, fuel := none }]
  host := ()
  moduleCount := 1

end Store

end WasmEngine
