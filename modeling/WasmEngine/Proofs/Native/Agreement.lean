import WasmEngine.Native
import WasmEngine.Proofs.Imports.Results
import WasmEngine.Proofs.Safety.Visited

/-!
# Proofs/Native/Agreement — calls at native types agree with calls by name

A native handle is looked up once, and then nothing but the module is compared.  That is enough:
numbers of the embedder have the types that the signature was compared with
(`Numbers.haveTypes_toValues`), every instance of the module has the same function at the index of the
handle, and what a call leaves are as many slots as it declares.  So a call through the handle does
what a call of the same name with tagged values does (`Store.native_call_agrees`).  It takes imports
that declare at most one result: a hook that declares two may leave one slot, and then the results
cannot be taken (`Store.native_call_short`).
-/

namespace WasmEngine

variable {σ : Type} {P R ts : List NativeType}

/-! ## Numbers and their values -/

namespace NativeType

variable (t : NativeType)

@[simp] theorem type_toValue (v : t.Carrier) : (t.toValue v).type = t.valType := by cases t <;> rfl

/-- A number and its tagged value have one slot. -/
@[simp] theorem toSlot_toValue (v : t.Carrier) : (t.toValue v).toSlot = t.toSlot v := by
  cases t <;> rfl

/-- What a slot holds does not depend on who asks. -/
@[simp] theorem toValue_ofSlot (slot : Slot) :
    t.toValue (t.ofSlot slot) = Value.ofSlot slot t.valType := by
  cases t <;> rfl

/-- **A number comes out of its slot as it went in.** -/
theorem ofSlot_toSlot (v : t.Carrier) : t.ofSlot (t.toSlot v) = v := by
  cases t with
  | i32 => exact congrArg UInt32.toInt32 (UInt32.toUInt32_toUInt64 _)
  | u32 | f32 => exact UInt32.toUInt32_toUInt64 v
  | i64 | u64 | f64 => rfl

end NativeType

namespace Numbers

/-- **Numbers have the types that stand for theirs.** -/
theorem haveTypes_toValues (vs : Numbers ts) : Value.HaveTypes vs.toValues (ts.map (·.valType)) := by
  induction ts with
  | nil => rfl
  | cons t ts ih => exact congrArg₂ List.cons (t.type_toValue vs.1) (ih vs.2)

theorem map_toSlot_toValues (vs : Numbers ts) : vs.toValues.map Value.toSlot = vs.toSlots := by
  induction ts with
  | nil => rfl
  | cons t ts ih => exact congrArg₂ List.cons (t.toSlot_toValue vs.1) (ih vs.2)

/-- As many slots as there are types can be taken, and hold what they hold for whoever tags them. -/
theorem exists_ofSlotsFrom {slots : List Slot} {index : Nat}
    (h : slots.length = index + ts.length) : ∃ vs, ofSlotsFrom slots index ts = .ok vs ∧
      vs.toValues = Value.ofSlots (slots.drop index) (ts.map (·.valType)) := by
  induction ts generalizing index with
  | nil => exact ⟨(), rfl, by rw [Value.ofSlots, List.map_nil, List.zipWith_nil_right]; rfl⟩
  | cons t ts ih =>
    rw [List.length_cons] at h
    have hlt : index < slots.length := by omega
    have hnext : slots.length = index + 1 + ts.length := by omega
    obtain ⟨vs, hvs, hvalues⟩ := ih hnext
    refine ⟨(t.ofSlot slots[index], vs), ?_, ?_⟩
    · simp only [ofSlotsFrom, List.getElem?_eq_getElem hlt, hvs]
      rfl
    · rw [List.drop_eq_getElem_cons hlt, Value.ofSlots, List.map_cons, List.zipWith_cons_cons]
      exact congrArg₂ List.cons (t.toValue_ofSlot _) hvalues

/-- **What is taken from as many slots as there are types** is what they hold as tagged values. -/
theorem map_toValues_ofSlots {slots : List Slot} (h : slots.length = ts.length) :
    (ofSlots ts slots).map toValues = .ok (Value.ofSlots slots (ts.map (·.valType))) := by
  have hzero : slots.length = 0 + ts.length := by rw [h, Nat.zero_add]
  obtain ⟨vs, hvs, hvalues⟩ := exists_ofSlotsFrom hzero
  rw [ofSlots, hvs, Except.map, hvalues, List.drop_zero]

end Numbers

/-! ## Handles -/

namespace Instance

variable {inst : Instance σ} {name : String}

/-- **A handle is made** for an exported function of the signature that is asked for. -/
theorem nativeFunc_eq_ok_iff {f : NativeFunc P R} : inst.nativeFunc P R name = .ok f ↔
    inst.exportedFunc name = .ok f.index ∧
      inst.funcType f.index = .ok { params := P.map (·.valType), results := R.map (·.valType) } ∧
      f.moduleId = inst.moduleId := by
  constructor
  · intro h
    obtain ⟨index, hindex, h⟩ := Except.bind_eq_ok_iff.1 h
    obtain ⟨type, htype, h⟩ := Except.bind_eq_ok_iff.1 h
    split at h
    · cases h
    · next hsame =>
      cases h
      obtain ⟨hparams, hresults⟩ := not_or.1 hsame
      refine ⟨hindex, htype.trans (congrArg Except.ok ?_), rfl⟩
      exact congrArg₂ Signature.mk (not_not.1 hparams) (not_not.1 hresults)
  · rintro ⟨hindex, htype, hmodule⟩
    obtain ⟨index, moduleId⟩ := f
    obtain rfl : moduleId = inst.moduleId := hmodule
    simp [nativeFunc, hindex, htype, bind, Except.bind, pure, Except.pure]

theorem exists_nativeFunc_iff : (∃ f, inst.nativeFunc P R name = .ok f) ↔
    ∃ (e : Export) (callee : Callable σ), inst.module.export? name = some e ∧ e.kind = .func ∧
      inst.functions[e.index]? = some callee ∧
      callee.type = { params := P.map (·.valType), results := R.map (·.valType) } := by
  constructor
  · rintro ⟨f, hf⟩
    obtain ⟨hindex, htype, -⟩ := nativeFunc_eq_ok_iff.1 hf
    unfold exportedFunc at hindex
    unfold funcType at htype
    split at hindex
    · next e he =>
      split at hindex
      · next hkind =>
        obtain heq : e.index = f.index := Except.ok.inj hindex
        split at htype
        · next callee hcallee =>
          exact ⟨e, callee, he, hkind, heq ▸ hcallee, Except.ok.inj htype⟩
        · cases htype
      · cases hindex
    · cases hindex
  · rintro ⟨e, callee, he, hkind, hcallee, htype⟩
    refine ⟨⟨e.index, inst.moduleId⟩, nativeFunc_eq_ok_iff.2 ⟨?_, ?_, rfl⟩⟩
    · simp only [exportedFunc, he, if_pos hkind]
    · simp only [funcType, hcallee, htype]

/-- A native handle is one that says its types. -/
theorem typedFunc_of_nativeFunc {f : NativeFunc P R} (h : inst.nativeFunc P R name = .ok f) :
    inst.typedFunc name (P.map (·.valType)) (R.map (·.valType)) = .ok f.toTyped := by
  obtain ⟨hindex, htype, hmodule⟩ := nativeFunc_eq_ok_iff.1 h
  simp [typedFunc, hindex, htype, bind, Except.bind, pure, Except.pure, NativeFunc.toTyped, hmodule]

end Instance

namespace Store

variable {s : Store σ} {loaded : List LoadedModule} {a b id : InstanceId} {inst inst' : Instance σ}
  {name : String} {f : NativeFunc P R} {func : Nat} {callee : Callee} {args : List Value}
  {results : List ValType}

theorem shape_of_instance (h : s.instances[id]? = some inst) :
    s.outline.shapes[id]? = some inst.shape := (getElem?_shapes s id).trans (h ▸ rfl)

/-- An invocation that has found its function starts it. -/
theorem invocation_of_lookup (hinst : s.instances[id]? = some inst)
    (h : lookupCallee inst callee args = .ok (func, results)) (depth : Nat) :
    s.invocation id callee args depth =
      (((s.enterIndex id inst func (args.map Value.toSlot) depth).1, results),
        (s.enterIndex id inst func (args.map Value.toSlot) depth).2) := by
  simp only [invocation, hinst, h, enterIndex]
  split <;> rfl

/-- **By name or by handle, the same function is found** in every instance of the module. -/
theorem lookupCallee_of_nativeFunc (hsound : s.outline.IsSound loaded)
    (ha : s.instances[a]? = some inst) (hsb : s.outline.shapes[b]? = some inst'.shape)
    (hf : inst.nativeFunc P R name = .ok f) (hmodule : inst'.moduleId = inst.moduleId)
    (args : Numbers P) :
    lookupCallee inst' (.export name) args.toValues = .ok (f.index, R.map (·.valType)) ∧
      lookupCallee inst' (.typed f.toTyped) args.toValues = .ok (f.index, R.map (·.valType)) := by
  obtain ⟨hindex, -, hid⟩ := Instance.nativeFunc_eq_ok_iff.1 hf
  have hsa : s.outline.shapes[a]? = some inst.shape := shape_of_instance ha
  have hmodule' : inst'.module = inst.module := hsound.module_eq hsb hsa hmodule
  have hgenuine : (Callee.typed f.toTyped).IsGenuine s :=
    ⟨a, inst, name, ha, Instance.typedFunc_of_nativeFunc hf⟩
  obtain ⟨callee, hcallee, htype⟩ := hgenuine.fits rfl hsound hsb (hid.trans hmodule.symm)
  have hindex' : inst'.exportedFunc name = .ok f.index := by
    rw [Instance.exportedFunc, hmodule']
    exact hindex
  have htype' : inst'.funcType f.index =
      .ok { params := P.map (·.valType), results := R.map (·.valType) } := by
    have hcallee : inst'.functions[f.index]? = some callee := hcallee
    simp only [Instance.funcType, hcallee, htype]
    rfl
  constructor
  · simp only [lookupCallee, hindex', htype', bind, Except.bind, if_pos args.haveTypes_toValues]
    rfl
  · exact if_pos ⟨hid.trans hmodule.symm, args.haveTypes_toValues⟩

/-- **A call leaves as many slots as it declares.** -/
theorem length_of_complete (hsound : s.outline.IsSound loaded) (hid : id < s.instances.size)
    (hgenuine : callee.IsGenuine s) (hhonest : (s.callConfig id callee args []).IsHonest)
    {control : Control σ} {s₁ t : Store σ} {budget : Nat} {slots : List Slot}
    (hstart : s.invocation id callee args 0 = ((control, results), s₁))
    (h : s₁.complete control [.invocation id []] budget = some (.ok slots, t)) :
    slots.length = results.length := by
  obtain ⟨hout, -⟩ := exists_of_complete h
  have hconfig : s.callConfig id callee args [] = ⟨s₁, control, [.invocation id []]⟩ := by
    simp only [callConfig, acquireAll, hstart]
  have hany : AllowsRuntime fun _ => True := fun _ _ => trivial
  have hsafe : (s.callConfig id callee args []).IsSound (fun _ => True) s.outline
      ((s.acquireAll []).2.invocation id callee args 0).1.2.length :=
    callConfig_sound hany hsound hid hgenuine rfl fun _ _ _ => trivial
  rw [show ((s.acquireAll []).2.invocation id callee args 0).1.2 = results from
    congrArg (·.1.2) hstart, hconfig] at hsafe
  rw [hconfig] at hhonest
  exact (hsafe.run hany hsound hhonest fun _ _ _ _ => trivial).of_outcome hout

/-- **A call through a native handle is a call by name** with tagged values. -/
theorem callNative_eq_invoke (hsound : s.outline.IsSound loaded) (ha : s.instances[a]? = some inst)
    (hb : s.instances[b]? = some inst') (hf : inst.nativeFunc P R name = .ok f)
    (hmodule : inst'.moduleId = inst.moduleId) (args : Numbers P)
    (hhonest : (s.callConfig b (.export name) args.toValues []).IsHonest) (budget : Nat) :
    (s.callNative b f args budget).map (fun (result, t) => (result.map Numbers.toValues, t)) =
      s.invoke b name args.toValues budget := by
  obtain ⟨hlookup, -⟩ :=
    lookupCallee_of_nativeFunc hsound ha (shape_of_instance hb) hf hmodule args
  have hstart := invocation_of_lookup hb hlookup 0
  rw [Numbers.map_toSlot_toValues] at hstart
  obtain ⟨-, -, hid⟩ := Instance.nativeFunc_eq_ok_iff.1 hf
  simp only [callNative, hb, if_neg (not_not.2 (hid.trans hmodule.symm)), invoke, call, acquireAll,
    hstart, Option.map_map]
  generalize s.enterIndex b inst' f.index args.toSlots 0 = start at hstart ⊢
  obtain ⟨control, s₁⟩ := start
  cases hrun : s₁.complete control [.invocation b []] budget with
  | none => rfl
  | some r =>
    obtain ⟨outcome, t⟩ := r
    cases outcome with
    | error e => rfl
    | ok slots =>
      have hb' : b < s.instances.size := (Array.getElem?_eq_some_iff.1 hb).1
      have hgenuine : (Callee.export name).IsGenuine s := trivial
      have hlength := length_of_complete hsound hb' hgenuine hhonest hstart hrun
      rw [List.length_map] at hlength
      have hvalues := Numbers.map_toValues_ofSlots hlength
      exact congrArg (fun result => some (result, t)) hvalues

/-- **An invocation by handle is one by name**, whatever has been borrowed before. -/
theorem invocation_typed_eq (hsound : s.outline.IsSound loaded) (ha : s.instances[a]? = some inst)
    (hb : s.instances[b]? = some inst') (hf : inst.nativeFunc P R name = .ok f)
    (hmodule : inst'.moduleId = inst.moduleId) (args : Numbers P) (holds : List Hold) (depth : Nat) :
    (s.acquireAll holds).2.invocation b (.typed f.toTyped) args.toValues depth =
      (s.acquireAll holds).2.invocation b (.export name) args.toValues depth := by
  have hsb : (s.acquireAll holds).2.shapes[b]? = some inst'.shape := by
    rw [show (s.acquireAll holds).2.shapes = s.shapes from
      congrArg Outline.shapes (outline_acquireAll holds)]
    exact shape_of_instance hb
  obtain ⟨inst₁, hinst₁, hshape⟩ := exists_of_shapes hsb
  obtain ⟨hname, htyped⟩ := lookupCallee_of_nativeFunc hsound ha
    (hshape ▸ shape_of_instance hb) hf ((congrArg Shape.moduleId hshape).trans hmodule) args
  rw [invocation_of_lookup hinst₁ hname, invocation_of_lookup hinst₁ htyped]

/-- **The native call path agrees with the dynamic one**, if imports declare at most one result.  In
every store that is visited, between operations or in the middle of a run, a handle of some types is
made for exactly those names that are exports of functions of the signature that the types stand for.
On an instance of another module a call through it yields `argumentMismatch` and changes nothing.  On
every instance of the module of the handle, in whatever state, it does what a call of the same name
with the tagged values does: it ends whenever that ends, with the same results or the same error, and
leaves the same store, so the same memories, globals, budgets of instructions, poisonings and state of
the embedder.  So does a call with tagged values through the handle, whatever is borrowed meanwhile,
and what a host function starts through it is what it starts by that name. -/
theorem native_call_agrees (h : Visited loaded s) (ha : s.instances[a]? = some inst) :
    ((∃ f, inst.nativeFunc P R name = .ok f) ↔
      ∃ (e : Export) (callee : Callable σ), inst.module.export? name = some e ∧ e.kind = .func ∧
        inst.functions[e.index]? = some callee ∧
        callee.type = { params := P.map (·.valType), results := R.map (·.valType) }) ∧
    ∀ f, inst.nativeFunc P R name = .ok f → ∀ b inst', s.instances[b]? = some inst' →
      ∀ args : Numbers P,
        (inst'.moduleId ≠ inst.moduleId → ∀ budget,
          s.callNative b f args budget = some (.error .argumentMismatch, s)) ∧
        (inst'.moduleId = inst.moduleId →
          ((s.callConfig b (.export name) args.toValues []).IsHonest → ∀ budget,
            (s.callNative b f args budget).map (fun (result, t) =>
              (result.map Numbers.toValues, t)) = s.invoke b name args.toValues budget) ∧
          ∀ holds,
            (∀ budget, s.call b (.typed f.toTyped) args.toValues holds budget =
              s.call b (.export name) args.toValues holds budget) ∧
            ∀ depth, (s.acquireAll holds).2.invocation b (.typed f.toTyped) args.toValues depth =
              (s.acquireAll holds).2.invocation b (.export name) args.toValues depth) := by
  have hsound := h.outline_sound
  refine ⟨Instance.exists_nativeFunc_iff, fun f hf b inst' hb args =>
    ⟨fun hother budget => ?_, fun hmodule => ⟨fun hhonest budget => ?_, fun holds => ?_⟩⟩⟩
  · obtain ⟨-, -, hid⟩ := Instance.nativeFunc_eq_ok_iff.1 hf
    have hne : f.moduleId ≠ inst'.moduleId := fun heq => hother (heq.symm.trans hid)
    simp only [callNative, hb, if_pos hne]
  · exact callNative_eq_invoke hsound ha hb hf hmodule args hhonest budget
  · have hinvocation := invocation_typed_eq hsound ha hb hf hmodule args holds
    refine ⟨fun budget => ?_, hinvocation⟩
    unfold call
    split
    · rfl
    · next heq =>
      have hstart := hinvocation 0
      rw [heq] at hstart
      rw [hstart]

/-- A call of the sample at the type `u32`, with the result at the type `i32`. -/
theorem native_call_agrees_sample : ∃ (inst : Instance Unit) (f : NativeFunc [.u32] [.i32])
    (t : Store Unit), sample.instances[0]? = some inst ∧
      inst.nativeFunc [.u32] [.i32] "f" = .ok f ∧
      (sample.callNative 0 f ((1 : UInt32), ()) 7).map (fun (result, t) =>
        (result.map Numbers.toValues, t)) = sample.invoke 0 "f" [.i32 1] 7 ∧
      sample.invoke 0 "f" [.i32 1] 7 = some (.ok [.i32 7], t) := by
  obtain ⟨inst, hinst, index, moduleId, hf⟩ : ∃ inst, sample.instances[0]? = some inst ∧
      ∃ index moduleId, inst.nativeFunc [.u32] [.i32] "f" = .ok ⟨index, moduleId⟩ :=
    ⟨_, rfl, _, _, by cbv⟩
  obtain ⟨-, hcalls⟩ := @native_call_agrees _ [.u32] [.i32] _ _ 0 inst "f"
    (.between reachable_sample) hinst
  obtain ⟨-, hsame⟩ := hcalls _ hf 0 inst hinst ((1 : UInt32), ())
  exact ⟨inst, _, _, hinst, hf, (hsame rfl).1 isHonest_sample 7, by cbv⟩

/-! ## A hook that answers too little -/

/-- **A hook that declares two results and leaves one** takes the paths apart: a call by name yields
the one value, and a native call fails to find the second one. -/
theorem native_call_short :
    (∃ imports : Imports Unit, imports.get? { module := "a", name := "b" } = some (.hook .short) ∧
      ({ host := (), moduleCount := 1 } : Store Unit).instantiate ⟨0, .hooked⟩ imports {} 0 =
        some (.ok 0, short)) ∧
    Module.compile Module.hookedBytes = .ok .hooked ∧
    (short.invoke 0 "f" [] 1).map Prod.fst = some (.ok [.i32 9]) ∧
    ∃ (inst : Instance Unit) (f : NativeFunc [] [.i32, .i32]), short.instances[0]? = some inst ∧
      inst.nativeFunc [] [.i32, .i32] "f" = .ok f ∧
      (short.callNative 0 f () 1).map Prod.fst = some (.error (.fault .missingResult)) := by
  refine ⟨⟨⟨[({ module := "a", name := "b" }, .hook .short)]⟩, rfl, by cbv⟩,
    Module.compile_hookedBytes, by cbv, _, ⟨0, 0⟩, rfl, by cbv, ?_⟩
  cbv

end Store

end WasmEngine
