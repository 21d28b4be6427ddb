import WasmEngine.Proofs.Structured.Steps

/-!
# Proofs/Structured/Forward — the machine does what structured code means

`Program.Exec.arrives`: however code is left, the machine comes to where that exit leads, if its
limits leave room enough.  How much room an execution takes depends on the execution alone, and a
machine with less either gets by or overflows.
-/

namespace WasmEngine.Structured

variable {σ : Type} {M : Machine σ} {p : Program} {a : Activation} {below : List Slot}
  {c c' c'' : Config σ}

namespace Machine

/-- Whether the limits leave room for `n` more activations and `n` more operands and locals. -/
def HasRoom (M : Machine σ) (a : Activation) (below : List Slot) (n : Nat) : Prop :=
  a.depth + n ≤ M.inst.limits.maxCallDepth ∧
    a.base + below.length + n ≤ M.inst.limits.maxValueStack

/-- Whether a configuration comes to another, unless there is no room and the stack overflows. -/
def Arrives (M : Machine σ) (room : Prop) (c c' : Config σ) : Prop :=
  c.Reaches c' ∨ ¬room ∧ ∃ x, c.Reaches (M.finished x stackOverflow)

variable {room room' : Prop}

theorem Arrives.after (h : M.Arrives room c' c'') (hc : c.Reaches c') : M.Arrives room c c'' := by
  obtain h | ⟨hroom, x, h⟩ := h
  · exact .inl (hc.trans h)
  · exact .inr ⟨hroom, x, hc.trans h⟩

theorem Arrives.trans (h : M.Arrives room c c') (h' : M.Arrives room c' c'') :
    M.Arrives room c c'' := by
  obtain h | ⟨hroom, x, h⟩ := h
  · exact h'.after h
  · exact .inr ⟨hroom, x, h⟩

theorem Arrives.mono (h : M.Arrives room c c') (hroom : room' → room) : M.Arrives room' c c' := by
  obtain h | ⟨hno, x, h⟩ := h
  · exact .inl h
  · exact .inr ⟨fun hr => hno (hroom hr), x, h⟩

variable {m n : Nat}

theorem Arrives.of_le (h : M.Arrives (M.HasRoom a below m) c c') (hn : m ≤ n) :
    M.Arrives (M.HasRoom a below n) c c' :=
  h.mono fun hr => ⟨Nat.le_trans (Nat.add_le_add_left hn _) hr.1,
    Nat.le_trans (Nat.add_le_add_left hn _) hr.2⟩

/-- The operands below the parameters of a block take room. -/
theorem Arrives.inside {label : Label} {under : List Slot}
    (h : M.Arrives (M.HasRoom (a.inside label) (under ++ below) m) c c')
    (hn : m + under.length ≤ n) : M.Arrives (M.HasRoom a below n) c c' := by
  refine h.mono fun hr => ?_
  obtain ⟨hdepth, hsize⟩ := hr
  simp only [HasRoom, Activation.inside, List.length_append]
  omega

/-- The room that a call takes besides what the function takes. -/
theorem HasRoom.calling {pc : Nat} {y : Conf} {g : Func} {args under : List Slot}
    (h : M.HasRoom a below n) (hops : y.operands = args ++ under)
    (hn : m + y.locals.size + y.operands.length + g.declared + 1 ≤ n) :
    M.Admits (a.calling pc below (y.withOperands under) g) args g ∧
      M.HasRoom (a.calling pc below (y.withOperands under) g) [] m := by
  obtain ⟨hdepth, hsize⟩ := h
  simp only [Admits, HasRoom, Activation.calling, Frame.slotCount, Activation.frame,
    Conf.withOperands, List.length_append, List.length_nil]
  rw [hops, List.length_append] at hn
  omega

end Machine

open Machine

/-- Code that is missing closes its block at once. -/
theorem Program.Exec.eq_of_closed_nil {y z : Conf} {e : Exit} {args under : List Slot} {n : Nat}
    (h : p.Exec .nil (y.withOperands args) e) (hops : y.operands = args ++ under)
    (hz : e.closed? n under = some z) : z = y := by
  obtain ⟨locals, operands, globals, memory⟩ := y
  obtain rfl : operands = args ++ under := hops
  cases h with
  | nil =>
    simp only [Exit.closed?] at hz
    split at hz <;> cases hz
    rfl
  | block ho | blockExit ho => cases ho

/-- **The machine follows structured code.** -/
theorem Program.Exec.arrives {code : Code} {x : Conf} {e : Exit} (h : p.Exec code x e) :
    ∃ n, ∀ (M : Machine σ) (f : Function) (a : Activation) (pc q : Nat) (below : List Slot)
      (c : Config σ), M.Loads p → code.Lies ⟨M.inst.module, f⟩ M.inst.sideTable pc q →
      M.Lands a q below e c → M.Arrives (M.HasRoom a below n) (M.running a pc below x) c := by
  induction h with
  | nil =>
    refine ⟨0, fun M f a pc q below c hM hl he => ?_⟩
    cases hl
    cases he
    exact .inl (.refl _)
  | next hact _ ih =>
    obtain ⟨n, ih⟩ := ih
    refine ⟨n, fun M f a pc q below c hM hl he => ?_⟩
    cases hl with
    | plain hf hrest =>
      exact (ih M f a _ q below c hM hrest he).after (.step rfl (hM.goes_of_act hact hf).next_eq)
  | trap hact =>
    refine ⟨0, fun M f a pc q below c hM hl he => ?_⟩
    cases hl with
    | plain hf _ => exact .inl (.step rfl ((hM.goes_of_act hact hf).eq_of_lands_trap he))
  | branch hact =>
    refine ⟨0, fun M f a pc q below c hM hl he => ?_⟩
    cases hl with
    | plain hf _ => exact .inl (.step rfl ((hM.goes_of_act hact hf).eq_of_lands_branch he))
  | ret hact =>
    refine ⟨0, fun M f a pc q below c hM hl he => ?_⟩
    cases hl with
    | plain hf _ => exact .inl (.step rfl ((hM.goes_of_act hact hf).eq_of_lands_ret he))
  | @call _ _ _ g y args under _ values z _ hact hops hargs _ hret _ ihb ih =>
    obtain ⟨n, ihb⟩ := ihb
    obtain ⟨m, ih⟩ := ih
    refine ⟨n + y.locals.size + y.operands.length + g.declared + 1 + m,
      fun M f a pc q below c hM hl he => ?_⟩
    cases hl with
    | @plain _ p₁ _ _ _ hf hrest =>
      obtain ⟨f', entry, stop, next, hlies, hend, hcall⟩ :=
        hM.step_call (a := a) hact hf hops hargs
      obtain ⟨-, hcall⟩ | ⟨hno, hcall⟩ := hcall
      · obtain ⟨hvalues, c₁, hlands, hleft⟩ := hM.reaches_left
          (a := a.calling p₁ below (y.withOperands under) g) rfl hend hret
        replace hvalues : values = z.operands.take g.type.results.length := hvalues
        rw [left_calling, ← hvalues] at hleft
        have hin := (ihb M f' _ _ _ _ _ hM hlies hlands).mono fun hr : M.HasRoom a below _ =>
          (hr.calling hops (Nat.le_add_right _ m)).2
        have hout := ih M f a _ q below c hM hrest he
        exact (hin.trans ((hout.of_le (Nat.le_add_left m _)).after hleft)).after (.step rfl hcall)
      · exact .inr ⟨fun hr => hno (hr.calling hops (Nat.le_add_right _ m)).1, y, .step rfl hcall⟩
  | @callTrap _ _ _ g y args under _ _ hact hops hargs _ ihb =>
    obtain ⟨n, ihb⟩ := ihb
    refine ⟨n + y.locals.size + y.operands.length + g.declared + 1,
      fun M f a pc q below c hM hl he => ?_⟩
    cases hl with
    | plain hf hrest =>
      obtain ⟨f', entry, stop, next, hlies, hend, hcall⟩ :=
        hM.step_call (a := a) hact hf hops hargs
      cases he
      obtain ⟨-, hcall⟩ | ⟨hno, hcall⟩ := hcall
      · exact ((ihb M f' _ _ _ _ _ hM hlies .trap).mono fun hr : M.HasRoom a below _ =>
          (hr.calling hops (Nat.le_refl _)).2).after (.step rfl hcall)
      · exact .inr ⟨fun hr => hno (hr.calling hops (Nat.le_refl _)).1, y, .step rfl hcall⟩
  | @block _ _ _ _ _ _ _ _ under _ _ _ ho hs hops hargs hbody hclose _ ihb ih =>
    obtain ⟨n, ihb⟩ := ihb
    obtain ⟨m, ih⟩ := ih
    refine ⟨n + under.length + m, fun M f a pc q below c hM hl he => ?_⟩
    obtain ⟨p₁, q₁, q₂, hlies, hmark, hrest, hstep⟩ | ⟨rfl, q₂, hrest, hstep⟩ :=
      hM.step_opened (a := a) below ho hs hops hargs hl
    · obtain ⟨c₁, hlands, hclosed⟩ : ∃ c₁, M.Lands (a.inside _) q₁ (under ++ below) _ c₁ ∧
          c₁.Reaches (M.running a q₂ below _) := hM.reaches_closed hmark hclose
      have hin := (ihb M f _ _ _ _ _ hM hlies hlands).inside (Nat.le_add_right _ m)
      have hout := ih M f a _ q below c hM hrest he
      exact (hin.trans ((hout.of_le (Nat.le_add_left m _)).after hclosed)).after (.step rfl hstep)
    · obtain rfl := hbody.eq_of_closed_nil hops hclose
      exact ((ih M f a _ q below c hM hrest he).of_le (Nat.le_add_left m _)).after (.step rfl hstep)
  | @blockExit _ _ _ _ _ _ _ _ under _ _ ho hs hops hargs hbody hexit ihb =>
    obtain ⟨n, ihb⟩ := ihb
    refine ⟨n + under.length, fun M f a pc q below c hM hl he => ?_⟩
    obtain ⟨p₁, q₁, q₂, hlies, -, -, hstep⟩ | ⟨rfl, -⟩ :=
      hM.step_opened (a := a) below ho hs hops hargs hl
    · exact ((ihb M f _ _ _ _ _ hM hlies (he.outer hexit)).inside (Nat.le_refl _)).after
        (.step rfl hstep)
    · cases hbody with
      | nil => cases hexit
      | block ho | blockExit ho => cases ho
  | @loop _ _ _ _ sig _ under _ _ _ hs hops hargs _ hpass _ ihb ih =>
    obtain ⟨n, ihb⟩ := ihb
    obtain ⟨m, ih⟩ := ih
    refine ⟨n + under.length + m, fun M f a pc q below c hM hl he => ?_⟩
    obtain ⟨p₁, q₁, q₂, hlies, hend, hrest, hstep⟩ :=
      hM.step_loop (a := a) hs hops hargs hl
    obtain ⟨c₁, hlands, hpassed⟩ : ∃ c₁, M.Lands (a.inside _) q₁ (under ++ below) _ c₁ ∧
        c₁.Reaches (M.running a q₂ below _) :=
      hM.reaches_passed ⟨(under ++ below).length, pc, sig.params.length⟩ hend hpass
    have hin := (ihb M f _ _ _ _ _ hM hlies hlands).inside (Nat.le_add_right _ m)
    have hout := ih M f a _ q below c hM hrest he
    exact (hin.trans ((hout.of_le (Nat.le_add_left m _)).after hpassed)).after (.step rfl hstep)
  | @loopAgain _ _ _ _ _ _ under _ _ _ hs hops hargs _ hagain _ ihb ih =>
    obtain ⟨n, ihb⟩ := ihb
    obtain ⟨m, ih⟩ := ih
    refine ⟨n + under.length + m, fun M f a pc q below c hM hl he => ?_⟩
    obtain ⟨p₁, q₁, q₂, hlies, -, -, hstep⟩ :=
      hM.step_loop (a := a) hs hops hargs hl
    have hlands : M.Lands (a.inside ⟨(under ++ below).length, pc, _⟩) q₁ (under ++ below) _ _ :=
      lands_again hagain
    have hin := (ihb M f _ _ _ _ _ hM hlies hlands).inside (Nat.le_add_right _ m)
    have hout := ih M f a _ q below c hM hl he
    exact (hin.trans (hout.of_le (Nat.le_add_left m _))).after (.step rfl hstep)
  | @loopExit _ _ _ _ _ _ under _ _ hs hops hargs _ hexit ihb =>
    obtain ⟨n, ihb⟩ := ihb
    refine ⟨n + under.length, fun M f a pc q below c hM hl he => ?_⟩
    obtain ⟨p₁, q₁, q₂, hlies, -, -, hstep⟩ :=
      hM.step_loop (a := a) hs hops hargs hl
    exact ((ihb M f _ _ _ _ _ hM hlies (he.outer hexit)).inside (Nat.le_refl _)).after (.step rfl hstep)

end WasmEngine.Structured
