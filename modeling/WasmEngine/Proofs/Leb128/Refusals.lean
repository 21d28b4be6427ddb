import WasmEngine.Proofs.Leb128.Format

/-!
# Proofs/Leb128/Refusals — why a checked reader rejects its input

What stands at a position is `Refused` for one of three reasons: the bytes end inside a run, the run
is longer than its width needs, or its value is out of range.  The reasons exclude each other and
every number that fits (`Refused.unique`, `Refused.not_fits`), and a checked reader that fails gives
the one that holds (`refused_of_readUnsigned`, `refused_of_readSigned`).
-/

namespace WasmEngine.Leb128

/-- Each of `n` bytes from `pos` on announces another one. -/
def Announces (w : Window) (pos n : Nat) : Prop :=
  ∀ k < n, ∃ b, w.get? (pos + k) = some b ∧ continuation ≤ b.toNat

/-- Why what stands at `pos` is no run of at most `limit` bytes with a value that fits. -/
inductive Refused (w : Window) (limit : Nat) (Fits : List UInt8 → Prop) (pos : Nat) :
    Malformation → Prop
  /-- The bytes end inside a run. -/
  | endOfInput {n : Nat} : n < limit → Announces w pos n → w.get? (pos + n) = none →
      Refused w limit Fits pos .endOfInput
  /-- The last byte that a run may have announces another one. -/
  | tooLong : Announces w pos limit → Refused w limit Fits pos .integerTooLong
  /-- The value of the run is out of range. -/
  | tooLarge {bs : List UInt8} {next : Nat} : w.Spells pos bs next → IsGroups bs →
      bs.length ≤ limit → ¬ Fits bs → Refused w limit Fits pos .integerTooLarge

variable {w : Window} {limit pos next : Nat} {Fits : List UInt8 → Prop} {bs : List UInt8}
  {b : UInt8}

theorem announces_zero : Announces w pos 0 := fun _ hk => absurd hk (Nat.not_lt_zero _)

theorem announces_succ {n : Nat} (hb : w.get? pos = some b) (hc : continuation ≤ b.toNat)
    (h : Announces w (pos + 1) n) : Announces w pos (n + 1) := by
  intro k hk
  cases k with
  | zero => exact ⟨b, hb, hc⟩
  | succ k =>
    rw [show pos + (k + 1) = pos + 1 + k by omega]
    exact h k (by omega)

/-- The bytes that announce another one end at one place. -/
theorem Announces.eq {m n : Nat} (hm : Announces w pos m) (hn : Announces w pos n)
    (hm' : ∀ b, w.get? (pos + m) = some b → b.toNat < continuation)
    (hn' : ∀ b, w.get? (pos + n) = some b → b.toNat < continuation) : m = n := by
  rcases Nat.lt_trichotomy m n with hlt | heq | hlt
  · obtain ⟨b, hb, hc⟩ := hn m hlt
    exact absurd (hm' b hb) (Nat.not_lt.2 hc)
  · exact heq
  · obtain ⟨b, hb, hc⟩ := hm n hlt
    exact absurd (hn' b hb) (Nat.not_lt.2 hc)

/-- A run is a number of bytes that announce another one, and one that does not. -/
theorem announces_of_spells (hs : w.Spells pos bs next) (hg : IsGroups bs) :
    ∃ n b, bs.length = n + 1 ∧ Announces w pos n ∧ w.get? (pos + n) = some b ∧
      b.toNat < continuation := by
  induction bs generalizing pos with
  | nil => exact absurd rfl hg.ne_nil
  | cons b bs ih =>
    rcases isGroups_cons.1 hg with ⟨hlast, rfl⟩ | ⟨hmore, hg⟩
    · exact ⟨0, b, rfl, announces_zero, hs.1, hlast⟩
    · obtain ⟨n, c, hlen, hn, hc, hlast⟩ := ih hs.2 hg
      refine ⟨n + 1, c, by rw [List.length_cons, hlen], announces_succ hs.1 hmore hn, ?_, hlast⟩
      rw [show pos + (n + 1) = pos + 1 + n by omega]
      exact hc

/-- **At most one run stands at a position.** -/
theorem IsGroups.eq_of_spells {as : List UInt8} {next' : Nat} (ha : IsGroups as) (hb : IsGroups bs)
    (hsa : w.Spells pos as next) (hsb : w.Spells pos bs next') : as = bs := by
  obtain ⟨m, b, hlen, hm, hget, hlt⟩ := announces_of_spells hsa ha
  obtain ⟨n, c, hlen', hn, hget', hlt'⟩ := announces_of_spells hsb hb
  obtain rfl : m = n := hm.eq hn (fun x hx => Option.some.inj (hget.symm.trans hx) ▸ hlt)
    (fun x hx => Option.some.inj (hget'.symm.trans hx) ▸ hlt')
  obtain rfl : next = next' := by rw [hsa.stop_eq, hsb.stop_eq, hlen, hlen']
  exact hsa.unique hsb

/-- Where the bytes end behind bytes that announce another one, no run stands. -/
theorem Announces.not_isGroups_of_end {n : Nat} (hn : Announces w pos n)
    (hnone : w.get? (pos + n) = none) (hs : w.Spells pos bs next) : ¬ IsGroups bs := fun hg => by
  obtain ⟨m, b, -, hm, hget, hlt⟩ := announces_of_spells hs hg
  obtain rfl := hm.eq hn (fun x hx => Option.some.inj (hget.symm.trans hx) ▸ hlt)
    (fun x hx => by rw [hnone] at hx; cases hx)
  rw [hnone] at hget
  cases hget

/-- Where too many bytes announce another one, no run stands. -/
theorem Announces.not_isGroups_of_length_le (hall : Announces w pos limit)
    (hs : w.Spells pos bs next) (hl : bs.length ≤ limit) : ¬ IsGroups bs := fun hg => by
  obtain ⟨n, b, hlen, -, hget, hlt⟩ := announces_of_spells hs hg
  obtain ⟨c, hc, hge⟩ := hall n (by omega)
  obtain rfl : b = c := Option.some.inj (hget.symm.trans hc)
  exact absurd hlt (Nat.not_lt.2 hge)

/-- Nothing that is refused is a run with a value that fits. -/
theorem Refused.not_fits {cause : Malformation} (h : Refused w limit Fits pos cause)
    (hs : w.Spells pos bs next) (hg : IsGroups bs) (hl : bs.length ≤ limit) : ¬ Fits bs := by
  cases h with
  | endOfInput _ hn hnone => exact absurd hg (hn.not_isGroups_of_end hnone hs)
  | tooLong hall => exact absurd hg (hall.not_isGroups_of_length_le hs hl)
  | tooLarge hs' hg' _ hfits =>
    rw [hg.eq_of_spells hg' hs hs']
    exact hfits

/-- **There is one reason for a refusal.** -/
theorem Refused.unique {cause cause' : Malformation} (h : Refused w limit Fits pos cause)
    (h' : Refused w limit Fits pos cause') : cause = cause' := by
  have hcut {n : Nat} (hlt : n < limit) (hnone : w.get? (pos + n) = none) :
      ¬ Announces w pos limit := fun hall => by
    obtain ⟨b, hb, -⟩ := hall n hlt
    rw [hnone] at hb
    cases hb
  cases h with
  | endOfInput hlt hn hnone =>
    cases h' with
    | endOfInput => rfl
    | tooLong hall => exact absurd hall (hcut hlt hnone)
    | tooLarge hs hg _ _ => exact absurd hg (hn.not_isGroups_of_end hnone hs)
  | tooLong hall =>
    cases h' with
    | endOfInput hlt _ hnone => exact absurd hall (hcut hlt hnone)
    | tooLong => rfl
    | tooLarge hs hg hl _ => exact absurd hg (hall.not_isGroups_of_length_le hs hl)
  | tooLarge hs hg hl _ =>
    cases h' with
    | endOfInput _ hn hnone => exact absurd hg (hn.not_isGroups_of_end hnone hs)
    | tooLong hall => exact absurd hg (hall.not_isGroups_of_length_le hs hl)
    | tooLarge => rfl

theorem refused_of_get?_eq_none (h : w.get? pos = none) :
    Refused w (limit + 1) Fits pos .endOfInput :=
  .endOfInput (Nat.succ_pos _) announces_zero h

/-- What is refused behind a byte that announces another one is refused from that byte on. -/
theorem Refused.cons {Fits' : List UInt8 → Prop} {cause : Malformation}
    (hb : w.get? pos = some b) (hc : continuation ≤ b.toNat)
    (hfits : ∀ bs, IsGroups bs → Fits (b :: bs) → Fits' bs)
    (h : Refused w limit Fits' (pos + 1) cause) : Refused w (limit + 1) Fits pos cause := by
  cases h with
  | @endOfInput n hlt hn hnone =>
    refine .endOfInput (Nat.succ_lt_succ hlt) (announces_succ hb hc hn) ?_
    rw [show pos + (n + 1) = pos + 1 + n by omega]
    exact hnone
  | tooLong hall => exact .tooLong (announces_succ hb hc hall)
  | tooLarge hs hg hl hf =>
    exact .tooLarge (Window.spells_cons.2 ⟨hb, hs⟩) (isGroups_cons.2 (.inr ⟨hc, hg⟩))
      (Nat.succ_le_succ hl) fun h => hf (hfits _ hg h)

/-- The last byte that a run may have is refused because it announces another one, or because its
value is out of range. -/
theorem refused_last (Fits : List UInt8 → Prop) (hb : w.get? pos = some b) :
    (continuation ≤ b.toNat → Refused w 1 Fits pos .integerTooLong) ∧
      (b.toNat < continuation → ¬ Fits [b] → Refused w 1 Fits pos .integerTooLarge) :=
  ⟨fun hc => .tooLong (announces_succ hb hc announces_zero),
    fun hlast hf => .tooLarge (Window.spells_singleton.2 ⟨hb, rfl⟩) hlast (Nat.le_refl 1) hf⟩

/-! ## Readers that fail -/

theorem unsignedGroups_zero_eq_error {top : Nat} {e : Error}
    (h : unsignedGroups w top 0 pos = .error e) :
    (w.get? pos = none ∧ e = .malformed .endOfInput) ∨ ∃ b, w.get? pos = some b ∧
      ((continuation ≤ b.toNat ∧ e = .malformed .integerTooLong) ∨
        (b.toNat < continuation ∧ 2 ^ top ≤ b.toNat ∧ e = .malformed .integerTooLarge)) := by
  rw [unsignedGroups, Nat.one_shiftLeft] at h
  cases hb : w.get? pos <;> grind

theorem unsignedGroups_succ_eq_error {top more : Nat} {e : Error}
    (h : unsignedGroups w top (more + 1) pos = .error e) :
    (w.get? pos = none ∧ e = .malformed .endOfInput) ∨
      ∃ b, w.get? pos = some b ∧ continuation ≤ b.toNat ∧
        unsignedGroups w top more (pos + 1) = .error e := by
  rw [unsignedGroups] at h
  cases hb : w.get? pos <;> grind

theorem refused_of_unsignedGroups {top more : Nat} {e : Error}
    (h : unsignedGroups w top more pos = .error e) :
    ∃ cause, e = .malformed cause ∧
      Refused w (more + 1) (fun bs => unsignedValue bs < 2 ^ (7 * more + top)) pos cause := by
  induction more generalizing pos with
  | zero =>
    obtain ⟨hnone, rfl⟩ | ⟨b, hb, ⟨hmore, rfl⟩ | ⟨hlast, hbig, rfl⟩⟩ :=
      unsignedGroups_zero_eq_error h
    · exact ⟨_, rfl, refused_of_get?_eq_none hnone⟩
    · exact ⟨_, rfl, (refused_last _ hb).1 hmore⟩
    · refine ⟨_, rfl, (refused_last _ hb).2 hlast (Nat.not_lt.2 ?_)⟩
      rw [unsignedValue_singleton hlast, Nat.mul_zero, Nat.zero_add]
      exact hbig
  | succ more ih =>
    obtain ⟨hnone, rfl⟩ | ⟨b, hb, hmore, hrest⟩ := unsignedGroups_succ_eq_error h
    · exact ⟨_, rfl, refused_of_get?_eq_none hnone⟩
    · obtain ⟨cause, rfl, hcause⟩ := ih hrest
      refine ⟨cause, rfl, hcause.cons hb hmore fun bs _ hfits => ?_⟩
      have hpow : 2 ^ (7 * (more + 1) + top) = 128 * 2 ^ (7 * more + top) := by
        rw [show 7 * (more + 1) + top = 7 + (7 * more + top) by omega, Nat.pow_add]
      rw [unsignedValue, hpow] at hfits
      omega

theorem signedGroups_zero_eq_error {top : Nat} {e : Error} (htop : top ≤ 7) (hpos : 0 < top)
    (h : signedGroups w top 0 pos = .error e) :
    (w.get? pos = none ∧ e = .malformed .endOfInput) ∨ ∃ b, w.get? pos = some b ∧
      ((continuation ≤ b.toNat ∧ e = .malformed .integerTooLong) ∨
        (b.toNat < continuation ∧
          ¬(-2 ^ (top - 1) ≤ signExtend7 b.toNat ∧ signExtend7 b.toNat < 2 ^ (top - 1)) ∧
          e = .malformed .integerTooLarge)) := by
  rw [signedGroups] at h
  cases hb : w.get? pos with
  | none => grind
  | some b =>
    have htops (h : b.toNat < 128) := topBits_iff h htop hpos
    simp only [hb, Nat.shiftRight_eq_div_pow] at h
    grind

theorem signedGroups_succ_eq_error {top more : Nat} {e : Error}
    (h : signedGroups w top (more + 1) pos = .error e) :
    (w.get? pos = none ∧ e = .malformed .endOfInput) ∨
      ∃ b, w.get? pos = some b ∧ continuation ≤ b.toNat ∧
        signedGroups w top more (pos + 1) = .error e := by
  rw [signedGroups] at h
  cases hb : w.get? pos <;> grind

theorem refused_of_signedGroups {top more : Nat} {e : Error} (htop : top ≤ 7) (hpos : 0 < top)
    (h : signedGroups w top more pos = .error e) :
    ∃ cause, e = .malformed cause ∧
      Refused w (more + 1) (fun bs => -2 ^ (7 * more + top - 1) ≤ signedValue bs ∧
        signedValue bs < 2 ^ (7 * more + top - 1)) pos cause := by
  induction more generalizing pos with
  | zero =>
    obtain ⟨hnone, rfl⟩ | ⟨b, hb, ⟨hmore, rfl⟩ | ⟨hlast, hbad, rfl⟩⟩ :=
      signedGroups_zero_eq_error htop hpos h
    · exact ⟨_, rfl, refused_of_get?_eq_none hnone⟩
    · exact ⟨_, rfl, (refused_last _ hb).1 hmore⟩
    · refine ⟨_, rfl, (refused_last _ hb).2 hlast ?_⟩
      rw [signedValue_singleton hlast, Nat.mul_zero, Nat.zero_add]
      exact hbad
  | succ more ih =>
    obtain ⟨hnone, rfl⟩ | ⟨b, hb, hmore, hrest⟩ := signedGroups_succ_eq_error h
    · exact ⟨_, rfl, refused_of_get?_eq_none hnone⟩
    · obtain ⟨cause, rfl, hcause⟩ := ih hrest
      refine ⟨cause, rfl, hcause.cons hb hmore fun bs hg hfits => ?_⟩
      have hpow : (2 : Int) ^ (7 * (more + 1) + top - 1) = 128 * 2 ^ (7 * more + top - 1) := by
        rw [show 7 * (more + 1) + top - 1 = 7 + (7 * more + top - 1) by omega, Int.pow_add]
        rfl
      rw [signedValue_cons hg.ne_nil, hpow] at hfits
      omega

/-- **What the unsigned reader rejects is refused**, for the reason that it gives. -/
theorem refused_of_readUnsigned {bits : Nat} {e : Error} (hpos : 0 < bits)
    (h : readUnsigned bits w pos = .error e) :
    ∃ cause, e = .malformed cause ∧
      Refused w (maxLength bits) (fun bs => unsignedValue bs < 2 ^ bits) pos cause := by
  obtain ⟨hbits, -, -, hmax⟩ := bits_eq hpos
  have hrefused := refused_of_unsignedGroups h
  rwa [hmax, hbits] at hrefused

/-- **What the signed reader rejects is refused**, for the reason that it gives. -/
theorem refused_of_readSigned {bits : Nat} {e : Error} (hpos : 0 < bits)
    (h : readSigned bits w pos = .error e) :
    ∃ cause, e = .malformed cause ∧
      Refused w (maxLength bits) (fun bs => -2 ^ (bits - 1) ≤ signedValue bs ∧
        signedValue bs < 2 ^ (bits - 1)) pos cause := by
  obtain ⟨hbits, htop, htop', hmax⟩ := bits_eq hpos
  have hrefused := refused_of_signedGroups htop htop' h
  rwa [hmax, hbits] at hrefused

end WasmEngine.Leb128
