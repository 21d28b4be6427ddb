import WasmEngine.Instr.Fetch
import WasmEngine.Proofs.Leb128.Trusted
import WasmEngine.Proofs.Syntax.Reading

/-!
# Proofs/Syntax/Fetching — the machine fetches what validation has read

`Instr.fetch` reads without checks.  Where `Instr.read` has found an instruction, it finds the same
one, with the jump entry of the side table in place of a block type: `Instr.fetch_of_read`.
-/

namespace WasmEngine

namespace Fetch

variable {α β : Type} {pos next : Nat}

/-- A fetch that goes on with another one succeeds if both do, the second where the first has ended.
-/
theorem bind_eq_some_iff {x : Fetch α} {f : α → Fetch β} {b : β} :
    (x >>= f) pos = some (b, next) ↔
      ∃ a mid, x pos = some (a, mid) ∧ f a mid = some (b, next) := by
  change (x pos).bind (fun p => f p.1 p.2) = _ ↔ _
  rw [Option.bind_eq_some_iff]
  exact Prod.exists

/-- What is made of a fetched value was fetched before. -/
theorem map_eq_some_iff {f : α → β} {x : Fetch α} {b : β} :
    (f <$> x) pos = some (b, next) ↔ ∃ a, x pos = some (a, next) ∧ f a = b := by
  rw [map_eq_pure_bind, bind_eq_some_iff]
  constructor
  · rintro ⟨a, mid, h, hb⟩
    obtain ⟨rfl, rfl⟩ := Prod.mk.injEq .. ▸ Option.some.inj hb
    exact ⟨a, h, rfl⟩
  · rintro ⟨a, h, rfl⟩
    exact ⟨a, next, h, rfl⟩

variable {w : Window}

/-- A 32-bit number that was read is fetched, although the machine looks at no limit of its length.
-/
theorem u32_of_read {v : Nat} (h : Reader.u32 w pos = .ok (v, next)) :
    u32 w.bytes pos = some (v, next) := by
  obtain ⟨bs, -, hv⟩ := (Leb128.readUnsigned_eq_ok_iff (by decide)).1 h
  rw [u32, Leb128.trustedUnsigned_of_readUnsigned h]
  exact congrArg (fun n => some (n, next)) (Nat.mod_eq_of_lt hv.lt)

theorem byte_of_get? {b : UInt8} (h : w.get? pos = some b) :
    byte w.bytes pos = some (b, pos + 1) := by
  rw [byte, (Window.get?_eq_some_iff.1 h).2]
  rfl

/-- The targets of a branch table that were read are fetched, in order. -/
theorem targets_of_read {n : Nat} {ts : List Nat}
    (h : Reader.replicate n Reader.u32 w pos = .ok (ts, next)) :
    targets w.bytes n pos = some (ts, next) := by
  induction n generalizing pos next ts with
  | zero =>
    obtain ⟨rfl, rfl⟩ := Reader.pure_eq_ok_iff.1 h
    rfl
  | succ n ih =>
    obtain ⟨t, m₁, h₁, h⟩ := Reader.bind_eq_ok_iff.1 h
    obtain ⟨ts', m₂, h₂, h⟩ := Reader.bind_eq_ok_iff.1 h
    obtain ⟨rfl, rfl⟩ := Reader.pure_eq_ok_iff.1 h
    exact bind_eq_some_iff.2 ⟨t, m₁, u32_of_read h₁,
      bind_eq_some_iff.2 ⟨ts', m₂, ih h₂, rfl⟩⟩

/-- The immediates of a load or store that were read are fetched. -/
theorem memArg_of_read {arg : MemArg} (h : Instr.memArg w pos = .ok (arg, next)) :
    memArg w.bytes pos = some (arg, next) := by
  obtain ⟨align, m₁, h₁, h⟩ := Reader.bind_eq_ok_iff.1 h
  obtain ⟨offset, m₂, h₂, h⟩ := Reader.bind_eq_ok_iff.1 h
  obtain ⟨rfl, rfl⟩ := Reader.pure_eq_ok_iff.1 h
  exact bind_eq_some_iff.2 ⟨align, m₁, u32_of_read h₁,
    bind_eq_some_iff.2 ⟨offset, m₂, u32_of_read h₂, rfl⟩⟩

/-- A reserved byte is one byte: the machine may step over it unseen. -/
theorem stop_of_zeroByte {u : Unit} (h : Instr.zeroByte w pos = .ok (u, next)) :
    next = pos + 1 := by
  obtain ⟨b, mid, hb, h⟩ := Reader.bind_eq_ok_iff.1 h
  obtain ⟨-, rfl⟩ := Reader.byte_eq_ok_iff.1 hb
  split at h
  · exact absurd h Reader.malformed_ne_ok
  · exact (Reader.pure_eq_ok_iff.1 h).2.symm

/-- The machine reads no block type: it goes on at the body that the side table tells. -/
theorem block_of_find? {table : SideTable} {opcode : Nat} {jump : BlockJump}
    (h : table.find? opcode = some jump) :
    block table opcode pos = some (jump, jump.body) := by
  have hlift : (StateT.lift (table.find? opcode) : Fetch BlockJump) pos = some (jump, pos) := by
    rw [h]
    rfl
  exact bind_eq_some_iff.2 ⟨jump, pos, hlift, rfl⟩

/-! ## Constants -/

/-- The machine puts a little-endian word together byte by byte.  After `k` bytes the shift is `8 *
k` and what it has so far is below `2 ^ (8 * k)`, so that no byte touches another. -/
theorem wordGo_eq {bs : List UInt8} {k : Nat} {s a : UInt64} (hs : w.Spells pos bs next)
    (hk : k + bs.length ≤ 8) (hshift : s.toNat = 8 * k) (hacc : a.toNat < 2 ^ (8 * k)) :
    ∃ v, ConstExpr.word.go w.bytes bs.length pos s a = some (v, next) ∧
      v.toNat = a.toNat + 2 ^ (8 * k) * natOfBytes bs := by
  induction bs generalizing pos k s a with
  | nil =>
    obtain rfl : next = pos := hs
    exact ⟨a, rfl, by simp [natOfBytes]⟩
  | cons b bs ih =>
    obtain ⟨hb, hs⟩ := hs
    rw [List.length_cons] at hk
    have hlt := b.toNat_lt
    have hpow : 2 ^ (8 * (k + 1)) = 2 ^ (8 * k) * 256 := Nat.pow_add ..
    have hle : 2 ^ (8 * (k + 1)) ≤ 2 ^ 64 := Nat.pow_le_pow_right (by decide) (by omega)
    have hfit : 2 ^ (8 * k) * b.toNat + 2 ^ (8 * k) ≤ 2 ^ (8 * (k + 1)) := by
      rw [hpow, ← Nat.mul_succ]
      exact Nat.mul_le_mul_left _ hlt
    have hor : (a ||| b.toUInt64 <<< s).toNat = a.toNat + 2 ^ (8 * k) * b.toNat := by
      have hsmall : b.toNat <<< (8 * k) < 2 ^ 64 := by
        rw [Nat.shiftLeft_eq, Nat.mul_comm]
        omega
      rw [UInt64.toNat_or, UInt64.toNat_shiftLeft, UInt8.toNat_toUInt64, hshift,
        Nat.mod_eq_of_lt (by omega : 8 * k < 64), Nat.mod_eq_of_lt hsmall,
        Leb128.or_shiftLeft_eq hacc]
    have hshift' : (s + 8).toNat = 8 * (k + 1) := by
      rw [UInt64.toNat_add, hshift]
      exact Nat.mod_eq_of_lt (by change 8 * k + 8 < 2 ^ 64; omega)
    obtain ⟨v, hv, hn⟩ := ih (k := k + 1) hs (by omega) hshift'
      (by rw [hor]; omega)
    refine ⟨v, ?_, ?_⟩
    · rw [List.length_cons, ConstExpr.word.go, (Window.get?_eq_some_iff.1 hb).2]
      exact hv
    · rw [hn, hor, hpow, natOfBytes, Nat.mul_add, Nat.mul_assoc, Nat.add_assoc]

/-- The bytes of a number of at most eight bytes are fetched as that number. -/
theorem word_of_spells {n v : Nat} (hs : w.Spells pos (bytesOfNat v n) next) (hn : n ≤ 8)
    (hv : v < 256 ^ n) : ∃ u, ConstExpr.word w.bytes n pos = some (u, next) ∧ u.toNat = v := by
  have hlen : (bytesOfNat v n).length = n := length_bytesOfNat v n
  obtain ⟨u, hu, hnat⟩ := wordGo_eq (k := 0) (s := 0) (a := 0) hs (by omega) rfl (by decide)
  rw [hlen] at hu
  refine ⟨u, hu, ?_⟩
  rw [hnat, natOfBytes_bytesOfNat, Nat.mod_eq_of_lt hv]
  simp

/-- The bits of a float constant that were read are fetched. -/
theorem word_of_read {n v : Nat} (hw : w.stop ≤ w.bytes.size) (h₀ : 0 < n) (h₈ : n ≤ 8)
    (h : Instr.word n w pos = .ok (v, next)) :
    ∃ u, ConstExpr.word w.bytes n pos = some (u, next) ∧ u.toNat = v := by
  obtain ⟨hs, hv⟩ := (Instr.word_eq_ok_iff h₀ hw).1 h
  exact word_of_spells hs h₈ hv

/-- A signed number that was read is fetched modulo `2 ^ 64`, whatever its width. -/
theorem signed_of_read {bits : Nat} {v : Int} (h₀ : 0 < bits) (h₁ : bits ≤ 64)
    (h : Reader.signed bits w pos = .ok (v, next)) :
    ∃ u, signed w.bytes pos = some (u, next) ∧ (u.toNat : Int) = v % 2 ^ 64 :=
  Leb128.trustedSigned_of_readSigned h₀ h₁ h

/-- The low word of a signed number modulo `2 ^ 64` is the constant of `i32.const`. -/
theorem toUInt32_eq_of_mod {u : UInt64} {v : Int} (h : (u.toNat : Int) = v % 2 ^ 64) :
    u.toUInt32 = (Int32.ofInt v).toUInt32 := by
  rw [← UInt32.toNat_inj, UInt64.toNat_toUInt32]
  change u.toNat % 2 ^ 32 = (BitVec.ofInt 32 v).toNat
  rw [BitVec.toNat_ofInt]
  omega

/-- A signed number modulo `2 ^ 64` is the constant of `i64.const`. -/
theorem eq_of_mod {u : UInt64} {v : Int} (h : (u.toNat : Int) = v % 2 ^ 64) :
    u = (Int64.ofInt v).toUInt64 := by
  rw [← UInt64.toNat_inj]
  change u.toNat = (BitVec.ofInt 64 v).toNat
  rw [BitVec.toNat_ofInt]
  omega

/-- An instruction behind the prefix `0xfc` that was read is fetched. -/
theorem extended_of_read {hasMemory : Bool} {i : Instr BlockType} {jump : BlockJump}
    (h : Instr.readExtended hasMemory w pos = .ok (i, next)) :
    extended w.bytes pos = some (i.map fun _ => jump, next) := by
  obtain ⟨code, mid, hcode, h⟩ := Reader.bind_eq_ok_iff.1 h
  replace hcode := u32_of_read hcode
  split at h
  all_goals refine bind_eq_some_iff.2 ⟨_, mid, hcode, ?_⟩
  · obtain ⟨-, h⟩ := Instr.hasMemory_of_read h
    obtain ⟨_, m₁, h₁, h⟩ := Reader.bind_eq_ok_iff.1 h
    obtain ⟨_, m₂, h₂, h⟩ := Reader.bind_eq_ok_iff.1 h
    obtain ⟨rfl, rfl⟩ := Reader.pure_eq_ok_iff.1 h
    obtain rfl := stop_of_zeroByte h₁
    obtain rfl := stop_of_zeroByte h₂
    rfl
  · obtain ⟨-, h⟩ := Instr.hasMemory_of_read h
    obtain ⟨_, m₁, h₁, h⟩ := Reader.bind_eq_ok_iff.1 h
    obtain ⟨rfl, rfl⟩ := Reader.pure_eq_ok_iff.1 h
    obtain rfl := stop_of_zeroByte h₁
    rfl
  · next h₁₀ h₁₁ =>
    cases hsat : NumOp.saturating[code]? with
    | some op =>
      rw [hsat] at h
      obtain ⟨rfl, rfl⟩ := Reader.pure_eq_ok_iff.1 h
      split
      · exact absurd rfl h₁₀
      · exact absurd rfl h₁₁
      · rw [hsat]
        rfl
    | none =>
      rw [hsat] at h
      exact absurd h Reader.malformed_ne_ok

end Fetch

namespace Instr

variable {hasMemory : Bool} {w : Window} {pos next : Nat} {i : Instr BlockType}
  {table : SideTable} {jump : BlockJump}

/-- **The machine fetches the instruction that validation has read**, if the side table has an entry
for the block that it opens. -/
theorem fetch_of_read (hw : w.stop ≤ w.bytes.size)
    (h : Instr.read hasMemory w pos = .ok (i, next))
    (hjump : i.OpensBlock → table.find? pos = some jump ∧ jump.body = next) :
    Instr.fetch w.bytes table pos = some (i.map fun _ => jump, next) := by
  obtain ⟨op, mid, hbyte, h⟩ := Reader.bind_eq_ok_iff.1 h
  obtain ⟨hop, rfl⟩ := Reader.byte_eq_ok_iff.1 hbyte
  have hfetch := Fetch.byte_of_get? hop
  clear hbyte hop
  split at h
  all_goals refine Fetch.bind_eq_some_iff.2 ⟨pos, pos, rfl, ?_⟩
  all_goals refine Fetch.bind_eq_some_iff.2 ⟨_, pos + 1, hfetch, ?_⟩
  case h_1 | h_2 | h_6 | h_7 | h_11 | h_14 | h_15 =>
    obtain ⟨rfl, rfl⟩ := Reader.pure_eq_ok_iff.1 h
    rfl
  case h_3 | h_4 | h_5 =>
    obtain ⟨type, -, rfl⟩ := Reader.map_eq_ok_iff.1 h
    obtain ⟨hfind, rfl⟩ := hjump trivial
    exact Fetch.map_eq_some_iff.2 ⟨jump, Fetch.block_of_find? hfind, rfl⟩
  case h_8 | h_9 | h_12 | h_17 | h_18 | h_19 | h_20 | h_21 =>
    obtain ⟨v, hv, rfl⟩ := Reader.map_eq_ok_iff.1 h
    exact Fetch.map_eq_some_iff.2 ⟨v, Fetch.u32_of_read hv, rfl⟩
  case h_10 =>
    obtain ⟨n, m₁, h₁, h⟩ := Reader.bind_eq_ok_iff.1 h
    obtain ⟨targets, m₂, h₂, h⟩ := Reader.bind_eq_ok_iff.1 h
    obtain ⟨default, h₃, rfl⟩ := Reader.map_eq_ok_iff.1 h
    refine Fetch.bind_eq_some_iff.2 ⟨n, m₁, Fetch.u32_of_read h₁, ?_⟩
    refine Fetch.bind_eq_some_iff.2 ⟨targets, m₂, Fetch.targets_of_read h₂, ?_⟩
    exact Fetch.map_eq_some_iff.2 ⟨default, Fetch.u32_of_read h₃, rfl⟩
  case h_13 =>
    obtain ⟨type, m₁, h₁, h⟩ := Reader.bind_eq_ok_iff.1 h
    obtain ⟨tableIndex, h₂, rfl⟩ := Reader.map_eq_ok_iff.1 h
    refine Fetch.bind_eq_some_iff.2 ⟨type, m₁, Fetch.u32_of_read h₁, ?_⟩
    exact Fetch.map_eq_some_iff.2 ⟨tableIndex, Fetch.u32_of_read h₂, rfl⟩
  case h_16 =>
    obtain ⟨n, m₁, h₁, h⟩ := Reader.bind_eq_ok_iff.1 h
    dsimp only at h
    split at h
    · obtain ⟨_, _, h, -⟩ := Reader.bind_eq_ok_iff.1 h
      exact absurd h Reader.invalid_ne_ok
    · obtain ⟨type, htype, rfl⟩ := Reader.map_eq_ok_iff.1 h
      obtain ⟨t, ht, rfl⟩ := Reader.map_eq_ok_iff.1 htype
      obtain ⟨_, hs, rfl⟩ := (Reader.accepts_valType hw).1 ht
      obtain ⟨hb, rfl⟩ := hs
      refine Fetch.bind_eq_some_iff.2 ⟨PUnit.unit, m₁, ?_, ?_⟩
      · exact Fetch.map_eq_some_iff.2 ⟨n, Fetch.u32_of_read h₁, rfl⟩
      · refine Fetch.map_eq_some_iff.2 ⟨some t, ?_, rfl⟩
        exact Fetch.map_eq_some_iff.2
          ⟨t.toByte, Fetch.byte_of_get? hb, ValType.ofByte?_toByte t⟩
  case h_22 | h_23 =>
    obtain ⟨-, h⟩ := hasMemory_of_read h
    obtain ⟨_, mid, hz, h⟩ := Reader.bind_eq_ok_iff.1 h
    obtain ⟨rfl, rfl⟩ := Reader.pure_eq_ok_iff.1 h
    obtain rfl := Fetch.stop_of_zeroByte hz
    rfl
  case h_24 =>
    obtain ⟨v, mid, hv, h⟩ := Reader.bind_eq_ok_iff.1 h
    obtain ⟨rfl, rfl⟩ := Reader.pure_eq_ok_iff.1 h
    obtain ⟨u, hu, hmod⟩ := Fetch.signed_of_read (by decide) (by decide) hv
    refine Fetch.bind_eq_some_iff.2 ⟨u, mid, hu, ?_⟩
    rw [Fetch.toUInt32_eq_of_mod hmod]
    rfl
  case h_25 =>
    obtain ⟨v, mid, hv, h⟩ := Reader.bind_eq_ok_iff.1 h
    obtain ⟨rfl, rfl⟩ := Reader.pure_eq_ok_iff.1 h
    obtain ⟨u, hu, hmod⟩ := Fetch.signed_of_read (by decide) (by decide) hv
    refine Fetch.bind_eq_some_iff.2 ⟨u, mid, hu, ?_⟩
    rw [Fetch.eq_of_mod hmod]
    rfl
  case h_26 =>
    obtain ⟨v, mid, hv, h⟩ := Reader.bind_eq_ok_iff.1 h
    obtain ⟨rfl, rfl⟩ := Reader.pure_eq_ok_iff.1 h
    obtain ⟨u, hu, rfl⟩ := Fetch.word_of_read hw (by decide) (by decide) hv
    exact Fetch.bind_eq_some_iff.2 ⟨u, mid, hu, rfl⟩
  case h_27 =>
    obtain ⟨v, mid, hv, h⟩ := Reader.bind_eq_ok_iff.1 h
    obtain ⟨rfl, rfl⟩ := Reader.pure_eq_ok_iff.1 h
    obtain ⟨u, hu, rfl⟩ := Fetch.word_of_read hw (by decide) (by decide) hv
    refine Fetch.bind_eq_some_iff.2 ⟨u, mid, hu, ?_⟩
    simp
    rfl
  case h_28 => exact Fetch.extended_of_read h
  case h_29 =>
    split
    case h_29 =>
      cases hload : LoadOp.ofOpcode? op with
      | some loadOp =>
        rw [hload] at h
        have hb := LoadOp.opcode_bounds hload
        obtain ⟨-, h⟩ := hasMemory_of_read h
        obtain ⟨arg, ha, rfl⟩ := Reader.map_eq_ok_iff.1 h
        rw [NumOp.ofOpcode?_eq_none (by omega)]
        exact Fetch.map_eq_some_iff.2 ⟨arg, Fetch.memArg_of_read ha, rfl⟩
      | none =>
      rw [hload] at h
      cases hstore : StoreOp.ofOpcode? op with
      | some storeOp =>
        rw [hstore] at h
        have hb := StoreOp.opcode_bounds hstore
        obtain ⟨-, h⟩ := hasMemory_of_read h
        obtain ⟨arg, ha, rfl⟩ := Reader.map_eq_ok_iff.1 h
        rw [NumOp.ofOpcode?_eq_none (by omega)]
        exact Fetch.map_eq_some_iff.2 ⟨arg, Fetch.memArg_of_read ha, rfl⟩
      | none =>
      rw [hstore] at h
      cases hnum : NumOp.ofOpcode? op with
      | some numOp =>
        rw [hnum] at h
        obtain ⟨rfl, rfl⟩ := Reader.pure_eq_ok_iff.1 h
        rfl
      | none =>
        rw [hnum] at h
        exact absurd h Reader.malformed_ne_ok
    all_goals clear h; contradiction

end Instr

end WasmEngine
