import WasmEngine.Instr.Read
import WasmEngine.Proofs.Bytes
import WasmEngine.Proofs.Reader
import WasmEngine.Proofs.Syntax.Code

/-!
# Proofs/Syntax/Reading — the instruction reader accepts exactly the format

`Instr.read` succeeds on the encodings of instructions, of which it refuses those that need a memory
in a module without one: `Instr.accepts_read`.
-/

namespace WasmEngine

/-- A byte that names a type is the byte of it. -/
theorem ValType.toByte_of_ofByte? {b : UInt8} {t : ValType} (h : ofByte? b = some t) :
    t.toByte = b := by
  unfold ofByte? at h
  split at h <;> simp_all [toByte] <;> (subst h; rfl)

/-- Bytes are those of the number that they encode. -/
theorem bytesOfNat_natOfBytes (bs : List UInt8) : bytesOfNat (natOfBytes bs) bs.length = bs := by
  induction bs with
  | nil => rfl
  | cons b bs ih =>
    have hb := b.toNat_lt
    have hdiv : (b.toNat + 256 * natOfBytes bs) / 256 = natOfBytes bs := by omega
    have hmod : (b.toNat + 256 * natOfBytes bs).toUInt8 = b := by
      rw [← UInt8.toNat_inj, Nat.toUInt8, UInt8.toNat_ofNat']
      omega
    rw [natOfBytes, List.length_cons, bytesOfNat, hdiv, ih, hmod]

/-- So many bytes hold a number modulo the power of 256. -/
theorem natOfBytes_bytesOfNat (v n : Nat) : natOfBytes (bytesOfNat v n) = v % 256 ^ n := by
  induction n generalizing v with
  | zero => simp [bytesOfNat, natOfBytes, Nat.mod_one]
  | succ n ih =>
    rw [bytesOfNat, natOfBytes, ih, Nat.pow_succ, Nat.mul_comm (256 ^ n), Nat.mod_mul]
    simp

/-- So many bytes hold no more. -/
theorem natOfBytes_lt (bs : List UInt8) : natOfBytes bs < 256 ^ bs.length := by
  induction bs with
  | nil => simp [natOfBytes]
  | cons b bs ih =>
    have hb := b.toNat_lt
    rw [natOfBytes, List.length_cons, Nat.pow_succ]
    omega

namespace Reader

variable {α : Type}

/-- A value type is read from its byte and from no other. -/
theorem accepts_valType : Accepts valType fun t bs => bs = [t.toByte] := by
  intro w pos t next hw
  rw [valType, bind_eq_ok_iff]
  constructor
  · rintro ⟨b, mid, hb, h⟩
    cases ht : ValType.ofByte? b with
    | some t' =>
      rw [ht] at h
      obtain ⟨rfl, rfl⟩ := pure_eq_ok_iff.1 h
      exact ⟨[b], byte_eq_ok_iff.1 hb, congrArg (fun b => [b]) (ValType.toByte_of_ofByte? ht).symm⟩
    | none =>
      rw [ht] at h
      exact absurd h malformed_ne_ok
  · rintro ⟨bs, hs, rfl⟩
    refine ⟨t.toByte, next, byte_eq_ok_iff.2 hs, ?_⟩
    rw [ValType.ofByte?_toByte]
    rfl

/-- Items are read one after the other, each from a run of its own. -/
theorem accepts_replicate {item : Reader α} {format : α → List UInt8 → Prop}
    (h : Accepts item format) (n : Nat) :
    Accepts (replicate n item) fun xs bs => xs.length = n ∧ EncodesEach format xs bs := by
  induction n with
  | zero =>
    refine (accepts_pure []).congr fun xs bs => ?_
    constructor
    · rintro ⟨rfl, rfl⟩
      exact ⟨rfl, rfl⟩
    · rintro ⟨hl, hb⟩
      obtain rfl := List.length_eq_zero_iff.1 hl
      exact ⟨rfl, hb⟩
  | succ n ih =>
    refine (h.bind fun x => ih.bind fun xs => accepts_pure (x :: xs)).congr fun ys bs => ?_
    constructor
    · rintro ⟨x, b₁, _, rfl, hx, xs, b₂, _, rfl, ⟨rfl, hxs⟩, rfl, rfl⟩
      exact ⟨rfl, b₁, b₂, by simp, hx, hxs⟩
    · rintro ⟨hl, hb⟩
      match ys, hl with
      | x :: xs, hl =>
        obtain ⟨b₁, b₂, rfl, hx, hxs⟩ := hb
        exact ⟨x, b₁, b₂, rfl, hx, xs, b₂, [], by simp, ⟨by simpa using hl, hxs⟩, rfl, rfl⟩

end Reader

/-! ## Immediates -/

/-- The first byte of a type index is none of those that stand for a block type themselves. -/
theorem BlockType.first_byte_of_index {n : Nat} {b : UInt8} {bs : List UInt8}
    (h : Leb128.EncodesSigned 33 n (b :: bs)) : b ≠ 0x40 ∧ ValType.ofByte? b = none := by
  have hb : b.toNat < 64 ∨ 128 ≤ b.toNat := by
    rcases Leb128.isGroups_cons.1 h.isGroups with ⟨hlast, rfl⟩ | ⟨hmore, -⟩
    · have hv := h.value_eq
      have hsmall : b.toNat < 128 := hlast
      rw [Leb128.signedValue, Leb128.signExtend7] at hv
      split at hv <;> omega
    · exact .inr hmore
  refine ⟨?_, ?_⟩
  · rintro rfl
    simp at hb
  · unfold ValType.ofByte?
    split <;> simp_all

/-- A block type that is a byte of its own is known when the byte is passed. -/
theorem BlockType.pass_eq_ok_iff {w : Window} {pos next : Nat} {t type : BlockType} {b : UInt8}
    (hb : w.get? pos = some b) :
    (do discard Reader.byte; pure t : Reader BlockType) w pos = .ok (type, next) ↔
      w.Spells pos [b] next ∧ t = type := by
  rw [Reader.bind_eq_ok_iff, Window.spells_singleton]
  constructor
  · rintro ⟨_, mid, hskip, h⟩
    obtain ⟨_, hskip, -⟩ := Reader.map_eq_ok_iff.1 hskip
    obtain ⟨-, rfl⟩ := Reader.byte_eq_ok_iff.1 hskip
    obtain ⟨rfl, rfl⟩ := Reader.pure_eq_ok_iff.1 h
    exact ⟨⟨hb, rfl⟩, rfl⟩
  · rintro ⟨hs, rfl⟩
    exact ⟨(), next, Reader.map_eq_ok_iff.2 ⟨b, Reader.byte_eq_ok_iff.2 hs, rfl⟩, rfl⟩

/-- A block type is one byte, or else a non-negative number, which the first byte tells. -/
theorem BlockType.accepts_read : Reader.Accepts BlockType.read BlockType.Encodes := by
  intro w pos type next hw
  rw [BlockType.read, Reader.bind_eq_ok_iff]
  constructor
  · rintro ⟨b, mid, hb, h⟩
    obtain ⟨hb, rfl⟩ := Reader.peek_eq_ok_iff.1 hb
    split at h
    · next h40 =>
      obtain ⟨hs, rfl⟩ := (pass_eq_ok_iff hb).1 h
      exact ⟨[b], hs, h40 ▸ .empty⟩
    · cases ht : ValType.ofByte? b with
      | some t =>
        rw [ht] at h
        obtain ⟨hs, rfl⟩ := (pass_eq_ok_iff hb).1 h
        exact ⟨[b], hs, ValType.toByte_of_ofByte? ht ▸ .value t⟩
      | none =>
        rw [ht] at h
        obtain ⟨v, mid, hv, h⟩ := Reader.bind_eq_ok_iff.1 h
        obtain ⟨bs, hs, hv⟩ := (Reader.accepts_signed (by decide) hw).1 hv
        cases v with
        | ofNat n =>
          obtain ⟨rfl, rfl⟩ := Reader.pure_eq_ok_iff.1 h
          exact ⟨bs, hs, .index hv⟩
        | negSucc n => exact absurd h Reader.invalid_ne_ok
  · rintro ⟨bs, hs, ht⟩
    cases ht with
    | empty =>
      refine ⟨0x40, pos, Reader.peek_eq_ok_iff.2 ⟨hs.1, rfl⟩, ?_⟩
      rw [if_pos rfl]
      exact (pass_eq_ok_iff hs.1).2 ⟨hs, rfl⟩
    | value t =>
      refine ⟨t.toByte, pos, Reader.peek_eq_ok_iff.2 ⟨hs.1, rfl⟩, ?_⟩
      rw [if_neg (by cases t <;> decide), ValType.ofByte?_toByte]
      exact (pass_eq_ok_iff hs.1).2 ⟨hs, rfl⟩
    | @index n bs hn =>
      match bs, hn with
      | b :: bs, hn =>
        obtain ⟨h40, hval⟩ := first_byte_of_index hn
        refine ⟨b, pos, Reader.peek_eq_ok_iff.2 ⟨hs.1, rfl⟩, ?_⟩
        rw [if_neg h40, hval]
        exact Reader.bind_eq_ok_iff.2
          ⟨(n : Int), next, (Reader.accepts_signed (by decide) hw).2 ⟨_, hs, hn⟩, rfl⟩
      | [], hn => exact absurd hn.isGroups (by simp [Leb128.IsGroups])

namespace Instr

/-- The immediates of loads and stores are two numbers, the alignment first. -/
theorem accepts_memArg : Reader.Accepts memArg MemArg.Encodes := by
  refine ((Reader.accepts_unsigned (by decide)).bind fun align =>
    (Reader.accepts_unsigned (by decide)).bind fun offset =>
      Reader.accepts_pure ({ align, offset := offset.toUInt32 } : MemArg)).congr fun arg bs => ?_
  constructor
  · rintro ⟨align, b₁, _, rfl, h₁, offset, b₂, _, rfl, h₂, rfl, rfl⟩
    refine ⟨b₁, b₂, by simp, h₁, ?_⟩
    have hn : offset.toUInt32.toNat = offset := Nat.mod_eq_of_lt h₂.lt
    rw [← hn] at h₂
    exact h₂
  · rintro ⟨b₁, b₂, rfl, h₁, h₂⟩
    exact ⟨arg.align, b₁, b₂, rfl, h₁, arg.offset.toNat, b₂, [], by simp, h₂, by simp, rfl⟩

/-- The reserved byte is zero. -/
theorem accepts_zeroByte : Reader.Accepts zeroByte fun _ bs => bs = [0x00] := by
  intro w pos _ next hw
  rw [zeroByte, Reader.bind_eq_ok_iff]
  constructor
  · rintro ⟨b, mid, hb, h⟩
    split at h
    · exact absurd h Reader.malformed_ne_ok
    · next hz =>
      obtain ⟨-, rfl⟩ := Reader.pure_eq_ok_iff.1 h
      obtain rfl : b = 0 := Decidable.not_not.1 hz
      exact ⟨[0], Reader.byte_eq_ok_iff.1 hb, rfl⟩
  · rintro ⟨_, hs, rfl⟩
    exact ⟨0, next, Reader.byte_eq_ok_iff.2 hs, rfl⟩

theorem foldr_eq_natOfBytes (bs : List UInt8) :
    bs.foldr (fun b acc => b.toNat + 256 * acc) 0 = natOfBytes bs := by
  induction bs with
  | nil => rfl
  | cons b bs ih => rw [List.foldr_cons, ih, natOfBytes]

/-- Float constants are runs of bytes of a fixed length. -/
theorem accepts_word {n : Nat} (hn : 0 < n) :
    Reader.Accepts (word n) fun v bs => bs.length = n ∧ v = natOfBytes bs := by
  intro w pos v next hw
  simp only [word, Reader.bind_eq_ok_iff, Reader.skip_eq_ok_iff, Reader.window_eq_ok_iff,
    Reader.pure_eq_ok_iff, foldr_eq_natOfBytes]
  constructor
  · rintro ⟨_, _, ⟨rfl, rfl, hle⟩, _, _, ⟨rfl, rfl⟩, rfl, rfl⟩
    have hs := (Window.spells_iff_extract hw (Nat.le_trans (Nat.le_add_right _ n) hle)).2
      ⟨Nat.le_add_right _ n, hle, rfl⟩
    exact ⟨_, hs, Nat.add_left_cancel hs.stop_eq.symm, rfl⟩
  · rintro ⟨bs, hs, rfl, rfl⟩
    have hpos : pos ≤ w.stop := by
      cases bs with
      | nil => exact absurd hn (Nat.lt_irrefl 0)
      | cons b bs => exact Nat.le_of_lt (Window.get?_eq_some_iff.1 hs.1).1
    obtain ⟨-, hle, hbs⟩ := (Window.spells_iff_extract hw hpos).1 hs
    refine ⟨pos, next, ⟨rfl, hs.stop_eq, hle⟩, w, next, ⟨rfl, rfl⟩, ?_, rfl⟩
    rw [← hs.stop_eq, hbs]

/-- The reader of a word reads the bytes of numbers that fit. -/
theorem word_eq_ok_iff {n : Nat} (hn : 0 < n) {w : Window} (hw : w.stop ≤ w.bytes.size)
    {pos next v : Nat} :
    word n w pos = .ok (v, next) ↔ w.Spells pos (bytesOfNat v n) next ∧ v < 256 ^ n := by
  rw [accepts_word hn hw]
  constructor
  · rintro ⟨bs, hs, rfl, rfl⟩
    rw [bytesOfNat_natOfBytes]
    exact ⟨hs, natOfBytes_lt bs⟩
  · rintro ⟨hs, hv⟩
    exact ⟨_, hs, length_bytesOfNat .., by rw [natOfBytes_bytesOfNat, Nat.mod_eq_of_lt hv]⟩

/-- An instruction that needs a memory is read only where there is one. -/
theorem needMemory_eq_ok_iff {hasMemory : Bool} {w : Window} {pos next : Nat} {u : Unit} :
    needMemory hasMemory w pos = .ok (u, next) ↔ hasMemory = true ∧ pos = next := by
  cases hasMemory with
  | false => exact ⟨fun h => absurd h Reader.invalid_ne_ok, fun h => Bool.noConfusion h.1⟩
  | true => simp [needMemory, Reader.pure_eq_ok_iff]

end Instr

/-! ## Opcodes -/

/-- The opcodes of a family are consecutive: who is in the family is within its range. -/
theorem opcode_bounds {α : Type} {items : Array α} {first b : UInt8} {a : α}
    (h : (if first ≤ b then items[(b - first).toNat]? else none) = some a) :
    first.toNat ≤ b.toNat ∧ b.toNat < first.toNat + items.size := by
  split at h
  · next hle =>
    obtain ⟨hlt, -⟩ := Array.getElem?_eq_some_iff.1 h
    rw [UInt8.toNat_sub_of_le _ _ hle] at hlt
    have hle := UInt8.le_iff_toNat_le.1 hle
    omega
  · exact absurd h nofun

theorem LoadOp.opcode_bounds {b : UInt8} {op : LoadOp} (h : LoadOp.ofOpcode? b = some op) :
    0x28 ≤ b.toNat ∧ b.toNat < 0x36 :=
  WasmEngine.opcode_bounds h

theorem StoreOp.opcode_bounds {b : UInt8} {op : StoreOp} (h : StoreOp.ofOpcode? b = some op) :
    0x36 ≤ b.toNat ∧ b.toNat < 0x3f :=
  WasmEngine.opcode_bounds h

theorem NumOp.opcode_bounds {b : UInt8} {op : NumOp} (h : NumOp.ofOpcode? b = some op) :
    0x45 ≤ b.toNat ∧ b.toNat < 0xc5 := by
  have hb := WasmEngine.opcode_bounds h
  rw [NumOp.size_plain] at hb
  exact hb

theorem LoadOp.ofOpcode?_eq_none {b : UInt8} (h : 0x36 ≤ b.toNat) : LoadOp.ofOpcode? b = none :=
  Option.eq_none_iff_forall_ne_some.2 fun _ hop =>
    absurd (LoadOp.opcode_bounds hop).2 (Nat.not_lt.2 h)

theorem StoreOp.ofOpcode?_eq_none {b : UInt8} (h : 0x3f ≤ b.toNat) :
    StoreOp.ofOpcode? b = none :=
  Option.eq_none_iff_forall_ne_some.2 fun _ hop =>
    absurd (StoreOp.opcode_bounds hop).2 (Nat.not_lt.2 h)

theorem NumOp.ofOpcode?_eq_none {b : UInt8} (h : b.toNat < 0x45) : NumOp.ofOpcode? b = none :=
  Option.eq_none_iff_forall_ne_some.2 fun _ hop =>
    absurd (NumOp.opcode_bounds hop).1 (Nat.not_le.2 h)

namespace Instr

variable {hasMemory : Bool} {w : Window} {pos next : Nat} {i : Instr BlockType}

/-! ## Instructions -/

/-- Whether an instruction that a module may have is spelled from `pos` to `next`. -/
def IsSpelled (hasMemory : Bool) (w : Window) (pos next : Nat) (i : Instr BlockType) : Prop :=
  ∃ bs, w.Spells pos bs next ∧ i.Encodes bs ∧ (i.NeedsMemory → hasMemory = true)

/-- An instruction with an immediate. -/
theorem isSpelled_of_map {α : Type} {r : Reader α} {format : α → List UInt8 → Prop}
    {f : α → Instr BlockType} {op : UInt8} (hr : Reader.Accepts r format)
    (hw : w.stop ≤ w.bytes.size) (hop : w.get? pos = some op)
    (h : (f <$> r) w (pos + 1) = .ok (i, next))
    (he : ∀ {a bs}, format a bs → (f a).Encodes (op :: bs))
    (hm : ∀ {a}, (f a).NeedsMemory → hasMemory = true) : IsSpelled hasMemory w pos next i := by
  obtain ⟨a, ha, rfl⟩ := Reader.map_eq_ok_iff.1 h
  obtain ⟨bs, hs, hformat⟩ := (hr hw).1 ha
  exact ⟨op :: bs, ⟨hop, hs⟩, he hformat, hm⟩

/-- An instruction without immediates. -/
theorem isSpelled_of_pure {op : UInt8} {j : Instr BlockType} (hop : w.get? pos = some op)
    (h : (pure j : Reader _) w (pos + 1) = .ok (i, next)) (he : j.Encodes [op])
    (hm : j.NeedsMemory → hasMemory = true) : IsSpelled hasMemory w pos next i := by
  obtain ⟨rfl, rfl⟩ := Reader.pure_eq_ok_iff.1 h
  exact ⟨[op], ⟨hop, rfl⟩, he, hm⟩

/-- What works on memory needs one. -/
theorem hasMemory_of_read {r : Reader (Instr BlockType)}
    (h : (needMemory hasMemory >>= fun _ => r) w pos = .ok (i, next)) :
    hasMemory = true ∧ r w pos = .ok (i, next) := by
  obtain ⟨_, _, hneed, h⟩ := Reader.bind_eq_ok_iff.1 h
  obtain ⟨hm, rfl⟩ := needMemory_eq_ok_iff.1 hneed
  exact ⟨hm, h⟩

/-- The instructions on the size of a memory have a byte for its index. -/
theorem isSpelled_of_size {op : UInt8} {j : Instr BlockType} (hw : w.stop ≤ w.bytes.size)
    (hop : w.get? pos = some op)
    (h : (do needMemory hasMemory; zeroByte; pure j) w (pos + 1) = .ok (i, next))
    (he : j.Encodes [op, 0x00]) : IsSpelled hasMemory w pos next i := by
  obtain ⟨hm, h⟩ := hasMemory_of_read h
  obtain ⟨_, mid, hz, h⟩ := Reader.bind_eq_ok_iff.1 h
  obtain ⟨_, hs, rfl⟩ := (accepts_zeroByte hw).1 hz
  obtain ⟨rfl, rfl⟩ := Reader.pure_eq_ok_iff.1 h
  exact ⟨_, Window.spells_cons.2 ⟨hop, hs⟩, he, fun _ => hm⟩

/-- An instruction behind the prefix `0xfc` that is read is spelled there. -/
theorem isSpelled_of_readExtended (hw : w.stop ≤ w.bytes.size) (hop : w.get? pos = some 0xfc)
    (h : readExtended hasMemory w (pos + 1) = .ok (i, next)) :
    IsSpelled hasMemory w pos next i := by
  obtain ⟨code, mid, hcode, h⟩ := Reader.bind_eq_ok_iff.1 h
  obtain ⟨bs, hs, hcode⟩ := (Reader.accepts_unsigned (by decide) hw).1 hcode
  split at h
  · obtain ⟨hm, h⟩ := hasMemory_of_read h
    obtain ⟨_, m₁, h₁, h⟩ := Reader.bind_eq_ok_iff.1 h
    obtain ⟨_, m₂, h₂, h⟩ := Reader.bind_eq_ok_iff.1 h
    obtain ⟨_, hs₁, rfl⟩ := (accepts_zeroByte hw).1 h₁
    obtain ⟨_, hs₂, rfl⟩ := (accepts_zeroByte hw).1 h₂
    obtain ⟨rfl, rfl⟩ := Reader.pure_eq_ok_iff.1 h
    have hs₃ := Window.spells_append.2 ⟨_, hs, Window.spells_append.2 ⟨_, hs₁, hs₂⟩⟩
    exact ⟨_, Window.spells_cons.2 ⟨hop, hs₃⟩, .memoryCopy hcode, fun _ => hm⟩
  · obtain ⟨hm, h⟩ := hasMemory_of_read h
    obtain ⟨_, m₁, h₁, h⟩ := Reader.bind_eq_ok_iff.1 h
    obtain ⟨_, hs₁, rfl⟩ := (accepts_zeroByte hw).1 h₁
    obtain ⟨rfl, rfl⟩ := Reader.pure_eq_ok_iff.1 h
    have hs₂ := Window.spells_append.2 ⟨_, hs, hs₁⟩
    exact ⟨_, Window.spells_cons.2 ⟨hop, hs₂⟩, .memoryFill hcode, fun _ => hm⟩
  · cases hsat : NumOp.saturating[code]? with
    | some op =>
      rw [hsat] at h
      obtain ⟨rfl, rfl⟩ := Reader.pure_eq_ok_iff.1 h
      exact ⟨_, Window.spells_cons.2 ⟨hop, hs⟩, .saturating hcode hsat, nofun⟩
    | none =>
      rw [hsat] at h
      exact absurd h Reader.malformed_ne_ok

/-! The constants of the numbers that are read. -/

theorem encodes_i32 {v : Int} {bs : List UInt8} (h : Leb128.EncodesSigned 32 v bs) :
    (const (.i32 (Int32.ofInt v).toUInt32)).Encodes (0x41 :: bs) := by
  have hint : (Int32.ofInt v).toUInt32.toInt32.toInt = v := by
    rw [Int32.toInt32_toUInt32, Int32.toInt_ofInt_of_le h.ge h.lt]
  exact .constI32 (hint.symm ▸ h)

theorem encodes_i64 {v : Int} {bs : List UInt8} (h : Leb128.EncodesSigned 64 v bs) :
    (const (.i64 (Int64.ofInt v).toUInt64)).Encodes (0x42 :: bs) := by
  have hint : (Int64.ofInt v).toUInt64.toInt64.toInt = v := by
    rw [Int64.toInt64_toUInt64, Int64.toInt_ofInt_of_le h.ge h.lt]
  exact .constI64 (hint.symm ▸ h)

theorem encodes_f32 {v : Nat} (h : v < 256 ^ 4) :
    (const (.f32 v.toUInt32)).Encodes (0x43 :: bytesOfNat v 4) := by
  have hnat : v.toUInt32.toNat = v := Nat.mod_eq_of_lt h
  have hword : (const (.f32 v.toUInt32)).Encodes (0x43 :: bytesOfNat v.toUInt32.toNat 4) := .constF32
  rwa [hnat] at hword

theorem encodes_f64 {v : Nat} (h : v < 256 ^ 8) :
    (const (.f64 v.toUInt64)).Encodes (0x44 :: bytesOfNat v 8) := by
  have hnat : v.toUInt64.toNat = v := Nat.mod_eq_of_lt h
  have hword : (const (.f64 v.toUInt64)).Encodes (0x44 :: bytesOfNat v.toUInt64.toNat 8) := .constF64
  rwa [hnat] at hword

/-- **What is read is spelled there**, opcode by opcode. -/
theorem isSpelled_of_read (hw : w.stop ≤ w.bytes.size)
    (h : Instr.read hasMemory w pos = .ok (i, next)) : IsSpelled hasMemory w pos next i := by
  obtain ⟨op, mid, hbyte, h⟩ := Reader.bind_eq_ok_iff.1 h
  obtain ⟨hop, rfl⟩ := Reader.byte_eq_ok_iff.1 hbyte
  clear hbyte
  split at h
  case h_1 => exact isSpelled_of_pure hop h .unreachable nofun
  case h_2 => exact isSpelled_of_pure hop h .nop nofun
  case h_3 => exact isSpelled_of_map BlockType.accepts_read hw hop h .block nofun
  case h_4 => exact isSpelled_of_map BlockType.accepts_read hw hop h .loop nofun
  case h_5 => exact isSpelled_of_map BlockType.accepts_read hw hop h .ifThen nofun
  case h_6 => exact isSpelled_of_pure hop h .elseMark nofun
  case h_7 => exact isSpelled_of_pure hop h .endMark nofun
  case h_8 => exact isSpelled_of_map Reader.accepts_u32 hw hop h .br nofun
  case h_9 => exact isSpelled_of_map Reader.accepts_u32 hw hop h .brIf nofun
  case h_10 =>
    obtain ⟨n, m₁, h₁, h⟩ := Reader.bind_eq_ok_iff.1 h
    obtain ⟨targets, m₂, h₂, h⟩ := Reader.bind_eq_ok_iff.1 h
    obtain ⟨default, h₃, rfl⟩ := Reader.map_eq_ok_iff.1 h
    obtain ⟨b₁, hs₁, hn⟩ := (Reader.accepts_u32 hw).1 h₁
    obtain ⟨b₂, hs₂, rfl, ht⟩ := (Reader.accepts_replicate Reader.accepts_u32 n hw).1 h₂
    obtain ⟨b₃, hs₃, hd⟩ := (Reader.accepts_u32 hw).1 h₃
    have hs := Window.spells_append.2 ⟨_, hs₁, Window.spells_append.2 ⟨_, hs₂, hs₃⟩⟩
    exact ⟨_, Window.spells_cons.2 ⟨hop, hs⟩, .brTable hn ht hd, nofun⟩
  case h_11 => exact isSpelled_of_pure hop h .ret nofun
  case h_12 => exact isSpelled_of_map Reader.accepts_u32 hw hop h .call nofun
  case h_13 =>
    obtain ⟨type, m₁, h₁, h⟩ := Reader.bind_eq_ok_iff.1 h
    obtain ⟨table, h₂, rfl⟩ := Reader.map_eq_ok_iff.1 h
    obtain ⟨b₁, hs₁, ht⟩ := (Reader.accepts_u32 hw).1 h₁
    obtain ⟨b₂, hs₂, hn⟩ := (Reader.accepts_u32 hw).1 h₂
    have hs := Window.spells_append.2 ⟨_, hs₁, hs₂⟩
    exact ⟨_, Window.spells_cons.2 ⟨hop, hs⟩, .callIndirect ht hn, nofun⟩
  case h_14 => exact isSpelled_of_pure hop h .drop nofun
  case h_15 => exact isSpelled_of_pure hop h .select nofun
  case h_16 =>
    obtain ⟨n, m₁, h₁, h⟩ := Reader.bind_eq_ok_iff.1 h
    obtain ⟨b₁, hs₁, hn⟩ := (Reader.accepts_u32 hw).1 h₁
    dsimp only at h
    split at h
    · obtain ⟨_, _, h, -⟩ := Reader.bind_eq_ok_iff.1 h
      exact absurd h Reader.invalid_ne_ok
    · next hone =>
      obtain rfl : n = 1 := Decidable.not_not.1 hone
      obtain ⟨type, htype, rfl⟩ := Reader.map_eq_ok_iff.1 h
      obtain ⟨t, ht, rfl⟩ := Reader.map_eq_ok_iff.1 htype
      obtain ⟨b₂, hs₂, rfl⟩ := (Reader.accepts_valType hw).1 ht
      have hs := Window.spells_append.2 ⟨_, hs₁, hs₂⟩
      exact ⟨_, Window.spells_cons.2 ⟨hop, hs⟩, .selectType hn, nofun⟩
  case h_17 => exact isSpelled_of_map Reader.accepts_u32 hw hop h .localGet nofun
  case h_18 => exact isSpelled_of_map Reader.accepts_u32 hw hop h .localSet nofun
  case h_19 => exact isSpelled_of_map Reader.accepts_u32 hw hop h .localTee nofun
  case h_20 => exact isSpelled_of_map Reader.accepts_u32 hw hop h .globalGet nofun
  case h_21 => exact isSpelled_of_map Reader.accepts_u32 hw hop h .globalSet nofun
  case h_22 => exact isSpelled_of_size hw hop h .memorySize
  case h_23 => exact isSpelled_of_size hw hop h .memoryGrow
  case h_24 =>
    obtain ⟨v, mid, hv, h⟩ := Reader.bind_eq_ok_iff.1 h
    obtain ⟨bs, hs, hv⟩ := (Reader.accepts_signed (by decide) hw).1 hv
    obtain ⟨rfl, rfl⟩ := Reader.pure_eq_ok_iff.1 h
    exact ⟨_, Window.spells_cons.2 ⟨hop, hs⟩, encodes_i32 hv, nofun⟩
  case h_25 =>
    obtain ⟨v, mid, hv, h⟩ := Reader.bind_eq_ok_iff.1 h
    obtain ⟨bs, hs, hv⟩ := (Reader.accepts_signed (by decide) hw).1 hv
    obtain ⟨rfl, rfl⟩ := Reader.pure_eq_ok_iff.1 h
    exact ⟨_, Window.spells_cons.2 ⟨hop, hs⟩, encodes_i64 hv, nofun⟩
  case h_26 =>
    obtain ⟨v, mid, hv, h⟩ := Reader.bind_eq_ok_iff.1 h
    obtain ⟨hs, hlt⟩ := (word_eq_ok_iff (by decide) hw).1 hv
    obtain ⟨rfl, rfl⟩ := Reader.pure_eq_ok_iff.1 h
    exact ⟨_, Window.spells_cons.2 ⟨hop, hs⟩, encodes_f32 hlt, nofun⟩
  case h_27 =>
    obtain ⟨v, mid, hv, h⟩ := Reader.bind_eq_ok_iff.1 h
    obtain ⟨hs, hlt⟩ := (word_eq_ok_iff (by decide) hw).1 hv
    obtain ⟨rfl, rfl⟩ := Reader.pure_eq_ok_iff.1 h
    exact ⟨_, Window.spells_cons.2 ⟨hop, hs⟩, encodes_f64 hlt, nofun⟩
  case h_28 => exact isSpelled_of_readExtended hw hop h
  case h_29 =>
    cases hload : LoadOp.ofOpcode? op with
    | some loadOp =>
      rw [hload] at h
      obtain ⟨hm, h⟩ := hasMemory_of_read h
      exact isSpelled_of_map accepts_memArg hw hop h (.load hload) fun _ => hm
    | none =>
    rw [hload] at h
    cases hstore : StoreOp.ofOpcode? op with
    | some storeOp =>
      rw [hstore] at h
      obtain ⟨hm, h⟩ := hasMemory_of_read h
      exact isSpelled_of_map accepts_memArg hw hop h (.store hstore) fun _ => hm
    | none =>
    rw [hstore] at h
    cases hnum : NumOp.ofOpcode? op with
    | some numOp =>
      rw [hnum] at h
      exact isSpelled_of_pure hop h (.numeric hnum) nofun
    | none =>
      rw [hnum] at h
      exact absurd h Reader.malformed_ne_ok

/-- A load or store that is spelled is read, where there is a memory. -/
theorem access_of_encodes (hw : w.stop ≤ w.bytes.size) (hm : hasMemory = true) {arg : MemArg}
    {bs : List UInt8} (hs : w.Spells pos bs next) (ha : arg.Encodes bs)
    {f : MemArg → Instr BlockType} :
    (needMemory hasMemory >>= fun _ => f <$> memArg) w pos = .ok (f arg, next) :=
  Reader.bind_eq_ok_iff.2 ⟨(), _, needMemory_eq_ok_iff.2 ⟨hm, rfl⟩,
    Reader.map_eq_ok_iff.2 ⟨arg, (accepts_memArg hw).2 ⟨bs, hs, ha⟩, rfl⟩⟩

/-- **What is spelled is read**, instruction by instruction. -/
theorem read_of_encodes (hw : w.stop ≤ w.bytes.size) {bs : List UInt8} (hs : w.Spells pos bs next)
    (h : i.Encodes bs) (hm : i.NeedsMemory → hasMemory = true) :
    Instr.read hasMemory w pos = .ok (i, next) := by
  rw [Instr.read, Reader.bind_eq_ok_iff]
  cases h with
  | unreachable | nop | elseMark | endMark | ret | drop | select =>
    exact ⟨_, next, Reader.byte_eq_ok_iff.2 hs, rfl⟩
  | block ht | loop ht | ifThen ht =>
    exact ⟨_, _, Reader.byte_eq_ok_iff.2 ⟨hs.1, rfl⟩,
      Reader.map_eq_ok_iff.2 ⟨_, (BlockType.accepts_read hw).2 ⟨_, hs.2, ht⟩, rfl⟩⟩
  | br hv | brIf hv | call hv | localGet hv | localSet hv | localTee hv | globalGet hv
  | globalSet hv =>
    exact ⟨_, _, Reader.byte_eq_ok_iff.2 ⟨hs.1, rfl⟩,
      Reader.map_eq_ok_iff.2 ⟨_, (Reader.accepts_u32 hw).2 ⟨_, hs.2, hv⟩, rfl⟩⟩
  | brTable hn ht hd =>
    obtain ⟨hop, hs⟩ := hs
    obtain ⟨m₁, hs₁, hs⟩ := Window.spells_append.1 hs
    obtain ⟨m₂, hs₂, hs₃⟩ := Window.spells_append.1 hs
    refine ⟨_, _, Reader.byte_eq_ok_iff.2 ⟨hop, rfl⟩, ?_⟩
    refine Reader.bind_eq_ok_iff.2 ⟨_, m₁, (Reader.accepts_u32 hw).2 ⟨_, hs₁, hn⟩, ?_⟩
    refine Reader.bind_eq_ok_iff.2
      ⟨_, m₂, (Reader.accepts_replicate Reader.accepts_u32 _ hw).2 ⟨_, hs₂, rfl, ht⟩, ?_⟩
    exact Reader.map_eq_ok_iff.2 ⟨_, (Reader.accepts_u32 hw).2 ⟨_, hs₃, hd⟩, rfl⟩
  | callIndirect ht hn =>
    obtain ⟨hop, hs⟩ := hs
    obtain ⟨m₁, hs₁, hs₂⟩ := Window.spells_append.1 hs
    refine ⟨_, _, Reader.byte_eq_ok_iff.2 ⟨hop, rfl⟩, ?_⟩
    refine Reader.bind_eq_ok_iff.2 ⟨_, m₁, (Reader.accepts_u32 hw).2 ⟨_, hs₁, ht⟩, ?_⟩
    exact Reader.map_eq_ok_iff.2 ⟨_, (Reader.accepts_u32 hw).2 ⟨_, hs₂, hn⟩, rfl⟩
  | selectType hone =>
    obtain ⟨hop, hs⟩ := hs
    obtain ⟨m₁, hs₁, hs₂⟩ := Window.spells_append.1 hs
    refine ⟨_, _, Reader.byte_eq_ok_iff.2 ⟨hop, rfl⟩, ?_⟩
    refine Reader.bind_eq_ok_iff.2 ⟨_, m₁, (Reader.accepts_u32 hw).2 ⟨_, hs₁, hone⟩, ?_⟩
    have ht := (Reader.accepts_valType hw).2 ⟨_, hs₂, rfl⟩
    exact Reader.map_eq_ok_iff.2 ⟨_, Reader.map_eq_ok_iff.2 ⟨_, ht, rfl⟩, rfl⟩
  | memorySize | memoryGrow =>
    refine ⟨_, _, Reader.byte_eq_ok_iff.2 ⟨hs.1, rfl⟩, ?_⟩
    refine Reader.bind_eq_ok_iff.2 ⟨(), _, needMemory_eq_ok_iff.2 ⟨hm trivial, rfl⟩, ?_⟩
    exact Reader.bind_eq_ok_iff.2 ⟨(), _, (accepts_zeroByte hw).2 ⟨_, hs.2, rfl⟩, rfl⟩
  | memoryCopy hn =>
    obtain ⟨hop, hs⟩ := hs
    obtain ⟨m₁, hs₁, hs⟩ := Window.spells_append.1 hs
    refine ⟨_, _, Reader.byte_eq_ok_iff.2 ⟨hop, rfl⟩, ?_⟩
    refine Reader.bind_eq_ok_iff.2 ⟨_, m₁, (Reader.accepts_u32 hw).2 ⟨_, hs₁, hn⟩, ?_⟩
    refine Reader.bind_eq_ok_iff.2 ⟨(), _, needMemory_eq_ok_iff.2 ⟨hm trivial, rfl⟩, ?_⟩
    refine Reader.bind_eq_ok_iff.2 ⟨(), m₁ + 1, (accepts_zeroByte hw).2 ⟨[0], ⟨hs.1, rfl⟩, rfl⟩, ?_⟩
    exact Reader.bind_eq_ok_iff.2 ⟨(), _, (accepts_zeroByte hw).2 ⟨_, hs.2, rfl⟩, rfl⟩
  | memoryFill hn =>
    obtain ⟨hop, hs⟩ := hs
    obtain ⟨m₁, hs₁, hs₂⟩ := Window.spells_append.1 hs
    refine ⟨_, _, Reader.byte_eq_ok_iff.2 ⟨hop, rfl⟩, ?_⟩
    refine Reader.bind_eq_ok_iff.2 ⟨_, m₁, (Reader.accepts_u32 hw).2 ⟨_, hs₁, hn⟩, ?_⟩
    refine Reader.bind_eq_ok_iff.2 ⟨(), _, needMemory_eq_ok_iff.2 ⟨hm trivial, rfl⟩, ?_⟩
    exact Reader.bind_eq_ok_iff.2 ⟨(), _, (accepts_zeroByte hw).2 ⟨_, hs₂, rfl⟩, rfl⟩
  | constI32 hv =>
    refine ⟨_, _, Reader.byte_eq_ok_iff.2 ⟨hs.1, rfl⟩, ?_⟩
    refine Reader.bind_eq_ok_iff.2
      ⟨_, next, (Reader.accepts_signed (by decide) hw).2 ⟨_, hs.2, hv⟩, ?_⟩
    rw [Int32.ofInt_toInt, UInt32.toUInt32_toInt32]
    rfl
  | constI64 hv =>
    refine ⟨_, _, Reader.byte_eq_ok_iff.2 ⟨hs.1, rfl⟩, ?_⟩
    refine Reader.bind_eq_ok_iff.2
      ⟨_, next, (Reader.accepts_signed (by decide) hw).2 ⟨_, hs.2, hv⟩, ?_⟩
    rw [Int64.ofInt_toInt, UInt64.toUInt64_toInt64]
    rfl
  | @constF32 v =>
    refine ⟨_, _, Reader.byte_eq_ok_iff.2 ⟨hs.1, rfl⟩, ?_⟩
    refine Reader.bind_eq_ok_iff.2
      ⟨_, next, (word_eq_ok_iff (by decide) hw).2 ⟨hs.2, v.toNat_lt⟩, ?_⟩
    simp [Reader.pure_eq_ok_iff]
  | @constF64 v =>
    refine ⟨_, _, Reader.byte_eq_ok_iff.2 ⟨hs.1, rfl⟩, ?_⟩
    refine Reader.bind_eq_ok_iff.2
      ⟨_, next, (word_eq_ok_iff (by decide) hw).2 ⟨hs.2, v.toNat_lt⟩, ?_⟩
    simp [Reader.pure_eq_ok_iff]
  | @saturating op n _ hn hop =>
    refine ⟨_, _, Reader.byte_eq_ok_iff.2 ⟨hs.1, rfl⟩, ?_⟩
    refine Reader.bind_eq_ok_iff.2 ⟨n, next, (Reader.accepts_u32 hw).2 ⟨_, hs.2, hn⟩, ?_⟩
    split
    · exact absurd hop nofun
    · exact absurd hop nofun
    · rw [hop]
      rfl
  | @load op arg b bs hop ha =>
    refine ⟨b, _, Reader.byte_eq_ok_iff.2 ⟨hs.1, rfl⟩, ?_⟩
    split
    case h_29 =>
      rw [hop]
      exact access_of_encodes hw (hm trivial) hs.2 ha
    all_goals exact absurd (LoadOp.opcode_bounds hop) (by decide)
  | @store op arg b bs hop ha =>
    refine ⟨b, _, Reader.byte_eq_ok_iff.2 ⟨hs.1, rfl⟩, ?_⟩
    split
    case h_29 =>
      rw [LoadOp.ofOpcode?_eq_none (StoreOp.opcode_bounds hop).1, hop]
      exact access_of_encodes hw (hm trivial) hs.2 ha
    all_goals exact absurd (StoreOp.opcode_bounds hop) (by decide)
  | @numeric op b hop =>
    have hb := (NumOp.opcode_bounds hop).1
    refine ⟨b, _, Reader.byte_eq_ok_iff.2 ⟨hs.1, rfl⟩, ?_⟩
    split
    case h_29 =>
      rw [LoadOp.ofOpcode?_eq_none (by omega), StoreOp.ofOpcode?_eq_none (by omega), hop]
      exact Reader.pure_eq_ok_iff.2 ⟨rfl, hs.2.symm⟩
    all_goals exact absurd (NumOp.opcode_bounds hop) (by decide)

/-- **The reader accepts exactly the encodings of instructions**, less those that need a memory that
is not there. -/
theorem accepts_read (hasMemory : Bool) :
    Reader.Accepts (Instr.read hasMemory) fun i bs =>
      i.Encodes bs ∧ (i.NeedsMemory → hasMemory = true) := by
  intro w pos i next hw
  constructor
  · exact isSpelled_of_read hw
  · rintro ⟨bs, hs, h, hm⟩
    exact read_of_encodes hw hs h hm

end Instr

end WasmEngine
