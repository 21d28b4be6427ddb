import Mathlib.Data.List.Induction
import WasmEngine.Proofs.Instance.Constants
import WasmEngine.Proofs.Memory.Bytes

/-!
# Proofs/Instance/Segments — what active segments leave behind

Active segments are copied in order, so that at each place the last segment that covers it wins:
`lastCovering`.  The table and the memory of a new instance hold just that (`getElem?_setSegments`,
`exists_writeSegments`).
-/

namespace WasmEngine

/-! ## The last segment that covers a place -/

/-- The item that a segment has for a place, if the segment is active and covers it. -/
def SegmentMode.itemAt {α : Type} (c : Module.Constants) (mode : SegmentMode) (items : List α)
    (place : Nat) : Option α :=
  match mode with
  | .active pos =>
    if (c.offset pos).toNat ≤ place then items[place - (c.offset pos).toNat]? else none
  | .passive | .declarative => none

/-- The item of the last segment that covers a place, or the default. -/
def lastCovering {α : Type} (c : Module.Constants) (default : α)
    (segments : List (SegmentMode × List α)) (place : Nat) : α :=
  (segments.reverse.findSome? fun s => s.1.itemAt c s.2 place).getD default

namespace Instance

variable {α : Type} {c : Module.Constants} {default : α} {place : Nat}

@[simp] theorem lastCovering_nil : lastCovering c default [] place = default := rfl

theorem lastCovering_append (segments : List (SegmentMode × List α)) (mode : SegmentMode)
    (items : List α) :
    lastCovering c default (segments ++ [(mode, items)]) place =
      (mode.itemAt c items place).getD (lastCovering c default segments place) := by
  rw [lastCovering, List.reverse_append, List.reverse_singleton, List.singleton_append,
    List.findSome?_cons]
  cases mode.itemAt c items place <;> rfl

/-- Where a segment goes, if it is active. -/
def start? (c : Module.Constants) : SegmentMode → Option Nat
  | .active pos => some (c.offset pos).toNat
  | .passive | .declarative => none

/-! ## Checking segments -/

/-- Whether an active segment has room for `length` items among `size`. -/
def HasRoom (c : Module.Constants) (mode : SegmentMode) (length size : Nat) : Prop :=
  ∀ pos, mode = .active pos → (c.offset pos).toNat + length ≤ size

theorem hasRoom_of_none {mode : SegmentMode} {length size : Nat} (h : start? c mode = none) :
    HasRoom c mode length size := fun pos hpos => by
  rw [hpos] at h
  cases h

theorem place_eq_ok_iff {m : Module} {slots : Array Slot} {cause : LinkFailure}
    {length size : Nat} {mode : SegmentMode} {r : Option Nat}
    (h : ∀ pos, mode = .active pos → constant m slots pos = .ok (c.offset pos).toUInt64) :
    Instance.place m slots cause length size mode = .ok r ↔
      r = start? c mode ∧ HasRoom c mode length size := by
  cases mode with
  | passive | declarative =>
    exact ⟨fun hr => ⟨(Except.ok.inj hr).symm, hasRoom_of_none rfl⟩,
      fun hr => congrArg Except.ok hr.1.symm⟩
  | active pos =>
    have hstart : (c.offset pos).toUInt64.toUInt32.toNat = (c.offset pos).toNat := by
      rw [UInt32.toUInt32_toUInt64]
    have hroom : HasRoom c (.active pos) length size ↔ (c.offset pos).toNat + length ≤ size :=
      ⟨fun hr => hr pos rfl, fun hr pos' hpos => SegmentMode.active.inj hpos ▸ hr⟩
    rw [hroom, Instance.place, h pos rfl]
    change (if size < (c.offset pos).toUInt64.toUInt32.toNat + length then _ else _) = _ ↔ _
    rw [hstart]
    split
    · next hlt =>
      constructor
      · intro hr
        cases hr
      · exact fun hr => absurd hr.2 (Nat.not_le.2 hlt)
    · next hle =>
      exact ⟨fun hr => ⟨(Except.ok.inj hr).symm, Nat.le_of_not_lt hle⟩,
        fun hr => congrArg Except.ok hr.1.symm⟩

/-- **Segments pass the check exactly if all active ones have room.** -/
theorem mapM_place_eq_ok_iff {β : Type} {m : Module} {slots : Array Slot} {cause : LinkFailure}
    {size : Nat} {mode : β → SegmentMode} {length : β → Nat} {segments : List β}
    {r : List (Option Nat × β)}
    (h : ∀ s ∈ segments, ∀ pos, mode s = .active pos →
      constant m slots pos = .ok (c.offset pos).toUInt64) :
    segments.mapM (fun s => do
        pure (← Instance.place m slots cause (length s) size (mode s), s)) = .ok r ↔
      r = segments.map (fun s => (start? c (mode s), s)) ∧
        ∀ s ∈ segments, HasRoom c (mode s) (length s) size := by
  induction segments generalizing r with
  | nil =>
    constructor
    · intro hr
      cases hr
      exact ⟨rfl, nofun⟩
    · rintro ⟨rfl, -⟩
      rfl
  | cons s segments ih =>
    obtain ⟨hs, hsegments⟩ := List.forall_mem_cons.1 h
    rw [List.mapM_cons, List.forall_mem_cons, List.map_cons]
    simp only [Except.bind_eq_ok_iff, ih hsegments]
    constructor
    · rintro ⟨p, ⟨start, hplace, hp⟩, rest, ⟨rfl, hrooms⟩, hr⟩
      obtain ⟨rfl, hroom⟩ := (place_eq_ok_iff hs).1 hplace
      cases hp
      cases hr
      exact ⟨rfl, hroom, hrooms⟩
    · rintro ⟨rfl, hroom, hrooms⟩
      exact ⟨_, ⟨_, (place_eq_ok_iff hs).2 ⟨rfl, hroom⟩, rfl⟩, _, ⟨rfl, hrooms⟩, rfl⟩

/-! ## The table -/

@[simp] theorem size_setElements (table : Array (Option Nat)) (start : Nat)
    (funcs : List (Option Nat)) : (setElements table start funcs).size = table.size := by
  induction funcs generalizing table start with
  | nil => rfl
  | cons f funcs ih => rw [setElements, ih, Array.size_setIfInBounds]

theorem getElem?_setElements {table : Array (Option Nat)} {start slot : Nat}
    {funcs : List (Option Nat)} (hslot : slot < table.size) :
    (setElements table start funcs)[slot]? =
      (if start ≤ slot then funcs[slot - start]? else none).or table[slot]? := by
  induction funcs generalizing table start with
  | nil => simp [setElements]
  | cons f funcs ih =>
    rw [setElements, ih (by rwa [Array.size_setIfInBounds]), Array.getElem?_setIfInBounds]
    obtain hlt | rfl | hlt := Nat.lt_trichotomy slot start
    · rw [if_neg (by omega), if_neg (by omega), if_neg (by omega)]
    · rw [if_neg (by omega), if_pos rfl, if_pos hslot, if_pos (Nat.le_refl _), Nat.sub_self]
      rfl
    · have hsub : slot - start = slot - (start + 1) + 1 := by omega
      rw [if_pos (by omega), if_neg (by omega), if_pos (by omega), hsub, List.getElem?_cons_succ]

/-- Copies an element segment into the table, if it is active. -/
def setSegment (c : Module.Constants) (table : Array (Option Nat)) (s : ElementSegment) :
    Array (Option Nat) :=
  match start? c s.mode with
  | some start => setElements table start s.funcs
  | none => table

/-- **A slot holds what the last covering segment has for it**, or what it held before. -/
theorem getElem?_setSegments (n : Nat) (segments : List ElementSegment) :
    (segments.foldl (setSegment c) (Array.replicate n none)).size = n ∧
      ∀ slot < n, (segments.foldl (setSegment c) (Array.replicate n none))[slot]? =
        some (lastCovering c none (segments.map fun s => (s.mode, s.funcs)) slot) := by
  induction segments using List.reverseRecOn with
  | nil =>
    refine ⟨Array.size_replicate, fun slot hslot => ?_⟩
    simp [hslot]
  | append_singleton segments s ih =>
    obtain ⟨hsize, hslots⟩ := ih
    rw [List.foldl_append, List.map_append]
    simp only [List.foldl_cons, List.foldl_nil, List.map_cons, List.map_nil, lastCovering_append]
    generalize segments.foldl (setSegment c) (Array.replicate n none) = table at hsize hslots
    cases hmode : s.mode with
    | passive | declarative =>
      simp only [setSegment, start?, hmode, SegmentMode.itemAt, Option.getD_none]
      exact ⟨hsize, hslots⟩
    | active pos =>
      simp only [setSegment, start?, hmode, size_setElements]
      refine ⟨hsize, fun slot hslot => ?_⟩
      rw [getElem?_setElements (hsize.symm ▸ hslot), hslots slot hslot, SegmentMode.itemAt]
      cases (if (c.offset pos).toNat ≤ slot then s.funcs[slot - (c.offset pos).toNat]? else none)
        <;> rfl

/-! ## Memory -/

/-- The bytes of a data segment. -/
def segmentBytes (bytes : ByteArray) (s : DataSegment) : ByteArray :=
  bytes.extract s.range.start s.range.stop

/-- Copies a data segment into memory, if it is active. -/
def writeSegment (c : Module.Constants) (bytes : ByteArray) (memory : Memory) (s : DataSegment) :
    Except Error Memory :=
  match start? c s.mode with
  | none => pure memory
  | some start =>
    match Memory.write start.toUInt32 (segmentBytes bytes s) memory with
    | .ok () memory => pure memory
    | .error e _ => throw e

theorem size_segmentBytes {bytes : ByteArray} {s : DataSegment} (h : s.range.Fits bytes) :
    (segmentBytes bytes s).size = s.range.length := by
  rw [segmentBytes, ByteArray.size_extract, Nat.min_eq_left h.2, ByteRange.length]

theorem getElem?_write {data src : ByteArray} {start i : Nat} (h : start + src.size ≤ data.size)
    (hi : i < data.size) :
    (src.copySlice 0 data start src.size)[i]? =
      (if start ≤ i then src.toList[i - start]? else none).or data[i]? := by
  have hlist (k : Nat) : src.toList[k]? = src[k]? := by
    rw [toList_eq_data, Array.getElem?_toList]
    rfl
  by_cases hin : start ≤ i ∧ i < start + src.size
  · obtain ⟨k, rfl⟩ := Nat.exists_eq_add_of_le hin.1
    have hk : k < src.size := by omega
    rw [Memory.getElem?_copySlice_add h hk, if_pos hin.1, Nat.add_sub_cancel_left, hlist,
      getElem?_pos src k hk]
    rfl
  · rw [Memory.getElem?_copySlice h (by omega)]
    split
    · next hle =>
      rw [hlist, getElem?_neg src (i - start) (by omega)]
      rfl
    · rfl

/-- **Data segments that have room can all be written**, and then each byte is what the last
covering segment has for it. -/
theorem exists_writeSegments {bytes : ByteArray} {segments : List DataSegment} {memory : Memory}
    (hzero : ∀ i < memory.size, memory.data[i]? = some 0) (hsize : memory.size < 2 ^ 63)
    (hfits : ∀ s ∈ segments, s.range.Fits bytes)
    (hroom : ∀ s ∈ segments, HasRoom c s.mode s.range.length memory.size) :
    ∃ data, segments.foldlM (writeSegment c bytes) memory = .ok { memory with data } ∧
      data.size = memory.size ∧
      ∀ i < memory.size, data[i]? = some (lastCovering c 0
        (segments.map fun s => (s.mode, (segmentBytes bytes s).toList)) i) := by
  induction segments using List.reverseRecOn with
  | nil => exact ⟨memory.data, rfl, rfl, hzero⟩
  | append_singleton segments s ih =>
    obtain ⟨hfits, hfit⟩ := List.forall_mem_append.1 hfits
    obtain ⟨hroom, hroom'⟩ := List.forall_mem_append.1 hroom
    obtain ⟨data, hfold, hdata, hbytes⟩ := ih hfits hroom
    have hlen := size_segmentBytes (hfit s (List.mem_singleton_self s))
    rw [List.foldlM_append, hfold, List.map_append]
    simp only [List.map_cons, List.map_nil, lastCovering_append]
    change ∃ data', (writeSegment c bytes { memory with data } s >>= fun m => .ok m) = _ ∧ _
    cases hmode : s.mode with
    | passive | declarative =>
      refine ⟨data, ?_, hdata, hbytes⟩
      rw [writeSegment, hmode]
      rfl
    | active pos =>
      have hle : (c.offset pos).toNat + (segmentBytes bytes s).size ≤ data.size := by
        rw [hlen, hdata]
        exact hroom' s (List.mem_singleton_self s) pos hmode
      have hstart : (c.offset pos).toNat.toUInt32 = c.offset pos := UInt32.ofNat_toNat
      have hwrite : Memory.write (c.offset pos) (segmentBytes bytes s) { memory with data } =
          .ok () _ := Memory.write_eq_ok (by omega) hle
      refine ⟨_, ?_, (Memory.size_copySlice hle).trans hdata, fun i hi => ?_⟩
      · rw [writeSegment, hmode]
        simp only [start?, hstart, hwrite]
        rfl
      · rw [getElem?_write hle (hdata.symm ▸ hi), hbytes i hi, SegmentMode.itemAt]
        cases (if (c.offset pos).toNat ≤ i then
          (segmentBytes bytes s).toList[i - (c.offset pos).toNat]? else none) <;> rfl

end Instance

end WasmEngine
