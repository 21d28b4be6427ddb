import WasmEngine.Proofs.Bytes
import WasmEngine.Proofs.Encoding.Source
import WasmEngine.Proofs.Reader

/-!
# Proofs/Encoding/Reads — readers that take the bytes of an item

`Reads r w pos bs a` says that the reader `r` takes the bytes `bs` if they stand at `pos`, and gives
`a`.  There is one rule for each way to build a reader, among them those for vectors, whose items may
change the result of the reader (`reads_iterate`), and for names.
-/

namespace WasmEngine

/-- A part of a window spells what the window spells there. -/
theorem Window.Spells.within {w : Window} {pos next stop : Nat} {bs : List UInt8}
    (h : w.Spells pos bs next) (hnext : next ≤ stop) : ({ w with stop } : Window).Spells pos bs next := by
  induction bs generalizing pos with
  | nil => exact h
  | cons b bs ih =>
    have hlen := h.2.stop_eq
    obtain ⟨-, hget⟩ := Window.get?_eq_some_iff.1 h.1
    exact ⟨Window.get?_eq_some_iff.2 ⟨by dsimp only; omega, hget⟩, ih h.2⟩

namespace Encoding

variable {α β : Type} {w : Window} {pos : Nat}

/-- The reader takes the bytes `bs` at `pos`, if they stand there, and gives `a`.  There may not be
more of them than a length of 32 bits can tell. -/
def Reads (r : Reader α) (w : Window) (pos : Nat) (bs : List UInt8) (a : α) : Prop :=
  bs.length < 2 ^ 32 → w.stop ≤ w.bytes.size → pos ≤ w.stop → w.Spells pos bs (pos + bs.length) →
    r w pos = .ok (a, pos + bs.length)

section Rules

variable {r : Reader α} {f : α → Reader β} {bs cs : List UInt8} {a : α} {b : β}

/-- What is known about the bytes may be used. -/
theorem Reads.of (h : bs.length < 2 ^ 32 → w.stop ≤ w.bytes.size → pos ≤ w.stop →
    w.Spells pos bs (pos + bs.length) → Reads r w pos bs a) : Reads r w pos bs a :=
  fun hlen hw hpos hs => h hlen hw hpos hs hlen hw hpos hs

theorem Reads.congr {a' : α} (h : Reads r w pos bs a) (ha : a = a') : Reads r w pos bs a' := ha ▸ h

/-- A result is read from no bytes. -/
theorem reads_pure (a : α) : Reads (pure a) w pos [] a := fun _ _ _ _ => rfl

/-- **One reader after another** takes one run of bytes after another. -/
theorem Reads.bind (h : Reads r w pos bs a) (hf : Reads (f a) w (pos + bs.length) cs b) :
    Reads (r >>= f) w pos (bs ++ cs) b := by
  intro hlen hw hpos hs
  obtain ⟨mid, hbs, hcs⟩ := Window.spells_append.1 hs
  obtain rfl := hbs.stop_eq
  rw [List.length_append] at hlen hcs ⊢
  rw [← Nat.add_assoc] at hcs ⊢
  rw [Reader.bind_of_eq_ok (h (by omega) hw hpos hbs)]
  exact hf (by omega) hw (hbs.stop_le hpos) hcs

/-- A reader that takes no bytes comes first. -/
theorem Reads.after (h : Reads r w pos [] a) (hf : Reads (f a) w pos cs b) :
    Reads (r >>= f) w pos cs b := h.bind hf

/-- A reader that takes no bytes comes last. -/
theorem Reads.before (h : Reads r w pos bs a) (hf : Reads (f a) w (pos + bs.length) [] b) :
    Reads (r >>= f) w pos bs b := by
  simpa using h.bind hf

/-- Where readers are bracketed makes no difference. -/
theorem Reads.assoc {γ : Type} {g : β → Reader γ} {c : γ} (h : Reads (r >>= f >>= g) w pos bs c) :
    Reads (r >>= fun a => f a >>= g) w pos bs c := bind_assoc r f g ▸ h

/-- A mapped reader reads the same bytes. -/
theorem Reads.map (g : α → β) (h : Reads r w pos bs a) : Reads (g <$> r) w pos bs (g a) := by
  rw [map_eq_pure_bind]
  exact h.before (reads_pure _)

/-- Where the condition holds, the first reader counts. -/
theorem Reads.ite_pos {c : Prop} [Decidable c] {r' : Reader α} (hc : c) (h : Reads r w pos bs a) :
    Reads (if c then r else r') w pos bs a := by rwa [if_pos hc]

theorem Reads.ite_neg {c : Prop} [Decidable c] {r' : Reader α} (hc : ¬c) (h : Reads r w pos bs a) :
    Reads (if c then r' else r) w pos bs a := by rwa [if_neg hc]

end Rules

/-! ## Primitives -/

section Primitives

variable {r : Reader α} {bs cs : List UInt8} {a : α} {stop : Nat}

/-- The position is known without reading. -/
theorem reads_position : Reads Reader.position w pos [] pos := fun _ _ _ _ => rfl

theorem reads_window : Reads (read : Reader Window) w pos [] w := fun _ _ _ _ => rfl

theorem reads_byte (b : UInt8) : Reads Reader.byte w pos [b] b := fun _ _ _ hs =>
  Reader.byte_eq_ok_iff.2 ⟨hs.1, rfl⟩

/-- A reader takes what its format gives to a result. -/
theorem reads_of_accepts {format : α → List UInt8 → Prop} (h : r.Accepts format)
    (hbs : format a bs) : Reads r w pos bs a := fun _ hw _ hs => (h hw).2 ⟨bs, hs, hbs⟩

theorem encodesUnsigned_u32 {n : Nat} (h : n < 2 ^ 32) : Leb128.EncodesUnsigned 32 n (u32 n) :=
  Leb128.encodesUnsigned_unsignedBytes rfl h

/-- A number is read from its shortest spelling. -/
theorem reads_u32 {n : Nat} (h : n < 2 ^ 32) : Reads Reader.u32 w pos (u32 n) n :=
  reads_of_accepts Reader.accepts_u32 (encodesUnsigned_u32 h)

theorem u32_ne_nil {n : Nat} : u32 n ≠ [] := Leb128.unsignedBytes_ne_nil

theorem reads_valType (t : ValType) : Reads Reader.valType w pos [t.toByte] t := by
  refine (reads_byte t.toByte).before ?_
  rw [ValType.ofByte?_toByte]
  exact reads_pure t

/-- Bytes that are skipped are read as the position where they start. -/
theorem reads_skip (bs : List UInt8) : Reads (Reader.skip bs.length) w pos bs pos :=
  fun _ _ hpos hs => Reader.skip_eq_ok_iff.2 ⟨rfl, rfl, hs.stop_le hpos⟩

/-- Seeking reads the bytes that it passes over. -/
theorem reads_seek (h : stop = pos + bs.length) : Reads (Reader.seek stop) w pos bs () :=
  fun _ _ _ _ => h ▸ rfl

/-- The bytes to come are all there. -/
theorem Reads.require {n : Nat} {f : Unit → Reader α} (hn : n = bs.length)
    (h : pos + bs.length ≤ w.stop → Reads (f ()) w pos bs a) :
    Reads (Reader.require n >>= f) w pos bs a := by
  refine .of fun _ _ hpos hs => ?_
  have hle := hs.stop_le hpos
  refine Reads.after (fun _ _ _ _ => ?_) (h hle)
  rw [Reader.require, hn, if_pos hle]
  rfl

/-- What is read in a narrower window is read in the whole one. -/
theorem Reads.within (h : Reads r { w with stop } pos bs a) (hle : pos + bs.length ≤ stop)
    (hstop : stop ≤ w.stop) : Reads (Reader.within stop r) w pos bs a :=
  fun hlen hw _ hs => h hlen (Nat.le_trans hstop hw)
    (Nat.le_trans (Nat.le_add_right ..) hle) (hs.within hle)

end Primitives

/-! ## Vectors -/

section Vectors

variable {f : α → List UInt8} {as : List α}

/-- Bytes bound the number of items. -/
theorem mul_length_le_length_flatMap {n : Nat} (h : ∀ a ∈ as, n ≤ (f a).length) :
    n * as.length ≤ (as.flatMap f).length := by
  induction as with
  | nil => exact Nat.le_refl 0
  | cons a as ih =>
    obtain ⟨ha, has⟩ := List.forall_mem_cons.1 h
    rw [List.flatMap_cons, List.length_append, List.length_cons, Nat.mul_succ, Nat.add_comm]
    exact Nat.add_le_add ha (ih has)

/-- Items that are read one by one are read all together, each where the one before it ends. -/
theorem reads_replicate {item : Reader β} {g : α → β}
    (h : ∀ a ∈ as, ∀ pos, Reads item w pos (f a) (g a)) :
    Reads (Reader.replicate as.length item) w pos (as.flatMap f) (as.map g) := by
  induction as generalizing pos with
  | nil => exact reads_pure []
  | cons a as ih =>
    obtain ⟨ha, has⟩ := List.forall_mem_cons.1 h
    exact (ha pos).bind ((ih has).before (reads_pure _))

/-- Items that are read back as they are. -/
theorem reads_items {item : Reader α} (h : ∀ a ∈ as, ∀ pos, Reads item w pos (f a) a) :
    Reads (Reader.replicate as.length item) w pos (as.flatMap f) as := by
  simpa using reads_replicate (g := id) h

/-- **Items that are read one after the other**, each with what has become of those before it. -/
theorem reads_iterate {step : β → Reader β} (state : List α → β) {todo : List α}
    (h : ∀ before a after, as ++ todo = before ++ a :: after →
      Reads (step (state before)) w (pos + (before.flatMap f).length) (f a)
        (state (before ++ [a]))) :
    Reads (Reader.iterate todo.length step (state as)) w (pos + (as.flatMap f).length)
      (todo.flatMap f) (state (as ++ todo)) := by
  induction todo generalizing as with
  | nil =>
    rw [List.append_nil]
    exact reads_pure _
  | cons a todo ih =>
    have hlen : pos + (as.flatMap f).length + (f a).length =
        pos + ((as ++ [a]).flatMap f).length := by
      simp [Nat.add_assoc]
    refine (h as a todo rfl).bind ?_
    rw [hlen, List.append_cons as a todo]
    exact ih fun before a' after heq => h before a' after ((List.append_cons ..).trans heq)

/-- The number in front of items is read with them. -/
theorem Reads.vec_append {k : Nat → Reader β} {b : β} {cs : List UInt8} (hf : ∀ a ∈ as, f a ≠ [])
    (h : Reads (k as.length) w (pos + (u32 as.length).length) (as.flatMap f ++ cs) b) :
    Reads (Reader.u32 >>= k) w pos (Encoding.vec f as ++ cs) b := by
  refine .of fun hlen _ _ _ => ?_
  have hle := mul_length_le_length_flatMap fun a ha => List.length_pos_of_ne_nil (hf a ha)
  rw [Encoding.vec, List.append_assoc] at hlen ⊢
  simp only [List.length_append] at hlen
  exact (reads_u32 (by omega)).bind h

/-- A vector is read as its length and its items. -/
theorem Reads.vec {k : Nat → Reader β} {b : β} (hf : ∀ a ∈ as, f a ≠ [])
    (h : Reads (k as.length) w (pos + (u32 as.length).length) (as.flatMap f) b) :
    Reads (Reader.u32 >>= k) w pos (Encoding.vec f as) b := by
  have happend : Reads (Reader.u32 >>= k) w pos (Encoding.vec f as ++ []) b :=
    Reads.vec_append hf (by simpa using h)
  simpa using happend

/-- **The entries of a section**, each read with what has become of those before it. -/
theorem reads_entries {step : β → Reader β} {b : β} (state : List α → β)
    (hf : ∀ a ∈ as, f a ≠ []) (hb : state [] = b)
    (h : ∀ before a after, as = before ++ a :: after →
      Reads (step (state before)) w (pos + (u32 as.length).length + (before.flatMap f).length)
        (f a) (state (before ++ [a]))) :
    Reads (do Reader.iterate (← Reader.u32) step b) w pos (Encoding.vec f as) (state as) :=
  hb ▸ .vec hf (reads_iterate state h)

/-- The length in front of bytes is read with them. -/
theorem Reads.sized {k : Nat → Reader β} {b : β} {bs : List UInt8}
    (h : Reads (k bs.length) w (pos + (u32 bs.length).length) bs b) :
    Reads (Reader.u32 >>= k) w pos (Encoding.sized bs) b := by
  refine .of fun hlen _ _ _ => (reads_u32 ?_).bind h
  rw [Encoding.sized, List.length_append] at hlen
  omega

end Vectors

/-- A name is read from its bytes, since they are UTF-8. -/
theorem reads_text (s : String) : Reads Reader.name w pos (text s) s := by
  refine .sized (.of fun _ hw hpos hs => (reads_skip _).before (.after reads_window ?_))
  rw [((Window.spells_iff_extract hw hpos).1 hs).2.2, Utf8.decode?_bytes]
  exact reads_pure s

end Encoding

end WasmEngine
