import WasmEngine.Proofs.Decode.Ensures
import WasmEngine.Proofs.Encoding.Source
import WasmEngine.Proofs.Syntax.Reading

/-!
# Proofs/Locals/Runs — declarations of locals

A body declares its locals in runs of one type, behind the number of runs (`EncodesLocals`).  With the
parameters, each run must stay within the cap: the reader accepts exactly the declarations that do
(`Draft.accepts_locals`), and reports too many locals on those that do not, as soon as the first runs
pass the cap (`Draft.locals_overflow`).  No run, no check: parameters alone are never counted.
-/

namespace WasmEngine

open Source (expand)

/-- The bytes of a run of locals: their number and their type. -/
def EncodesRun (run : Nat × ValType) (bs : List UInt8) : Prop :=
  ∃ count, bs = count ++ [run.2.toByte] ∧ EncodesU32 run.1 count

/-- The bytes of declarations of locals: the number of runs, and the runs. -/
def EncodesLocals (runs : List (Nat × ValType)) (bs : List UInt8) : Prop :=
  ∃ count entries, bs = count ++ entries ∧ EncodesU32 runs.length count ∧
    EncodesEach EncodesRun runs entries

/-- Runs of locals that the cap admits behind a number of others, of which the last check tells. -/
def WithinCap (before : Nat) (runs : List (Nat × ValType)) : Prop :=
  runs ≠ [] → before + (expand runs).length ≤ Module.maxLocals

theorem length_expand_cons (run : Nat × ValType) (runs : List (Nat × ValType)) :
    (expand (run :: runs)).length = run.1 + (expand runs).length := by
  simp [expand]

theorem withinCap_nil (before : Nat) : WithinCap before [] := fun h => absurd rfl h

/-- The check of a run counts all before it. -/
theorem withinCap_cons {before : Nat} {run : Nat × ValType} {runs : List (Nat × ValType)} :
    WithinCap before (run :: runs) ↔
      before + run.1 ≤ Module.maxLocals ∧ WithinCap (before + run.1) runs := by
  unfold WithinCap
  rw [length_expand_cons]
  constructor
  · intro h
    have h := h (List.cons_ne_nil run runs)
    exact ⟨by omega, fun _ => by omega⟩
  · rintro ⟨hrun, hruns⟩ -
    cases runs with
    | nil => simpa [expand] using hrun
    | cons next runs =>
      have hruns := hruns (List.cons_ne_nil next runs)
      omega

namespace Draft

open Reader

variable {w : Window} {pos next : Nat} {run : Nat × ValType} {runs : List (Nat × ValType)}
  {bs : List UInt8}

/-- A run is read up to the check of the cap. -/
theorem localsEntry_of_spells (locals : Array ValType) (hw : w.stop ≤ w.bytes.size)
    (hs : w.Spells pos bs next) (h : EncodesRun run bs) :
    localsEntry locals w pos =
      if Module.maxLocals < locals.size + run.1 then .error (.malformed .tooManyLocals)
      else .ok (locals ++ Array.replicate run.1 run.2, next) := by
  obtain ⟨count, rfl, hcount⟩ := h
  obtain ⟨mid, hn, htype⟩ := Window.spells_append.1 hs
  have hu32 : u32 w pos = .ok (run.1, mid) := (accepts_u32 hw).2 ⟨_, hn, hcount⟩
  have hval : valType w mid = .ok (run.2, next) := (accepts_valType hw).2 ⟨_, htype, rfl⟩
  rw [localsEntry, bind_of_eq_ok hu32, bind_of_eq_ok hval]
  split <;> rfl

theorem accepts_localsEntry (locals : Array ValType) :
    Accepts (localsEntry locals) fun locals' bs => ∃ run, EncodesRun run bs ∧
      locals.size + run.1 ≤ Module.maxLocals ∧
      locals' = locals ++ Array.replicate run.1 run.2 := by
  intro w pos locals' next hw
  constructor
  · intro h
    obtain ⟨n, mid, hn, h'⟩ := bind_eq_ok_iff.1 h
    obtain ⟨type, stop, htype, -⟩ := bind_eq_ok_iff.1 h'
    obtain ⟨count, hcount, hencodes⟩ := (accepts_u32 hw).1 hn
    obtain ⟨_, htype, rfl⟩ := (accepts_valType hw).1 htype
    have hs := Window.spells_append.2 ⟨mid, hcount, htype⟩
    have hrun : EncodesRun (n, type) (count ++ [type.toByte]) := ⟨count, rfl, hencodes⟩
    rw [localsEntry_of_spells locals hw hs hrun] at h
    split at h
    · cases h
    · next hle =>
      cases h
      exact ⟨_, hs, (n, type), hrun, Nat.le_of_not_lt hle, rfl⟩
  · rintro ⟨bs, hs, run, hrun, hle, rfl⟩
    rw [localsEntry_of_spells locals hw hs hrun, if_neg (Nat.not_lt.2 hle)]

/-- **Runs are read** if the cap admits them all. -/
theorem accepts_iterate_localsEntry (n : Nat) (locals : Array ValType) :
    Accepts (iterate n localsEntry locals) fun locals' bs => ∃ runs, runs.length = n ∧
      EncodesEach EncodesRun runs bs ∧ WithinCap locals.size runs ∧
      locals' = locals ++ (expand runs).toArray := by
  induction n generalizing locals with
  | zero =>
    refine (accepts_pure locals).congr fun locals' bs => ?_
    constructor
    · rintro ⟨rfl, rfl⟩
      exact ⟨[], rfl, rfl, withinCap_nil _, by simp [expand]⟩
    · rintro ⟨runs, hlen, hbs, -, rfl⟩
      obtain rfl := List.length_eq_zero_iff.1 hlen
      exact ⟨by simp [expand], hbs⟩
  | succ n ih =>
    have hexpand (run : Nat × ValType) (runs : List (Nat × ValType)) :
        locals ++ Array.replicate run.1 run.2 ++ (expand runs).toArray =
          locals ++ (expand (run :: runs)).toArray := by
      simp [← Array.toList_inj, expand]
    refine ((accepts_localsEntry locals).bind fun locals' => ih locals').congr fun locals' bs => ?_
    constructor
    · rintro ⟨_, b₁, b₂, rfl, ⟨run, hrun, hle, rfl⟩, runs, rfl, hruns, hcap, rfl⟩
      refine ⟨run :: runs, rfl, ⟨b₁, b₂, rfl, hrun, hruns⟩, withinCap_cons.2 ⟨hle, ?_⟩,
        hexpand run runs⟩
      simpa using hcap
    · rintro ⟨runs, hlen, hbs, hcap, rfl⟩
      match runs, hlen with
      | run :: runs, hlen =>
        obtain ⟨b₁, b₂, rfl, hrun, hruns⟩ := hbs
        obtain ⟨hle, hcap⟩ := withinCap_cons.1 hcap
        exact ⟨_, b₁, b₂, rfl, ⟨run, hrun, hle, rfl⟩, runs, by simpa using hlen, hruns,
          by simpa using hcap, (hexpand run runs).symm⟩

/-- **The reader of locals accepts exactly the declarations that the cap admits**, and puts them
behind the parameters. -/
theorem accepts_locals (params : List ValType) :
    Accepts (do iterate (← u32) localsEntry params.toArray) fun locals bs => ∃ runs,
      EncodesLocals runs bs ∧ WithinCap params.length runs ∧
      locals = (params ++ expand runs).toArray := by
  refine (accepts_u32.bind fun n => accepts_iterate_localsEntry n params.toArray).congr
    fun locals bs => ?_
  constructor
  · rintro ⟨_, count, entries, rfl, hcount, runs, rfl, hruns, hcap, rfl⟩
    exact ⟨runs, ⟨count, entries, rfl, hcount, hruns⟩, by simpa using hcap, by simp⟩
  · rintro ⟨runs, ⟨count, entries, rfl, hcount, hruns⟩, hcap, rfl⟩
    exact ⟨_, count, entries, rfl, hcount, runs, rfl, hruns, by simpa using hcap, by simp⟩

theorem iterate_localsEntry_overflow {n : Nat} {locals : Array ValType} (hw : w.stop ≤ w.bytes.size)
    (hs : w.Spells pos bs next) (hruns : EncodesEach EncodesRun runs bs) (hn : runs.length ≤ n)
    (hover : ¬ WithinCap locals.size runs) :
    iterate n localsEntry locals w pos = .error (.malformed .tooManyLocals) := by
  induction runs generalizing n pos bs locals with
  | nil => exact absurd (withinCap_nil _) hover
  | cons run runs ih =>
    obtain ⟨b₁, b₂, rfl, hrun, hruns⟩ := hruns
    obtain ⟨mid, hs₁, hs₂⟩ := Window.spells_append.1 hs
    obtain ⟨n, rfl⟩ : ∃ m, n = m + 1 := ⟨n - 1, by rw [List.length_cons] at hn; omega⟩
    have hentry := localsEntry_of_spells locals hw hs₁ hrun
    by_cases hle : locals.size + run.1 ≤ Module.maxLocals
    · have hrest : ¬ WithinCap (locals ++ Array.replicate run.1 run.2).size runs := fun hcap =>
        hover (withinCap_cons.2 ⟨hle, by simpa using hcap⟩)
      rw [if_neg (Nat.not_lt.2 hle)] at hentry
      rw [iterate, bind_of_eq_ok hentry]
      exact ih hs₂ hruns (Nat.le_of_succ_le_succ hn) hrest
    · rw [if_pos (Nat.lt_of_not_le hle)] at hentry
      rw [iterate, bind_of_eq_error hentry]

/-- **Too many locals are reported**, if the first of the announced runs pass the cap. -/
theorem locals_overflow {params : List ValType} {n : Nat} {count : List UInt8}
    (hw : w.stop ≤ w.bytes.size) (hs : w.Spells pos (count ++ bs) next) (hcount : EncodesU32 n count)
    (hruns : EncodesEach EncodesRun runs bs) (hn : runs.length ≤ n)
    (hover : ¬ WithinCap params.length runs) :
    (do iterate (← u32) localsEntry params.toArray) w pos = .error (.malformed .tooManyLocals) := by
  obtain ⟨mid, hs₁, hs₂⟩ := Window.spells_append.1 hs
  have hu32 : u32 w pos = .ok (n, mid) := (accepts_u32 hw).2 ⟨_, hs₁, hcount⟩
  rw [bind_of_eq_ok hu32]
  exact iterate_localsEntry_overflow hw hs₂ hruns hn (by simpa using hover)

end Draft

end WasmEngine
