/-!
# Text/Utf8 — decoding UTF-8 with and without tolerance

`scan` reads bytes one at a time and yields a character for each well-formed sequence and `none` for
each maximal piece that cannot be part of one: a lead byte with the continuation bytes that fit it,
or a single byte that fits nowhere.  Strict decoding (`decode?`) refuses any such piece; tolerant
decoding (`decodeLossy`) puts the replacement character in its place.  The two agree on well-formed
bytes: `decodeLossy_of_decode?`.
-/

namespace WasmEngine.Utf8

/-- A sequence that still lacks continuation bytes. -/
structure Partial where
  /-- The code point bits read so far. -/
  bits : Nat
  /-- The number of further continuation bytes, less one. -/
  missing : Nat
  /-- The bounds of the next byte. -/
  low : UInt8
  high : UInt8

/-- What a byte can begin. -/
inductive Lead where
  | char (c : Char)
  | sequence (p : Partial)
  | invalid

/-- Classifies a first byte.  The bounds on the second byte exclude overlong sequences, surrogates
and code points above `0x10ffff`. -/
def lead (b : UInt8) : Lead :=
  let n := b.toNat
  if n < 0x80 then .char (Char.ofNat n)
  else if n < 0xc2 then .invalid
  else if n < 0xe0 then .sequence ⟨n - 0xc0, 0, 0x80, 0xbf⟩
  else if n < 0xf0 then
    .sequence ⟨n - 0xe0, 1, if n = 0xe0 then 0xa0 else 0x80, if n = 0xed then 0x9f else 0xbf⟩
  else if n < 0xf5 then
    .sequence ⟨n - 0xf0, 2, if n = 0xf0 then 0x90 else 0x80, if n = 0xf4 then 0x8f else 0xbf⟩
  else .invalid

/-- Decodes bytes after a possibly unfinished sequence. -/
def scan : Option Partial → List UInt8 → List (Option Char)
  | none, [] => []
  | some _, [] => [none]
  | none, b :: bs =>
    match lead b with
    | .char c => some c :: scan none bs
    | .sequence p => scan (some p) bs
    | .invalid => none :: scan none bs
  | some p, b :: bs =>
    if p.low ≤ b ∧ b ≤ p.high then
      let bits := p.bits * 64 + (b.toNat - 0x80)
      match p.missing with
      | 0 => some (Char.ofNat bits) :: scan none bs
      | k + 1 => scan (some ⟨bits, k, 0x80, 0xbf⟩) bs
    else
      -- The sequence ends unfinished, and the byte is read afresh.
      match lead b with
      | .char c => none :: some c :: scan none bs
      | .sequence p => none :: scan (some p) bs
      | .invalid => none :: none :: scan none bs

/-- The text that well-formed bytes encode. -/
def decode? (bytes : List UInt8) : Option String :=
  ((scan none bytes).mapM id).map String.ofList

/-- The text of any bytes, with the replacement character for each malformed piece. -/
def decodeLossy (bytes : List UInt8) : String :=
  String.ofList ((scan none bytes).map (·.getD '\uFFFD'))

theorem map_getD_of_mapM {cs : List Char} (c : Char) {l : List (Option Char)}
    (h : l.mapM id = some cs) : l.map (·.getD c) = cs := by
  induction l generalizing cs with
  | nil => simp_all
  | cons x l ih =>
    cases x with
    | none => simp at h
    | some a =>
      cases hl : l.mapM id with
      | none => simp [hl] at h
      | some as => simp_all

/-- **Tolerance changes nothing where the bytes are well formed.** -/
theorem decodeLossy_of_decode? {bytes : List UInt8} {text : String}
    (h : decode? bytes = some text) : decodeLossy bytes = text := by
  obtain ⟨cs, hcs, rfl⟩ := Option.map_eq_some_iff.1 h
  rw [decodeLossy, map_getD_of_mapM _ hcs]

example : decode? [0x68, 0xc3, 0xa9] = some "hé" := by decide
example : decode? [0xed, 0xa0, 0x80] = none := by decide
example : decodeLossy [0xe2, 0x82, 0x41, 0xff] = "\uFFFDA\uFFFD" := by decide

end WasmEngine.Utf8
