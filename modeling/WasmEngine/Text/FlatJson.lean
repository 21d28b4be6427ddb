/-!
# Text/FlatJson — JSON documents one level deep

Reads an array or an object whose items are unsigned integers or `null`, and nothing else: no signs,
fractions, exponents, nesting or trailing commas.  Keys may be written with escapes.
-/

namespace WasmEngine.FlatJson

/-- A lexical element. -/
inductive Token where
  | openBrace | closeBrace | openBracket | closeBracket | comma | colon
  | null
  | number (n : Nat)
  | text (s : String)
deriving DecidableEq, Repr

/-- A document; `none` stands for `null`. -/
inductive Document where
  | array (items : List (Option Nat))
  | object (items : List (String × Option Nat))
deriving DecidableEq, Repr

/-- The value of a hexadecimal digit. -/
def hexDigit? (c : Char) : Option Nat :=
  if '0' ≤ c ∧ c ≤ '9' then some (c.toNat - '0'.toNat)
  else if 'a' ≤ c ∧ c ≤ 'f' then some (c.toNat - 'a'.toNat + 10)
  else if 'A' ≤ c ∧ c ≤ 'F' then some (c.toNat - 'A'.toNat + 10)
  else none

/-- The character of a one-letter escape. -/
def escape? (c : Char) : Option Char :=
  match c with
  | '"' | '\\' | '/' => some c
  | 'b' => some '\x08'
  | 'f' => some '\x0c'
  | 'n' => some '\n'
  | 'r' => some '\r'
  | 't' => some '\t'
  | _ => none

/-- Reads a string behind its opening quote, and yields what follows the closing one. -/
def string : List Char → Option (List Char × List Char)
  | [] => none
  | '"' :: cs => some ([], cs)
  | '\\' :: 'u' :: a :: b :: c :: d :: cs => do
    let code := (← hexDigit? a) * 4096 + (← hexDigit? b) * 256 + (← hexDigit? c) * 16
      + (← hexDigit? d)
    let (text, rest) ← string cs
    pure (Char.ofNat code :: text, rest)
  | '\\' :: e :: cs => do
    let c ← escape? e
    let (text, rest) ← string cs
    pure (c :: text, rest)
  | c :: cs => do
    if c < ' ' ∨ c = '\\' then none
    let (text, rest) ← string cs
    pure (c :: text, rest)

/-- Splits characters into at most `left` tokens, without the blanks between them. -/
def tokens : (left : Nat) → List Char → Option (List Token)
  | _, [] => some []
  | 0, _ :: _ => none
  | left + 1, c :: cs =>
    match c with
    | ' ' | '\t' | '\n' | '\r' => tokens left cs
    | '\x7b' => (.openBrace :: ·) <$> tokens left cs
    | '\x7d' => (.closeBrace :: ·) <$> tokens left cs
    | '[' => (.openBracket :: ·) <$> tokens left cs
    | ']' => (.closeBracket :: ·) <$> tokens left cs
    | ',' => (.comma :: ·) <$> tokens left cs
    | ':' => (.colon :: ·) <$> tokens left cs
    | '"' => do
      let (text, rest) ← string cs
      (.text (String.ofList text) :: ·) <$> tokens left rest
    | 'n' =>
      if cs.take 3 = ['u', 'l', 'l'] then (.null :: ·) <$> tokens left (cs.drop 3) else none
    | '0' => (.number 0 :: ·) <$> tokens left cs
    | _ =>
      if c.isDigit then
        let digits := c :: cs.takeWhile Char.isDigit
        let n := digits.foldl (fun n d => 10 * n + (d.toNat - '0'.toNat)) 0
        (.number n :: ·) <$> tokens left (cs.dropWhile Char.isDigit)
      else none

/-- The item that a token stands for. -/
def item? : Token → Option (Option Nat)
  | .null => some none
  | .number n => some (some n)
  | _ => none

/-- Reads the items of an array from the first one on, up to the end of the document. -/
def arrayItems : List Token → Option (List (Option Nat))
  | [t, .closeBracket] => do pure [← item? t]
  | t :: .comma :: ts => do pure ((← item? t) :: (← arrayItems ts))
  | _ => none

/-- Reads the items of an object from the first one on, up to the end of the document. -/
def objectItems : List Token → Option (List (String × Option Nat))
  | [.text key, .colon, t, .closeBrace] => do pure [(key, ← item? t)]
  | .text key :: .colon :: t :: .comma :: ts => do pure ((key, ← item? t) :: (← objectItems ts))
  | _ => none

/-- Reads a document. -/
def parse? (text : String) : Option Document := do
  match ← tokens text.length text.toList with
  | [.openBracket, .closeBracket] => pure (.array [])
  | [.openBrace, .closeBrace] => pure (.object [])
  | .openBracket :: ts => .array <$> arrayItems ts
  | .openBrace :: ts => .object <$> objectItems ts
  | _ => none

example : parse? " [1, null ] " = some (.array [some 1, none]) := by decide +kernel
example : parse? "[01]" = none := by decide +kernel

end WasmEngine.FlatJson
