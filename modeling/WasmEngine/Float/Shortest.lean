import WasmEngine.Float.Format

/-!
# Float/Shortest — the shortest decimal that reads back

Every real strictly between the midpoints to its two neighbours rounds to a given floating-point
number; the midpoints themselves do so iff the significand is even.  `shortest` looks for a point of
a decimal grid in that interval, from coarse to fine.  On each grid only the two points around the
number matter: if any point of the grid lies in the interval, one of these two does.  Of two hits
the nearer wins, and of two equally near ones the larger.

`render` writes the result in positional notation, never with an exponent.
-/

namespace WasmEngine.Float

/-- A decimal number `digits * 10 ^ exponent`. -/
structure Decimal where
  digits : Nat
  exponent : Int
deriving DecidableEq, Repr

/-- A positive real with the interval that rounds to it, all over one positive denominator. -/
structure RoundingInterval where
  low : Nat
  value : Nat
  high : Nat
  denominator : Nat
  /-- Whether the two ends round to the number as well. -/
  closed : Bool

namespace RoundingInterval

/-- The interval around `m * 2 ^ q`.  The lower neighbour of the least normal significand is only
half as far away, unless it is subnormal. -/
def ofFinite (fmt : Format) (m : Nat) (q : Int) : RoundingInterval :=
  let gapBelow := if m = fmt.hiddenWeight ∧ fmt.minExponent < q then 1 else 2
  let up := 1 <<< (q - 2).toNat
  { low := (4 * m - gapBelow) * up
    value := 4 * m * up
    high := (4 * m + 2) * up
    denominator := 1 <<< (2 - q).toNat
    closed := m % 2 = 0 }

/-- Whether the fraction `n / denominator` lies in the interval. -/
def Mem (i : RoundingInterval) (n : Nat) : Prop :=
  if i.closed then i.low ≤ n ∧ n ≤ i.high else i.low < n ∧ n < i.high

instance (i : RoundingInterval) (n : Nat) : Decidable (i.Mem n) := by
  unfold Mem; infer_instance

/-- The interval with all bounds multiplied by `k`, over the same denominator. -/
def scale (i : RoundingInterval) (k : Nat) : RoundingInterval :=
  { i with low := i.low * k, value := i.value * k, high := i.high * k }

/-- The best point of the grid of multiples of `10 ^ t`, if one lies in the interval. -/
def onGrid? (i : RoundingInterval) (t : Int) : Option Nat :=
  let i := i.scale (Nat.pow 10 (-t).toNat)
  let unit := Nat.pow 10 t.toNat * i.denominator
  let below := i.value / unit
  let lower := below * unit
  let upper := (below + 1) * unit
  if i.Mem lower then
    if i.Mem upper ∧ upper - i.value ≤ i.value - lower then some (below + 1) else some below
  else if i.Mem upper then some (below + 1) else none

/-- The first hit on the grids `10 ^ t`, `10 ^ (t - 1)`, …; the last grid tried is `n` steps on. -/
def search (i : RoundingInterval) (t : Int) : Nat → Decimal
  | 0 => ⟨i.value / i.denominator, 0⟩
  | n + 1 =>
    match i.onGrid? t with
    | some d => ⟨d, t⟩
    | none => i.search (t - 1) n

end RoundingInterval

/-- The decimal with the fewest digits that rounds to `m * 2 ^ q`, and the nearest of those.

The unit of the first grid lies above the number (`1233 / 4096` is close to `log 2 / log 10`), and
twenty-four grids reach past the seventeen digits that always suffice. -/
def shortest (fmt : Format) (m : Nat) (q : Int) : Decimal :=
  (RoundingInterval.ofFinite fmt m q).search (((m.log2 : Int) + q) * 1233 / 4096 + 2) 24

/-- Positional notation for a decimal: zeros fill the places between the digits and the point. -/
def Decimal.positional (d : Decimal) : String :=
  let ds := Nat.toDigits 10 d.digits
  if 0 ≤ d.exponent then
    String.ofList (ds ++ List.replicate d.exponent.toNat '0')
  else
    let places := (-d.exponent).toNat
    let ds := List.replicate (places + 1 - ds.length) '0' ++ ds
    String.ofList (ds.take (ds.length - places) ++ '.' :: ds.drop (ds.length - places))

/-- The text of a bit pattern: the shortest decimal in positional notation, `NaN`, `inf`; the sign
of a zero is kept. -/
def render (fmt : Format) (bits : Nat) : String :=
  match fmt.decode bits with
  | .nan => "NaN"
  | .infinity negative => sign negative ++ "inf"
  | .finite negative 0 _ => sign negative ++ "0"
  | .finite negative m q => sign negative ++ (shortest fmt m q).positional
where
  /-- A minus sign for negative numbers. -/
  sign (negative : Bool) : String := if negative then "-" else ""

end WasmEngine.Float
