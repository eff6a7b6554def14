import Trellis.Number.Exact

/-!
# The fewest digits that read back

Between a double and its neighbours lie the reals that round to it. `shortest` finds the decimal
with the fewest digits among them, and of those the one nearest to the double; of two that are
equally near it takes the larger. All of it is exact arithmetic on whole numbers.
-/
namespace Trellis.Number

/-! ## 1. Decimals -/

/-- The number `coefficient * 10 ^ exponent`. -/
structure Decimal where
  coefficient : Nat
  exponent : Int
  deriving DecidableEq, Repr

/-- How many decimal digits a whole number has; `0` has one. -/
def digitCount (n : Nat) : Nat := (Nat.toDigits 10 n).length

/-! ## 2. The interval of reals that round to a double -/

/-- A double, the ends of the interval that rounds to it, and whether the ends belong to it, all
    over one denominator. -/
structure Interval where
  low : Nat
  value : Nat
  high : Nat
  denominator : Nat
  closed : Bool

/-- The interval of `mantissa * 2 ^ exponent`, in quarters of the last place: the distance to the
    next double down is halved at a power of two, and an even mantissa owns both ends. -/
def Interval.ofBinary (mantissa : Nat) (exponent : Int) : Interval :=
  let below := if mantissa = leadingBit ∧ -1074 < exponent then 1 else 2
  let up := Nat.pow 2 (exponent - 2).toNat
  { low := (4 * mantissa - below) * up
    value := 4 * mantissa * up
    high := (4 * mantissa + 2) * up
    denominator := Nat.pow 2 (2 - exponent).toNat
    closed := mantissa % 2 = 0 }

/-- The same interval counted in steps of `10 ^ grid`. -/
def Interval.onGrid (i : Interval) (grid : Int) : Interval :=
  let up := Nat.pow 10 (-grid).toNat
  { low := i.low * up, value := i.value * up, high := i.high * up
    denominator := i.denominator * Nat.pow 10 grid.toNat, closed := i.closed }

/-- Whether the whole number `n` lies in the interval. -/
def Interval.holds (i : Interval) (n : Nat) : Bool :=
  let scaled := n * i.denominator
  if i.closed then i.low ≤ scaled && scaled ≤ i.high else i.low < scaled && scaled < i.high

/-- The whole number in the interval that is nearest to the value, looked for among the two
    neighbours of the value; the larger one of a tie. -/
def Interval.nearest? (i : Interval) : Option Nat :=
  let below := i.value / i.denominator
  match i.holds below, i.holds (below + 1) with
  | true, true =>
    if i.value - below * i.denominator < (below + 1) * i.denominator - i.value then some below
    else some (below + 1)
  | true, false => some below
  | false, true => some (below + 1)
  | false, false => none

/-! ## 3. The shortest decimal -/

/-- How many digits the value has before the point; below one, minus the count of zeros that
    follow the point. -/
def Interval.places (i : Interval) : Int :=
  if i.denominator ≤ i.value then digitCount (i.value / i.denominator)
  else
    let ratio := (i.denominator + i.value - 1) / i.value
    if ratio ≤ 1 then 1 else 1 - (digitCount (ratio - 1) : Int)

/-- Tries the grids with `digits`, `digits + 1`, … digits. -/
def Interval.shortestFrom (i : Interval) (places : Int) : Nat → Nat → Decimal
  | 0, digits => ⟨(i.onGrid (places - digits)).value, places - digits⟩
  | more + 1, digits =>
    match (i.onGrid (places - digits)).nearest? with
    | some n => ⟨n, places - digits⟩
    | none => i.shortestFrom places more (digits + 1)

/-- Takes zeros off the end of the coefficient. -/
def Decimal.strip : Nat → Decimal → Decimal
  | 0, d => d
  | fuel + 1, d =>
    if d.coefficient ≠ 0 ∧ d.coefficient % 10 = 0 then
      Decimal.strip fuel ⟨d.coefficient / 10, d.exponent + 1⟩
    else d

/-- The decimal with the fewest digits that rounds to `mantissa * 2 ^ exponent`; seventeen digits
    always suffice. -/
def shortest (mantissa : Nat) (exponent : Int) : Decimal :=
  if mantissa = 0 then ⟨0, 0⟩
  else
    let interval := Interval.ofBinary mantissa exponent
    (interval.shortestFrom interval.places 17 1).strip 20

end Trellis.Number
