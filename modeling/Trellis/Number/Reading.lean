import Trellis.Number.Exact
import Trellis.Number.Shortest

/-!
# Reading numbers

- `index?`: a whole number below `2 ^ 64`, as array positions are written,
- `parse?`: a decimal with optional sign, point and exponent, or the name of a special value,
- `scaled`: the double nearest to a decimal.
-/
namespace Trellis.Number

/-! ## 1. Digits -/

/-- An ASCII digit. -/
def isDigit (c : Char) : Bool := '0' ≤ c && c ≤ '9'

/-- The value of a run of digits. -/
def digitsValue (ds : List Char) : Nat := ds.foldl (fun n d => 10 * n + (d.toNat - 48)) 0

/-- The first number too large for an array position. -/
def indexBound : Nat := Nat.pow 2 64

/-- Digits only, at least one, denoting a number below the bound. -/
def index? (ds : List Char) : Option Nat :=
  if ds.isEmpty || !ds.all isDigit then none
  else
    let n := digitsValue ds
    if n < indexBound then some n else none

/-- An array position as it may stand in a name: a plus sign is allowed in front. -/
def signedIndex? : List Char → Option Nat
  | '+' :: ds => index? ds
  | ds => index? ds

/-! ## 2. Decimals -/

/-- The double nearest to `coefficient * 10 ^ exponent`: infinite above the largest double, zero
    below half the smallest. -/
def scaled (negative : Bool) (coefficient : Nat) (exponent : Int) : Float :=
  let magnitude :=
    if coefficient = 0 then 0.0
    else
      let leading := digitCount coefficient + exponent
      if 310 < leading then infinity
      else if leading < -330 then 0.0
      else Float.ofScientific coefficient (exponent < 0) exponent.natAbs
  if negative then -magnitude else magnitude

/-- The sign in front of a number and what follows it. -/
def takeSign : List Char → Bool × List Char
  | '-' :: cs => (true, cs)
  | '+' :: cs => (false, cs)
  | cs => (false, cs)

/-- The exponent part: nothing, or `e` with an optional sign and at least one digit, up to the
    end of the text. -/
def exponent? : List Char → Option Int
  | [] => some 0
  | c :: cs =>
    if c = 'e' ∨ c = 'E' then
      let (negative, ds) := takeSign cs
      if ds.isEmpty || !ds.all isDigit then none
      else some (if negative then -(digitsValue ds : Int) else digitsValue ds)
    else none

/-- Digits with an optional point and exponent; one digit is required before or after the point. -/
def unsigned? (negative : Bool) (cs : List Char) : Option Float :=
  let units := cs.takeWhile isDigit
  let rest := cs.dropWhile isDigit
  let (fraction, rest) :=
    match rest with
    | '.' :: more => (more.takeWhile isDigit, more.dropWhile isDigit)
    | _ => ([], rest)
  if units.isEmpty && fraction.isEmpty then none
  else
    (exponent? rest).map fun e =>
      scaled negative (digitsValue (units ++ fraction)) (e - fraction.length)

/-- The special values by name, in any case. -/
def special? (negative : Bool) (cs : List Char) : Option Float :=
  let name := String.ofList (cs.map Char.toLower)
  if name = "inf" ∨ name = "infinity" then some (if negative then -infinity else infinity)
  else if name = "nan" then some nan
  else none

/-- A number text: a special value or a decimal, with an optional sign in front. -/
def parse? (cs : List Char) : Option Float :=
  let (negative, body) := takeSign cs
  match special? negative body with
  | some x => some x
  | none => unsigned? negative body

end Trellis.Number
