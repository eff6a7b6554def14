import Trellis.Number.Shortest

/-!
# Number text

Both number texts of the library write the shortest decimal and differ in the layout only:
- `text`: the text of a number inside a page, positional at every size, without a point when
  nothing follows it,
- `listing`: the text of a number in a patch listing, with `.0` behind a whole number, and with
  an exponent below `10 ^ -4` and from `10 ^ 16` up.
-/
namespace Trellis.Number

/-! ## 1. Layouts -/

/-- The decisions of a number format. -/
structure Layout where
  /-- Places of the leading digit that are written positionally, or all of them. -/
  positional : Option (Int × Int)
  /-- What stands behind a whole number that is written positionally. -/
  wholeMark : String
  zero : String
  negativeZero : String
  nan : String
  infinity : String

/-- Numbers inside a page: never an exponent, one zero, infinities by name. -/
def pageLayout : Layout :=
  { positional := none, wholeMark := "", zero := "0", negativeZero := "0"
    nan := "NaN", infinity := "Infinity" }

/-- Numbers in a patch listing. -/
def listingLayout : Layout :=
  { positional := some (-4, 15), wholeMark := ".0", zero := "0.0", negativeZero := "-0.0"
    nan := "NaN", infinity := "inf" }

/-! ## 2. Writing digits -/

/-- A run of zeros. -/
def zeros (n : Nat) : String := String.ofList (List.replicate n '0')

/-- Digits with the point where it belongs. -/
def Decimal.positional (wholeMark : String) (d : Decimal) : String :=
  let digits := Nat.toDigits 10 d.coefficient
  if 0 ≤ d.exponent then String.ofList digits ++ zeros d.exponent.toNat ++ wholeMark
  else
    let point := digits.length - (-d.exponent).toNat
    if 0 < point then
      String.ofList (digits.take point) ++ "." ++ String.ofList (digits.drop point)
    else "0." ++ zeros ((-d.exponent).toNat - digits.length) ++ String.ofList digits

/-- The place of the leading digit: `0` for the units, `1` for the tens. -/
def Decimal.leading (d : Decimal) : Int := digitCount d.coefficient + d.exponent - 1

/-- One digit, the others behind a point, and the exponent. -/
def Decimal.withExponent (d : Decimal) : String :=
  let digits := Nat.toDigits 10 d.coefficient
  let fraction := digits.drop 1
  String.ofList (digits.take 1)
    ++ (if fraction.isEmpty then "" else "." ++ String.ofList fraction)
    ++ "e" ++ toString d.leading

/-- A positive decimal in the given layout. -/
def Layout.decimal (l : Layout) (d : Decimal) : String :=
  match l.positional with
  | none => d.positional l.wholeMark
  | some (least, most) =>
    if least ≤ d.leading ∧ d.leading ≤ most then d.positional l.wholeMark else d.withExponent

/-- A double in the given layout. -/
def Layout.write (l : Layout) (x : Float) : String :=
  match Exact.ofFloat x with
  | .nan => l.nan
  | .infinite negative => (if negative then "-" else "") ++ l.infinity
  | .finite negative mantissa exponent =>
    if mantissa = 0 then (if negative then l.negativeZero else l.zero)
    else (if negative then "-" else "") ++ l.decimal (shortest mantissa exponent)

/-! ## 3. The two texts -/

/-- A number as it stands in a page. -/
def text (x : Float) : String := pageLayout.write x

/-- A number as it stands in a patch listing. -/
def listing (x : Float) : String := listingLayout.write x

end Trellis.Number
