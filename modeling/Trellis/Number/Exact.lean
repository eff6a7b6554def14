/-!
# The exact value of a double

A finite double is a whole mantissa times a power of two. What the library needs to know exactly
about a number is computed here on mantissa and exponent, in whole numbers:
- `Exact.ofFloat` and `Exact.toFloat` take a double apart and put it together,
- `whole?` is the integer a double denotes, if it denotes one,
- `remainder` is what is left of the dividend, with the dividend's sign.
-/
namespace Trellis.Number

/-! ## 1. Taking a double apart -/

/-- The value of a double: not a number, an infinity, or `mantissa * 2 ^ exponent` with a sign. -/
inductive Exact where
  | nan
  | infinite (negative : Bool)
  | finite (negative : Bool) (mantissa : Nat) (exponent : Int)
  deriving DecidableEq, Repr

/-- The bit in front of the fraction of a normal double, which is not stored. -/
def leadingBit : Nat := Nat.pow 2 52

/-- The exact value behind the bits of a double. -/
def Exact.ofFloat (x : Float) : Exact :=
  let bits := x.toBits.toNat
  let negative := bits / Nat.pow 2 63 == 1
  let biased : Nat := bits / leadingBit % 2048
  let fraction := bits % leadingBit
  if biased = 2047 then
    if fraction = 0 then .infinite negative else .nan
  else if biased = 0 then .finite negative fraction (-1074)
  else .finite negative (leadingBit + fraction) (Int.ofNat biased - 1075)

/-! ## 2. Putting a double together -/

/-- Positive infinity. -/
def infinity : Float := 1.0 / 0.0

/-- Not a number. -/
def nan : Float := 0.0 / 0.0

/-- The bits of `mantissa * 2 ^ exponent` for a value that a double holds exactly and whose
    mantissa is below `2 ^ 53`: the mantissa is moved up as far as its 53 bits and the least
    exponent allow. -/
def magnitudeBits (mantissa : Nat) (exponent : Int) : Nat :=
  if mantissa = 0 then 0
  else
    let room := 52 - mantissa.log2
    let shift := min room (exponent + 1074).toNat
    let full := mantissa * Nat.pow 2 shift
    let lowered := exponent - shift
    if full < leadingBit then full
    else (lowered + 1075).toNat * leadingBit + (full - leadingBit)

/-- The double with the given exact value, for values that a double holds. -/
def Exact.toFloat : Exact → Float
  | .nan => Number.nan
  | .infinite negative => if negative then -infinity else infinity
  | .finite negative mantissa exponent =>
    let magnitude := Float.ofBits (magnitudeBits mantissa exponent).toUInt64
    if negative then -magnitude else magnitude

/-! ## 3. Whole numbers -/

/-- The integer that an exact value is, if it is one. Both zeros are `0`. -/
def Exact.whole? : Exact → Option Int
  | .finite negative mantissa exponent =>
    let sign : Int := if negative then -1 else 1
    if 0 ≤ exponent then some (sign * (mantissa * Nat.pow 2 exponent.toNat : Nat))
    else
      let unit := Nat.pow 2 (-exponent).toNat
      if mantissa % unit = 0 then some (sign * (mantissa / unit : Nat)) else none
  | _ => none

/-- The integer that a double is, if it is one. -/
def whole? (x : Float) : Option Int := (Exact.ofFloat x).whole?

/-- The natural number that a double is, if it is one. -/
def natural? (x : Float) : Option Nat :=
  match whole? x with
  | some (.ofNat n) => some n
  | _ => none

/-! ## 4. Remainder -/

/-- What is left of `x` after taking `y` away as often as it fits, with the sign of `x`; not a
    number when `x` is infinite or `y` is zero. The result is always exact. -/
def remainder (x y : Float) : Float :=
  match Exact.ofFloat x, Exact.ofFloat y with
  | .finite negative m e, .finite _ n f =>
    if n = 0 then nan
    else
      let least := min e f
      let left := (m * Nat.pow 2 (e - least).toNat) % (n * Nat.pow 2 (f - least).toNat)
      (Exact.finite negative left least).toFloat
  | .finite .., .infinite _ => x
  | _, _ => nan

end Trellis.Number
