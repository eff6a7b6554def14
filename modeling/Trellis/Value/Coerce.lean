import Trellis.Text.Blank
import Trellis.Number.Layout
import Trellis.Number.Reading
import Trellis.Value.Basic

/-!
# Values as booleans, texts, numbers and lists

How a value counts as a condition, what it writes into a page, what number it is in arithmetic,
and what a loop over it visits. Loose equality compares through these coercions.
-/
namespace Trellis.Value

/-! ## 1. Conditions -/

/-- Whether a value counts as true: nothing, `false`, zero, not a number and the empty text do
    not. -/
def isTruthy : Value → Bool
  | .undefined | .null => false
  | .bool b => b
  | .number n => n != 0.0 && !n.isNaN
  | .string s => !s.isEmpty
  | .array _ | .object _ | .function .. => true

/-! ## 2. Text -/

mutual

/-- What a value writes into a page. -/
def toText : Value → String
  | .undefined | .null => ""
  | .bool b => if b then "true" else "false"
  | .number n => Number.text n
  | .string s => s
  | .array items => ",".intercalate (toTexts items)
  | .object _ => "[object Object]"
  | .function .. => "[function]"

/-- What each item of an array writes. -/
def toTexts : List Value → List String
  | [] => []
  | v :: vs => toText v :: toTexts vs

end

/-! ## 3. Numbers -/

/-- The number a text denotes once trimmed; an empty one is zero, any other is not a number. -/
def numberOfText (s : String) : Float :=
  let cs := Text.trimChars s.toList
  if cs.isEmpty then 0.0 else (Number.parse? cs).getD Number.nan

/-- What number a value is in arithmetic. -/
def toNumber : Value → Float
  | .undefined => Number.nan
  | .null => 0.0
  | .bool b => if b then 1.0 else 0.0
  | .number n => n
  | .string s => numberOfText s
  | .array [] => 0.0
  | .array [v] => toNumber v
  | .array _ | .object _ | .function .. => Number.nan

/-! ## 4. Loose equality -/

/-- The values that loose equality turns into numbers. -/
def isPrimitive : Value → Bool
  | .bool _ | .number _ | .string _ => true
  | _ => false

/-- The operator `==`: `undefined` and `null` equal each other and nothing else, two texts compare
    as texts, other primitives as numbers, and the rest as `===` does. -/
def looseEq (a b : Value) : Bool :=
  if a.isNullish || b.isNullish then a.isNullish && b.isNullish
  else
    match a, b with
    | .string s, .string t => s == t
    | a, b => if a.isPrimitive && b.isPrimitive then a.toNumber == b.toNumber else strictEq a b

/-! ## 5. Loops -/

/-- Most rounds that a loop over a number makes. -/
def maxLoopCount : Nat := 65536

/-- A whole number as a value. -/
def ofNat (n : Nat) : Value := .number (Float.ofNat n)

/-- The items with their positions. -/
def enumerate (items : List Value) : List (Value × Value) :=
  items.zipIdx.map fun (v, i) => (v, ofNat i)

/-- What a loop over a value visits, each item with its index: the items of an array, the
    characters of a text, the values of an object under their names, the numbers below a whole
    number; nothing else can be looped over. -/
def items : Value → List (Value × Value)
  | .array vs => enumerate vs
  | .string s => enumerate (s.toList.map fun c => .string c.toString)
  | .object fields => fields.map fun (k, v) => (v, .string k)
  | .number n =>
    match Number.natural? n with
    | some count => (List.range (min count maxLoopCount)).map fun i => (ofNat i, ofNat i)
    | none => []
  | _ => []

end Trellis.Value
