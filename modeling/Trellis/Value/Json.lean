import Trellis.Json.Basic
import Trellis.Value.Coerce

/-!
# Values and JSON documents

- `Value.ofJson`: a document as data; every number becomes a double, and of a repeated name the
  last field counts,
- `Value.toJson`: a value as a document; whole numbers of 63 bits become integers, and what JSON
  has no word for becomes `null`.
-/
namespace Trellis.Value

/-! ## 1. From a document -/

mutual

/-- The data that a document holds. -/
def ofJson : Json → Value
  | .null => .null
  | .bool b => .bool b
  | .integer n => .number (Float.ofInt n)
  | .real x => .number x
  | .string s => .string s
  | .array items => .array (ofItems items)
  | .object fields => .object (ofFields [] fields)

/-- The data of each item. -/
def ofItems : List Json → List Value
  | [] => []
  | j :: rest => ofJson j :: ofItems rest

/-- The data of the fields, put over what has been read. -/
def ofFields (read : Dict Value) : List (String × Json) → Dict Value
  | [] => read
  | (k, j) :: rest => ofFields (Dict.insert read k (ofJson j)) rest

end

/-- The fields of a document as data; a document that is no object holds none. -/
def dataOfJson (j : Json) : Dict Value := ((ofJson j).asObject?).getD []

/-! ## 2. To a document -/

/-- The first whole number that is no longer written as an integer. -/
def integerBound : Nat := Nat.pow 2 63

/-- The document of a number. -/
def jsonOfNumber (n : Float) : Json :=
  match Number.whole? n with
  | some i => if i.natAbs < integerBound then .integer i else .real n
  | none => if n.isFinite then .real n else .null

mutual

/-- The document of a value. -/
def toJson : Value → Json
  | .undefined | .null | .function .. => .null
  | .bool b => .bool b
  | .number n => jsonOfNumber n
  | .string s => .string s
  | .array items => .array (toJsonItems items)
  | .object fields => .object (toJsonFields fields)

/-- The document of each item. -/
def toJsonItems : List Value → List Json
  | [] => []
  | v :: vs => toJson v :: toJsonItems vs

/-- The document of each field. -/
def toJsonFields : List (String × Value) → List (String × Json)
  | [] => []
  | (k, v) :: rest => (k, toJson v) :: toJsonFields rest

end

end Trellis.Value
