import Trellis.Dict
import Trellis.Expr.Syntax

/-!
# Values

What templates compute with. A function is known by the place where it came into being: two
functions are the same when the same evaluation of the same literal made them, and a place names
one such evaluation. Beside it a function holds the number of the script module it belongs to, its
code, and the local variables that were around when it was made.

Three notions of equality live here:
- `Value.same`: the same value, not a number being the same as itself; what comes out of two
  renders is compared with it,
- `Value.strictEq`: the operator `===`,
- `Value.looseEq`: the operator `==`, defined with the coercions.
-/
namespace Trellis

/-! ## 1. Places and values -/

/-- Where in a run something is evaluated: the positions from the inside out. -/
abbrev Place := List Nat

/-- A value of a template. -/
inductive Value where
  | undefined
  | null
  | bool (b : Bool)
  | number (n : Float)
  | string (s : String)
  | array (items : List Value)
  | object (fields : List (String × Value))
  | function (origin : Place) (module : Nat) (code : Function) (captured : List (String × Value))

instance : Inhabited Value := ⟨.undefined⟩

namespace Value

/-- The value of a literal. -/
def ofLiteral : Literal → Value
  | .undefined => .undefined
  | .null => .null
  | .bool b => .bool b
  | .number n => .number n
  | .string s => .string s

/-! ## 2. Kinds -/

/-- Nothing is there: `undefined` or `null`. -/
def isNullish : Value → Bool
  | .undefined | .null => true
  | _ => false

/-- Whether the value is `undefined`. -/
def isUndefined : Value → Bool
  | .undefined => true
  | _ => false

/-- The name of the kind of a value. -/
def typeName : Value → String
  | .undefined => "undefined"
  | .null => "null"
  | .bool _ => "boolean"
  | .number _ => "number"
  | .string _ => "string"
  | .array _ => "array"
  | .object _ => "object"
  | .function .. => "function"

/-- The fields of an object. -/
def asObject? : Value → Option (Dict Value)
  | .object fields => some fields
  | _ => none

/-- The text of a string value. -/
def asString? : Value → Option String
  | .string s => some s
  | _ => none

/-! ## 3. Sameness -/

/-- The same number: equal, or both not a number. -/
def sameNumber (a b : Float) : Bool := a == b || (a.isNaN && b.isNaN)

mutual

/-- The same value. -/
def same : Value → Value → Bool
  | .undefined, .undefined => true
  | .null, .null => true
  | .bool a, .bool b => a == b
  | .number a, .number b => sameNumber a b
  | .string a, .string b => a == b
  | .array a, .array b => sameItems a b
  | .object a, .object b => sameFields a b
  | .function a _ _ _, .function b _ _ _ => a == b
  | _, _ => false

/-- The same values in the same order. -/
def sameItems : List Value → List Value → Bool
  | [], [] => true
  | a :: as, b :: bs => if same a b then sameItems as bs else false
  | _, _ => false

/-- The same names with the same values. -/
def sameFields : List (String × Value) → List (String × Value) → Bool
  | [], [] => true
  | (k, a) :: as, (l, b) :: bs => if k == l && same a b then sameFields as bs else false
  | _, _ => false

end

instance : BEq Value := ⟨same⟩

/-- The operator `===`: the same value, but not a number equals nothing. -/
def strictEq : Value → Value → Bool
  | .number a, .number b => a == b
  | a, b => same a b

end Value

end Trellis
