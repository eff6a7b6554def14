import Trellis.Value.Coerce

/-!
# Operators on values

- Arithmetic with `undefined` stays `undefined`.
- `+` adds two numbers; with a text, an array or an object on either side it joins texts.
- Two texts are ordered by their characters, everything else by number; nothing is ordered
  against not a number.
-/
namespace Trellis

/-! ## 1. Arithmetic -/

/-- The operators that compute a number or a text. -/
def BinaryOp.isArithmetic : BinaryOp → Bool
  | .add | .sub | .mul | .div | .rem => true
  | _ => false

/-- The values that make `+` join texts. -/
def Value.joins : Value → Bool
  | .string _ | .array _ | .object _ => true
  | _ => false

/-- The operator `+` on values that are there. -/
def Value.plus (a b : Value) : Value :=
  if a.joins || b.joins then .string (a.toText ++ b.toText)
  else .number (a.toNumber + b.toNumber)

/-! ## 2. Order -/

/-- How two numbers are ordered, if they are. -/
def compareNumbers (a b : Float) : Option Ordering :=
  if a < b then some .lt else if a > b then some .gt else if a == b then some .eq else none

/-- How two values are ordered, if they are. -/
def Value.order (a b : Value) : Option Ordering :=
  match a, b with
  | .string s, .string t => some (if s < t then .lt else if s = t then .eq else .gt)
  | a, b => compareNumbers a.toNumber b.toNumber

/-- Whether an order answers the operator with yes. -/
def BinaryOp.accepts : BinaryOp → Ordering → Bool
  | .lt, o => o == .lt
  | .gt, o => o == .gt
  | .le, o => o != .gt
  | .ge, o => o != .lt
  | _, _ => false

/-- Compares two values with one of the four order operators. -/
def BinaryOp.compare (op : BinaryOp) (a b : Value) : Bool :=
  match a.order b with
  | some o => op.accepts o
  | none => false

/-! ## 3. All operators -/

/-- The value of an operator between two values. -/
def BinaryOp.apply (op : BinaryOp) (a b : Value) : Value :=
  if op.isArithmetic && (a.isUndefined || b.isUndefined) then .undefined
  else
    match op with
    | .add => a.plus b
    | .sub => .number (a.toNumber - b.toNumber)
    | .mul => .number (a.toNumber * b.toNumber)
    | .div => .number (a.toNumber / b.toNumber)
    | .rem => .number (Number.remainder a.toNumber b.toNumber)
    | .lt | .gt | .le | .ge => .bool (op.compare a b)
    | .eq => .bool (a.looseEq b)
    | .ne => .bool (!a.looseEq b)
    | .strictEq => .bool (a.strictEq b)
    | .strictNe => .bool (!a.strictEq b)

/-- The value of an operator in front of a value. -/
def UnaryOp.apply (op : UnaryOp) (v : Value) : Value :=
  match op with
  | .not => .bool (!v.isTruthy)
  | .neg => if v.isUndefined then .undefined else .number (-v.toNumber)
  | .pos => if v.isUndefined then .undefined else .number v.toNumber

/-- Whether the left value decides a logical operator. -/
def LogicOp.decided (op : LogicOp) (left : Value) : Bool :=
  match op with
  | .and => !left.isTruthy
  | .or => left.isTruthy

end Trellis
