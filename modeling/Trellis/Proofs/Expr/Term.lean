import Trellis.Expr.Program
import Trellis.Proofs.Expr.Calls
import Trellis.Proofs.Text.Runs

/-!
# Terms

A term is an expression as one thinks of it, without a form in which it is written.
- `Connective.table`: how tightly operators bind,
- `Term.print`: a term as it is written, with parentheses only where the table asks for them,
- `Term.value`: what a term means, by recursion on its form,
- `Term.toExpr`: the expression of a term; it evaluates to what the term means
  (`Term.eval_toExpr`).
-/
namespace Trellis

open Token

/-! ## 1. Terms -/

/-- What the field of an object is called: a word, a text or digits. -/
inductive FieldKey where
  | word (x : String)
  | text (s : String)
  | digits (ds : List Char)

/-- A term. A number is written with digits. -/
inductive Term where
  | name (x : String)
  | text (s : String)
  | bool (b : Bool)
  | null
  | undefined
  | number (digits : List Char)
  | array (items : List Term)
  | object (fields : List (FieldKey × Term))
  | member (base : Term) (field : String)
  | index (base key : Term)
  | call (callee : Term) (args : List Term)
  | unary (op : UnaryOp) (operand : Term)
  | connected (op : Connective) (left right : Term)
  | conditional (test yes no : Term)

/-- A letter, an underscore or a dollar sign, and behind it also digits. -/
def IsWord (x : String) : Prop :=
  (∃ c ∈ x.toList.head?, isWordStart c = true) ∧ ∀ c ∈ x.toList, isWordChar c = true

/-- One digit or more. -/
def AreDigits (ds : List Char) : Prop := ds ≠ [] ∧ ∀ c ∈ ds, Number.isDigit c = true

instance (x : String) : Decidable (IsWord x) :=
  decidable_of_iff
    (x.toList.head?.any isWordStart = true ∧ ∀ c ∈ x.toList, isWordChar c = true)
    (and_congr_left fun _ => Option.any_eq_true _ _)

instance (ds : List Char) : Decidable (AreDigits ds) := inferInstanceAs (Decidable (_ ∧ _))

/-- The name of a field is a word or a number, or any text. -/
def FieldKey.Fits : FieldKey → Prop
  | .word x => IsWord x
  | .text _ => True
  | .digits ds => AreDigits ds

mutual

/-- The names in a term are words, those of variables not reserved, and its numbers are digits. -/
def Term.Fits : Term → Prop
  | .name x => IsWord x ∧ x ∉ reserved
  | .text _ | .bool _ | .null | .undefined => True
  | .number ds => AreDigits ds
  | .array items => Term.FitAll items
  | .object fields => Term.FitFields fields
  | .member base field => base.Fits ∧ IsWord field
  | .index base key => base.Fits ∧ key.Fits
  | .call callee args => callee.Fits ∧ Term.FitAll args
  | .unary _ operand => operand.Fits
  | .connected _ left right => left.Fits ∧ right.Fits
  | .conditional test yes no => test.Fits ∧ yes.Fits ∧ no.Fits

/-- The same for all of some terms. -/
def Term.FitAll : List Term → Prop
  | [] => True
  | t :: ts => t.Fits ∧ Term.FitAll ts

/-- The same for all of some fields. -/
def Term.FitFields : List (FieldKey × Term) → Prop
  | [] => True
  | (k, t) :: fields => k.Fits ∧ t.Fits ∧ Term.FitFields fields

end

/-! ## 2. The table -/

namespace Token.Connective

/-- The operators between two operands in rows, from the loosest to the tightest; those of one row
    bind alike. -/
def table : List (List Connective) := [
  [.logic .or],
  [.logic .and],
  [.value .eq, .value .ne, .value .strictEq, .value .strictNe],
  [.value .lt, .value .gt, .value .le, .value .ge],
  [.value .add, .value .sub],
  [.value .mul, .value .div, .value .rem]]

/-- The row of an operator, the first one being row 1. -/
def row (op : Connective) : Nat := table.findIdx (·.contains op) + 1

/-- **Operators are joined by the rows of the table.** -/
theorem level_eq_row (op : Connective) : op.level = op.row := by
  rcases op with op | op <;> cases op <;> decide

/-- An operator as it is written. -/
def symbol : Connective → List Char
  | .logic .or => ['|', '|']
  | .logic .and => ['&', '&']
  | .value .eq => ['=', '=']
  | .value .ne => ['!', '=']
  | .value .strictEq => ['=', '=', '=']
  | .value .strictNe => ['!', '=', '=']
  | .value .lt => ['<']
  | .value .gt => ['>']
  | .value .le => ['<', '=']
  | .value .ge => ['>', '=']
  | .value .add => ['+']
  | .value .sub => ['-']
  | .value .mul => ['*']
  | .value .div => ['/']
  | .value .rem => ['%']

end Token.Connective

/-- An operator in front of its operand as it is written. -/
def UnaryOp.symbol : UnaryOp → Char
  | .not => '!'
  | .neg => '-'
  | .pos => '+'

/-- How tightly a term holds together: a condition the least, then the rows of the table, then an
    operator in front. A number is below what may stand before an access. -/
def Term.level : Term → Nat
  | .conditional .. => 0
  | .connected op .. => op.row
  | .unary .. => 7
  | .number _ => 8
  | _ => 9

/-! ## 3. Writing -/

/-- A text between parentheses where they are needed. -/
def parens (needed : Bool) (cs : List Char) : List Char :=
  if needed then '(' :: (cs ++ [')']) else cs

/-- A character as it stands in a quoted text. -/
def quoteChar (c : Char) : List Char := if c = '"' ∨ c = '\\' then ['\\', c] else [c]

/-- A text between double quotes, with a backslash in front of quotes and backslashes. -/
def quote (s : String) : List Char := '"' :: (s.toList.flatMap quoteChar ++ ['"'])

/-- The name of a field as it is written. -/
def FieldKey.print : FieldKey → List Char
  | .word x => x.toList
  | .text s => quote s
  | .digits ds => ds

namespace Term

mutual

/-- A term as it is written: one space around an operator between operands, and parentheses around a
    part that is looser than where it stands. On the left of an operator stands its own row, on the
    right only what is tighter; the branches of a condition stand without parentheses. -/
def print : Term → List Char
  | .name x => x.toList
  | .text s => quote s
  | .bool true => ['t', 'r', 'u', 'e']
  | .bool false => ['f', 'a', 'l', 's', 'e']
  | .null => ['n', 'u', 'l', 'l']
  | .undefined => ['u', 'n', 'd', 'e', 'f', 'i', 'n', 'e', 'd']
  | .number ds => ds
  | .array items => '[' :: (printAll items ++ [']'])
  | .object fields => '\x7b' :: (printFields fields ++ ['\x7d'])
  | .member base field => parens (base.level < 9) base.print ++ '.' :: field.toList
  | .index base key => parens (base.level < 9) base.print ++ '[' :: (key.print ++ [']'])
  | .call callee args => parens (callee.level < 9) callee.print ++ '(' :: (printAll args ++ [')'])
  | .unary op operand => op.symbol :: parens (operand.level < 7) operand.print
  | .connected op left right =>
    parens (left.level < op.row) left.print ++
      (' ' :: (op.symbol ++ ' ' :: parens (right.level < op.row + 1) right.print))
  | .conditional test yes no =>
    parens (test.level < 1) test.print ++
      (' ' :: '?' :: ' ' :: (yes.print ++ (' ' :: ':' :: ' ' :: no.print)))

/-- Terms with commas between them. -/
def printAll : List Term → List Char
  | [] => []
  | t :: ts => t.print ++ printMore ts

/-- Terms with a comma in front of each. -/
def printMore : List Term → List Char
  | [] => []
  | t :: ts => ',' :: ' ' :: (t.print ++ printMore ts)

/-- Fields with commas between them. -/
def printFields : List (FieldKey × Term) → List Char
  | [] => []
  | (k, t) :: fields => k.print ++ (':' :: ' ' :: (t.print ++ printMoreFields fields))

/-- Fields with a comma in front of each. -/
def printMoreFields : List (FieldKey × Term) → List Char
  | [] => []
  | (k, t) :: fields => ',' :: ' ' :: (k.print ++ (':' :: ' ' :: (t.print ++ printMoreFields fields)))

end

/-- A term where only what is at least as tight as `p` may stand without parentheses. -/
def guarded (p : Nat) (t : Term) : List Char := parens (t.level < p) t.print

section

variable {p : Nat} {t : Term}

theorem guarded_of_lt (h : t.level < p) : t.guarded p = '(' :: (t.print ++ [')']) := by
  rw [guarded, parens, if_pos (decide_eq_true h)]

theorem guarded_of_le (h : p ≤ t.level) : t.guarded p = t.print := by
  rw [guarded, parens, if_neg (by simpa using h)]

end

theorem print_member (base : Term) (field : String) :
    (member base field).print = base.guarded 9 ++ '.' :: field.toList := by
  rw [print, guarded]

theorem print_index (base key : Term) :
    (index base key).print = base.guarded 9 ++ '[' :: (key.print ++ [']']) := by
  rw [print, guarded]

theorem print_call (callee : Term) (args : List Term) :
    (call callee args).print = callee.guarded 9 ++ '(' :: (printAll args ++ [')']) := by
  rw [print, guarded]

theorem print_unary (op : UnaryOp) (operand : Term) :
    (unary op operand).print = op.symbol :: operand.guarded 7 := by
  rw [print, guarded]

theorem print_connected (op : Connective) (left right : Term) :
    (connected op left right).print =
      left.guarded op.row ++ (' ' :: (op.symbol ++ ' ' :: right.guarded (op.row + 1))) := by
  rw [print, guarded, guarded]

theorem print_conditional (test yes no : Term) :
    (conditional test yes no).print =
      test.guarded 1 ++ (' ' :: '?' :: ' ' :: (yes.print ++ (' ' :: ':' :: ' ' :: no.print))) := by
  rw [print, guarded]

end Term

/-! ## 4. Meaning -/

/-- The number that digits write. -/
def digitsNumber (ds : List Char) : Float := Number.scaled false (Number.digitsValue ds) 0

/-- The name that a field has. -/
def FieldKey.name : FieldKey → String
  | .word x => x
  | .text s => s
  | .digits ds => Number.text (digitsNumber ds)

namespace Term

mutual

/-- What a term means in a scope. -/
def value (scope : Scope) (m : Machine) (place : Place) : Term → Value
  | .name x => (scope.lookup m x).getD .undefined
  | .text s => .string s
  | .bool b => .bool b
  | .null => .null
  | .undefined => .undefined
  | .number ds => .number (digitsNumber ds)
  | .array items => .array (values scope m place 0 items)
  | .object fields => .object (Dict.ofPairs (fieldValues scope m place 0 fields))
  | .member base field => (base.value scope m (0 :: place)).step (.name field)
  | .index base key =>
    (base.value scope m (0 :: place)).step (.ofValue (key.value scope m (1 :: place)))
  | .call callee args =>
    match callee.value scope m (0 :: place) with
    | .function _ module code captured =>
      (callFunction (2 :: place) module code captured (values scope m (1 :: place) 0 args) m).1
    | _ => .undefined
  | .unary op operand => op.apply (operand.value scope m (0 :: place))
  | .connected (.value op) left right =>
    op.apply (left.value scope m (0 :: place)) (right.value scope m (1 :: place))
  | .connected (.logic op) left right =>
    if op.decided (left.value scope m (0 :: place)) then left.value scope m (0 :: place)
    else right.value scope m (1 :: place)
  | .conditional test yes no =>
    if (test.value scope m (0 :: place)).isTruthy then yes.value scope m (1 :: place)
    else no.value scope m (2 :: place)

/-- What terms mean, the first of them at position `i`. -/
def values (scope : Scope) (m : Machine) (place : Place) (i : Nat) : List Term → List Value
  | [] => []
  | t :: ts => t.value scope m (i :: place) :: values scope m place (i + 1) ts

/-- What fields mean, the first of them at position `i`. -/
def fieldValues (scope : Scope) (m : Machine) (place : Place) (i : Nat) :
    List (FieldKey × Term) → List (String × Value)
  | [] => []
  | (k, t) :: fields =>
    (k.name, t.value scope m (i :: place)) :: fieldValues scope m place (i + 1) fields

end

/-! ## 5. Expressions -/

mutual

/-- The expression of a term. -/
def toExpr : Term → Expr
  | .name x => .name x
  | .text s => .literal (.string s)
  | .bool b => .literal (.bool b)
  | .null => .literal .null
  | .undefined => .literal .undefined
  | .number ds => .literal (.number (digitsNumber ds))
  | .array items => .array (toExprs items)
  | .object fields => .object (toFields fields)
  | .member base field => .member base.toExpr field
  | .index base key => .index base.toExpr key.toExpr
  | .call callee args => .call callee.toExpr (toExprs args)
  | .unary op operand => .unary op operand.toExpr
  | .connected op left right => op.join left.toExpr right.toExpr
  | .conditional test yes no => .conditional test.toExpr yes.toExpr no.toExpr

/-- The expressions of terms. -/
def toExprs : List Term → List Expr
  | [] => []
  | t :: ts => t.toExpr :: toExprs ts

/-- The fields of an object literal. -/
def toFields : List (FieldKey × Term) → List (String × Expr)
  | [] => []
  | (k, t) :: fields => (k.name, t.toExpr) :: toFields fields

end

section

variable (scope : Scope) (m : Machine)

mutual

/-- **The expression of a term evaluates to what the term means**, and leaves the machine alone. -/
theorem eval_toExpr : ∀ (t : Term) (place : Place),
    t.toExpr.eval callFunction scope place m = (t.value scope m place, m)
  | .name x, _ => by rw [toExpr, Expr.eval, value]
  | .text s, _ => by rw [toExpr, Expr.eval, value]; rfl
  | .bool b, _ => by rw [toExpr, Expr.eval, value]; rfl
  | .null, _ => by rw [toExpr, Expr.eval, value]; rfl
  | .undefined, _ => by rw [toExpr, Expr.eval, value]; rfl
  | .number ds, _ => by rw [toExpr, Expr.eval, value]; rfl
  | .array items, place => by rw [toExpr, Expr.eval, evalAll_toExprs items, value]
  | .object fields, place => by rw [toExpr, Expr.eval, evalFields_toFields fields, value]
  | .member base field, place => by rw [toExpr, Expr.eval, eval_toExpr base, value]
  | .index base key, place => by
    rw [toExpr, Expr.eval, eval_toExpr base, value]
    dsimp only
    rw [eval_toExpr key]
  | .call callee args, place => by
    rw [toExpr, Expr.eval, eval_toExpr callee, value]
    cases callee.value scope m (0 :: place) with
    | function origin module code captured =>
      dsimp only
      rw [evalAll_toExprs args]
      dsimp only
      obtain ⟨v, hv⟩ := callAt_leaves (maxDepth + 1) (2 :: place) module code captured
        (values scope m (1 :: place) 0 args) m
      rw [callFunction, hv]
    | _ => rfl
  | .unary op operand, place => by rw [toExpr, Expr.eval, eval_toExpr operand, value]
  | .connected (.value op) left right, place => by
    rw [toExpr, Connective.join, Expr.eval, eval_toExpr left, value]
    dsimp only
    rw [eval_toExpr right]
  | .connected (.logic op) left right, place => by
    rw [toExpr, Connective.join, Expr.eval, eval_toExpr left, value]
    dsimp only
    rw [eval_toExpr right]
    split <;> rfl
  | .conditional test yes no, place => by
    rw [toExpr, Expr.eval, eval_toExpr test, value]
    dsimp only
    rw [eval_toExpr yes, eval_toExpr no]
    split <;> rfl

theorem evalAll_toExprs : ∀ (ts : List Term) (place : Place) (i : Nat),
    evalAll callFunction scope place i (toExprs ts) m = (values scope m place i ts, m)
  | [], _, _ => rfl
  | t :: ts, place, i => by
    rw [toExprs, evalAll, eval_toExpr t, values]
    dsimp only
    rw [evalAll_toExprs ts]

theorem evalFields_toFields : ∀ (fields : List (FieldKey × Term)) (place : Place) (i : Nat),
    evalFields callFunction scope place i (toFields fields) m = (fieldValues scope m place i fields, m)
  | [], _, _ => rfl
  | (k, t) :: fields, place, i => by
    rw [toFields, evalFields, eval_toExpr t, fieldValues]
    dsimp only
    rw [evalFields_toFields fields]

end

end

end Term

end Trellis
