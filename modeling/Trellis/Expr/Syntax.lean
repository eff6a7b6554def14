/-!
# Expressions and statements

What stands between double braces in a page is an expression; a script module is a list of
statements over the same expressions.
- A member access by name and an access by a computed key are separate forms; the keys of an
  assignment are expressions throughout, a name being the text literal of that name.
- What may be left out is filled in: a variable without a value and a bare `return` hold
  `undefined`, a missing `else` is the empty statement.
-/
namespace Trellis

/-! ## 1. Operators -/

/-- Operators of two operands that look at both of them. -/
inductive BinaryOp where
  | add | sub | mul | div | rem
  | lt | gt | le | ge
  | eq | ne | strictEq | strictNe
  deriving DecidableEq, Repr

/-- Operators in front of their operand. -/
inductive UnaryOp where
  | not | neg | pos
  deriving DecidableEq, Repr

/-- Operators whose value is one of the operands. -/
inductive LogicOp where
  | and | or
  deriving DecidableEq, Repr

/-- What an assignment does with the value on its right. -/
inductive AssignOp where
  | set | add | sub
  deriving DecidableEq, Repr

/-- Values written out. -/
inductive Literal where
  | undefined
  | null
  | bool (b : Bool)
  | number (n : Float)
  | string (s : String)

/-! ## 2. Expressions, statements, functions -/

mutual

/-- An expression. -/
inductive Expr where
  | literal (value : Literal)
  | name (x : String)
  | array (items : List Expr)
  | object (fields : List (String × Expr))
  | function (code : Function)
  | member (base : Expr) (field : String)
  | index (base key : Expr)
  | call (callee : Expr) (args : List Expr)
  | unary (op : UnaryOp) (operand : Expr)
  | binary (op : BinaryOp) (left right : Expr)
  | logical (op : LogicOp) (left right : Expr)
  | conditional (test yes no : Expr)

/-- A statement of a script module. -/
inductive Stmt where
  | declare (bindings : List (String × Expr))
  | assign (root : String) (keys : List Expr) (op : AssignOp) (value : Expr)
  | function (code : Function)
  | leave (value : Expr)
  | branch (test : Expr) (yes no : Stmt)
  | block (body : List Stmt)
  | run (e : Expr)
  | empty

/-- A function as written: its name if it has one, its parameters and its body. -/
inductive Function where
  | mk (name : Option String) (params : List String) (body : List Stmt)

end

/-! ## 3. Parts of a function -/

/-- The name a function was written with. -/
def Function.name : Function → Option String
  | .mk name _ _ => name

/-- The parameters of a function. -/
def Function.params : Function → List String
  | .mk _ params _ => params

/-- The statements of a function. -/
def Function.body : Function → List Stmt
  | .mk _ _ body => body

instance : Inhabited Expr := ⟨.literal .undefined⟩

instance : Inhabited Stmt := ⟨.empty⟩

end Trellis
