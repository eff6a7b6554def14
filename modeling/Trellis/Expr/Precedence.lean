import Trellis.Expr.Token

/-!
# Precedence

Operands with operators between them become one expression, tighter operators first: `*`, `/` and
`%`, then `+` and `-`, then the four orders, then the four equalities, then `&&`, then `||`.
Operators of one level associate to the left.
-/
namespace Trellis.Token.Connective

/-! ## 1. Levels -/

/-- How tightly an operator binds. -/
def level : Connective → Nat
  | .logic .or => 1
  | .logic .and => 2
  | .value .eq | .value .ne | .value .strictEq | .value .strictNe => 3
  | .value .lt | .value .gt | .value .le | .value .ge => 4
  | .value .add | .value .sub => 5
  | .value .mul | .value .div | .value .rem => 6

/-- The expression of an operator between two expressions. -/
def join : Connective → Expr → Expr → Expr
  | .logic op, a, b => .logical op a b
  | .value op, a, b => .binary op a b

/-- Every level is between one and six. -/
theorem level_bounds (c : Connective) : 1 ≤ c.level ∧ c.level ≤ 6 := by
  rcases c with op | op <;> cases op <;> decide

/-! ## 2. One level, all levels -/

/-- Joins the operands around the operators of one level, from the left, and keeps the others. -/
def joinLevel (n : Nat) : Expr → List (Connective × Expr) → Expr × List (Connective × Expr)
  | a, [] => (a, [])
  | a, (op, b) :: rest =>
    if op.level = n then joinLevel n (op.join a b) rest
    else
      let (b, rest) := joinLevel n b rest
      (a, (op, b) :: rest)

/-- Joins the levels from `n` down to one. -/
def joinFrom : Nat → Expr → List (Connective × Expr) → Expr × List (Connective × Expr)
  | 0, a, rest => (a, rest)
  | n + 1, a, rest =>
    let (a, rest) := joinLevel (n + 1) a rest
    joinFrom n a rest

/-- The expression of operands with operators between them. -/
def assemble (a : Expr) (rest : List (Connective × Expr)) : Expr := (joinFrom 6 a rest).1

end Trellis.Token.Connective
