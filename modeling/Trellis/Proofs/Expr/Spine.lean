import Trellis.Proofs.Expr.Term

/-!
# The spine of a term

Written out, a term of operators is a row of operands with operators between them, and the rows of
the table say how they hang together. The spine of a term is that row.
- `guarded_spine`: a term is written as the operands of its spine are,
- `assemble_spine`: joining the spine level by level gives the expression of the term.
-/
namespace Trellis

open Token

/-! ## 1. Joining the tightest levels -/

namespace Token.Connective

/-- Joins the operands around the operators of the `d` tightest levels. -/
def joinTop : Nat → Expr → List (Connective × Expr) → Expr × List (Connective × Expr)
  | 0, a, ms => (a, ms)
  | d + 1, a, ms => joinLevel (6 - d) (joinTop d a ms).1 (joinTop d a ms).2

theorem assemble_eq (a : Expr) (ms : List (Connective × Expr)) :
    assemble a ms = (joinTop 6 a ms).1 := rfl

variable {n d : Nat} {a b x y : Expr} {ms ns : List (Connective × Expr)} {op : Connective}

/-- An operator of another level keeps what is on its two sides apart. -/
theorem joinLevel_append (hop : op.level ≠ n) (a : Expr) (ms : List (Connective × Expr)) :
    joinLevel n a (ms ++ (op, b) :: ns) =
      ((joinLevel n a ms).1,
        (joinLevel n a ms).2 ++ (op, (joinLevel n b ns).1) :: (joinLevel n b ns).2) := by
  induction ms generalizing a with
  | nil =>
    rw [List.nil_append, joinLevel, joinLevel, if_neg hop]
    rfl
  | cons m ms ih =>
    obtain ⟨op', c⟩ := m
    rw [List.cons_append, joinLevel, joinLevel]
    split
    · exact ih _
    · rw [ih]
      rfl

/-- The same for several levels that are tighter than the operator. -/
theorem joinTop_append (hop : op.level ≤ 6 - d) (a : Expr) (ms : List (Connective × Expr)) :
    joinTop d a (ms ++ (op, b) :: ns) =
      ((joinTop d a ms).1, (joinTop d a ms).2 ++ (op, (joinTop d b ns).1) :: (joinTop d b ns).2) := by
  induction d with
  | zero => rfl
  | succ d ih =>
    have hpos := (level_bounds op).1
    rw [joinTop, ih (by omega), joinLevel_append (by omega)]
    rfl

/-- One more operand behind operands that are one expression already. -/
theorem joinLevel_concat (hop : op.level = n) (h : joinLevel n a ms = (x, [])) :
    joinLevel n a (ms ++ [(op, b)]) = (op.join x b, []) := by
  induction ms generalizing a with
  | nil =>
    obtain ⟨rfl, -⟩ := Prod.mk.inj h
    rw [List.nil_append, joinLevel, if_pos hop, joinLevel]
  | cons m ms ih =>
    obtain ⟨op', c⟩ := m
    rw [joinLevel] at h
    rw [List.cons_append, joinLevel]
    split at h
    · rename_i hlevel
      rw [if_pos hlevel]
      exact ih h
    · cases h

theorem joinTop_nil (d : Nat) (a : Expr) : joinTop d a [] = (a, []) := by
  induction d with
  | zero => rfl
  | succ d ih => rw [joinTop, ih, joinLevel]

/-- What is one expression already stays so. -/
theorem joinTop_of_le {d' : Nat} (hd : d ≤ d') (h : joinTop d a ms = (x, [])) :
    joinTop d' a ms = (x, []) := by
  induction hd with
  | refl => exact h
  | step _ ih => rw [joinTop, ih, joinLevel]

/-- **Two sides of an operator**: what is on the left is joined down to its level, what is on the
    right to the next tighter one, and the operator joins them. -/
theorem joinTop_connected (hleft : joinTop (7 - op.level) a ms = (x, []))
    (hright : joinTop (7 - (op.level + 1)) b ns = (y, [])) :
    joinTop (7 - op.level) a (ms ++ (op, b) :: ns) = (op.join x y, []) := by
  obtain ⟨hpos, hle⟩ := level_bounds op
  have hd : 7 - op.level = 7 - (op.level + 1) + 1 := by omega
  have hlevel : 6 - (7 - (op.level + 1)) = op.level := by omega
  rw [hd, joinTop, hlevel] at hleft
  rw [hd, joinTop, hlevel, joinTop_append (by omega), hright]
  exact joinLevel_concat rfl hleft

end Token.Connective

/-! ## 2. Spines -/

namespace Term

/-- The operands of a term and the operators between them, where what is looser than `p` stands in
    parentheses and is an operand as a whole. -/
def spine (p : Nat) : Term → Term × List (Connective × Term)
  | .connected op left right =>
    if op.row < p then (.connected op left right, [])
    else
      ((left.spine op.row).1,
        (left.spine op.row).2 ++ (op, (right.spine (op.row + 1)).1) :: (right.spine (op.row + 1)).2)
  | t => (t, [])

/-- Operators with the operands behind them as they are written. -/
def printOperands (ms : List (Connective × Term)) : List Char :=
  ms.flatMap fun m => ' ' :: (m.1.symbol ++ ' ' :: m.2.guarded 7)

/-- The operators with the expressions behind them. -/
def operandExprs (ms : List (Connective × Term)) : List (Connective × Expr) :=
  ms.map fun m => (m.1, m.2.toExpr)

theorem printOperands_cons (op : Connective) (t : Term) (ms : List (Connective × Term)) :
    printOperands ((op, t) :: ms) =
      ' ' :: (op.symbol ++ ' ' :: (t.guarded 7 ++ printOperands ms)) := by
  rw [printOperands, List.flatMap_cons, List.cons_append, List.append_assoc, List.cons_append]
  rfl

theorem printOperands_append (ms ns : List (Connective × Term)) :
    printOperands (ms ++ ns) = printOperands ms ++ printOperands ns := List.flatMap_append

theorem row_bounds (op : Connective) : 1 ≤ op.row ∧ op.row ≤ 6 := by
  rw [← Connective.level_eq_row]
  exact Connective.level_bounds op

/-- A term is an operator between two terms, or no operator between operands holds it together. -/
theorem connected_induction {motive : Term → Prop}
    (connected : ∀ op left right, motive left → motive right → motive (.connected op left right))
    (operand : ∀ t, t.level = 0 ∨ 7 ≤ t.level → motive t) : ∀ t, motive t
  | .connected op left right =>
    connected op left right (connected_induction connected operand left)
      (connected_induction connected operand right)
  | .conditional .. => operand _ (.inl rfl)
  | .unary .. => operand _ (.inr (Nat.le_refl 7))
  | .number _ => operand _ (.inr (Nat.le_succ 7))
  | .name _ | .text _ | .bool _ | .null | .undefined | .array _ | .object _ | .member ..
  | .index .. | .call .. => operand _ (.inr (Nat.le_add_right 7 2))

/-- What no operator between operands holds together is its own spine. -/
theorem spine_of_level {t : Term} (ht : t.level = 0 ∨ 7 ≤ t.level) (p : Nat) :
    t.spine p = (t, []) := by
  cases t with
  | connected op left right =>
    have hrow := row_bounds op
    rw [level] at ht
    omega
  | _ => rfl

/-- **A term is written as its spine is.** -/
theorem guarded_spine (t : Term) (p : Nat) (h₁ : 1 ≤ p) (h₇ : p ≤ 7) :
    t.guarded p = (t.spine p).1.guarded 7 ++ printOperands (t.spine p).2 := by
  induction t using connected_induction generalizing p with
  | connected op left right hleft hright =>
    obtain ⟨hpos, hle⟩ := row_bounds op
    have hlevel : (connected op left right).level = op.row := by rw [level]
    rw [spine]
    split
    · have hlt : (connected op left right).level < 7 := by omega
      rw [guarded_of_lt (by omega), guarded_of_lt hlt, printOperands, List.flatMap_nil,
        List.append_nil]
    · rw [guarded_of_le (by omega), print_connected, hleft op.row hpos (by omega),
        hright (op.row + 1) (by omega) (by omega), printOperands_append, printOperands_cons,
        List.append_assoc]
  | operand t ht =>
    have hsame : t.guarded p = t.guarded 7 := by
      rcases ht with ht | ht
      · rw [guarded_of_lt (by omega), guarded_of_lt (by omega)]
      · rw [guarded_of_le (by omega), guarded_of_le ht]
    rw [spine_of_level ht, hsame, printOperands, List.flatMap_nil, List.append_nil]

/-- **Joining the levels of a spine gives the term**, down to the level from which it was taken. -/
theorem joinTop_spine (t : Term) (p : Nat) (hp : p ≤ 7) :
    Connective.joinTop (7 - p) (t.spine p).1.toExpr (operandExprs (t.spine p).2) =
      (t.toExpr, []) := by
  induction t using connected_induction generalizing p with
  | connected op left right hleft hright =>
    rw [spine]
    split
    · exact Connective.joinTop_nil _ _
    · rename_i hge
      obtain ⟨hpos, hle⟩ := row_bounds op
      have hl := hleft op.row (by omega)
      have hr := hright (op.row + 1) (by omega)
      rw [← Connective.level_eq_row] at hl hr hge
      have hboth := Connective.joinTop_connected hl hr
      rw [operandExprs, ← Connective.level_eq_row, List.map_append, List.map_cons]
      exact Connective.joinTop_of_le (by omega) hboth
  | operand t ht =>
    rw [spine_of_level ht]
    exact Connective.joinTop_nil _ _

/-- The operands of a term with the operators between them become its expression. -/
theorem assemble_spine (t : Term) :
    Connective.assemble (t.spine 1).1.toExpr (operandExprs (t.spine 1).2) = t.toExpr := by
  rw [Connective.assemble_eq, joinTop_spine t 1 (by decide)]

end Term

end Trellis
