import Trellis.Expr.Program

/-!
# Equality of code

Expressions, statements and functions hold lists of each other. Whether two of them are the same is
decided by a walk through both (`Expr.same_iff`), which the kernel can follow. What a source is read as
can so be checked against the code that it should be.
-/
namespace Trellis

deriving instance DecidableEq for Literal

/-! ## 1. A walk through both -/

mutual

/-- Whether two expressions are the same. -/
def Expr.same : Expr → Expr → Bool
  | .literal l, .literal l' => l = l'
  | .name x, .name x' => x = x'
  | .array items, .array items' => sameExprs items items'
  | .object fields, .object fields' => sameNamed fields fields'
  | .function code, .function code' => code.same code'
  | .member base field, .member base' field' => base.same base' && field = field'
  | .index base key, .index base' key' => base.same base' && key.same key'
  | .call callee args, .call callee' args' => callee.same callee' && sameExprs args args'
  | .unary op e, .unary op' e' => op = op' && e.same e'
  | .binary op l r, .binary op' l' r' => op = op' && l.same l' && r.same r'
  | .logical op l r, .logical op' l' r' => op = op' && l.same l' && r.same r'
  | .conditional test yes no, .conditional test' yes' no' =>
    test.same test' && yes.same yes' && no.same no'
  | _, _ => false

/-- Whether two lists of expressions are the same. -/
def sameExprs : List Expr → List Expr → Bool
  | [], [] => true
  | e :: es, e' :: es' => e.same e' && sameExprs es es'
  | _, _ => false

/-- Whether two lists of expressions with names are the same. -/
def sameNamed : List (String × Expr) → List (String × Expr) → Bool
  | [], [] => true
  | (x, e) :: fields, (x', e') :: fields' => x = x' && e.same e' && sameNamed fields fields'
  | _, _ => false

/-- Whether two statements are the same. -/
def Stmt.same : Stmt → Stmt → Bool
  | .declare bindings, .declare bindings' => sameNamed bindings bindings'
  | .assign root keys op e, .assign root' keys' op' e' =>
    root = root' && sameExprs keys keys' && op = op' && e.same e'
  | .function code, .function code' => code.same code'
  | .leave e, .leave e' => e.same e'
  | .branch test yes no, .branch test' yes' no' =>
    test.same test' && yes.same yes' && no.same no'
  | .block body, .block body' => sameStmts body body'
  | .run e, .run e' => e.same e'
  | .empty, .empty => true
  | _, _ => false

/-- Whether two bodies are the same. -/
def sameStmts : List Stmt → List Stmt → Bool
  | [], [] => true
  | s :: body, s' :: body' => s.same s' && sameStmts body body'
  | _, _ => false

/-- Whether two functions are the same. -/
def Function.same : Function → Function → Bool
  | .mk name params body, .mk name' params' body' =>
    name = name' && params = params' && sameStmts body body'

end

/-! ## 2. Equality -/

mutual

/-- **The walk finds out whether two expressions are the same one.** -/
theorem Expr.same_iff : ∀ e e' : Expr, e.same e' = true ↔ e = e'
  | .literal _, e' | .name _, e' => by cases e' <;> simp [Expr.same]
  | .array items, e' => by cases e' <;> simp [Expr.same, sameExprs_iff items]
  | .object fields, e' => by cases e' <;> simp [Expr.same, sameNamed_iff fields]
  | .function code, e' => by cases e' <;> simp [Expr.same, code.same_iff]
  | .member base _, e' => by cases e' <;> simp [Expr.same, base.same_iff]
  | .index base key, e' => by cases e' <;> simp [Expr.same, base.same_iff, key.same_iff]
  | .call callee args, e' => by cases e' <;> simp [Expr.same, callee.same_iff, sameExprs_iff args]
  | .unary _ e, e' => by cases e' <;> simp [Expr.same, e.same_iff]
  | .binary _ l r, e' | .logical _ l r, e' => by
    cases e' <;> simp [Expr.same, l.same_iff, r.same_iff, and_assoc]
  | .conditional test yes no, e' => by
    cases e' <;> simp [Expr.same, test.same_iff, yes.same_iff, no.same_iff, and_assoc]

theorem sameExprs_iff : ∀ es es' : List Expr, sameExprs es es' = true ↔ es = es'
  | [], es' => by cases es' <;> simp [sameExprs]
  | e :: es, es' => by cases es' <;> simp [sameExprs, e.same_iff, sameExprs_iff es]

theorem sameNamed_iff : ∀ fields fields' : List (String × Expr),
    sameNamed fields fields' = true ↔ fields = fields'
  | [], fields' => by cases fields' <;> simp [sameNamed]
  | (_, e) :: fields, fields' => by
    rcases fields' with _ | ⟨⟨_, _⟩, _⟩ <;> simp [sameNamed, e.same_iff, sameNamed_iff fields]

theorem Stmt.same_iff : ∀ s s' : Stmt, s.same s' = true ↔ s = s'
  | .declare bindings, s' => by cases s' <;> simp [Stmt.same, sameNamed_iff bindings]
  | .assign _ keys _ e, s' => by
    cases s' <;> simp [Stmt.same, sameExprs_iff keys, e.same_iff, and_assoc]
  | .function code, s' => by cases s' <;> simp [Stmt.same, code.same_iff]
  | .leave e, s' | .run e, s' => by cases s' <;> simp [Stmt.same, e.same_iff]
  | .branch test yes no, s' => by
    cases s' <;> simp [Stmt.same, test.same_iff, yes.same_iff, no.same_iff, and_assoc]
  | .block body, s' => by cases s' <;> simp [Stmt.same, sameStmts_iff body]
  | .empty, s' => by cases s' <;> simp [Stmt.same]

theorem sameStmts_iff : ∀ body body' : List Stmt, sameStmts body body' = true ↔ body = body'
  | [], body' => by cases body' <;> simp [sameStmts]
  | s :: body, body' => by cases body' <;> simp [sameStmts, s.same_iff, sameStmts_iff body]

theorem Function.same_iff : ∀ code code' : Function, code.same code' = true ↔ code = code'
  | .mk _ _ body, .mk _ _ _ => by simp [Function.same, sameStmts_iff body, and_assoc]

end

instance : DecidableEq Expr := fun e e' => decidable_of_iff _ (e.same_iff e')

instance : DecidableEq Stmt := fun s s' => decidable_of_iff _ (s.same_iff s')

deriving instance DecidableEq for Segment, Program

end Trellis
