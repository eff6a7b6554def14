import Trellis.Proofs.Expr.Likeness
import Trellis.Proofs.Expr.Readers

/-!
# Sources that are read alike

Related sources (`Token.Likens`) are the same expression but for the texts in it (`parseExpr?_alike`).
The readers of the grammar take turns, each with less fuel, so their agreement is one induction on the
fuel with a step for each of them (`AllAlike`). Each reader is given fuel for the characters in front of
it (`ReadAlike`), and the related sources need not have the same length.
-/

namespace Trellis

open Token

/-! ## 1. Texts changed -/

mutual

/-- An expression with its texts changed: those that are values, and those that are the names of
    fields. -/
def Expr.mapTexts (f : String → String) : Expr → Expr
  | .literal (.string s) => .literal (.string (f s))
  | .literal l => .literal l
  | .name x => .name x
  | .array items => .array (mapTextsAll f items)
  | .object fields => .object (mapTextsFields f fields)
  | .function code => .function (code.mapTexts f)
  | .member base field => .member (base.mapTexts f) field
  | .index base key => .index (base.mapTexts f) (key.mapTexts f)
  | .call callee args => .call (callee.mapTexts f) (mapTextsAll f args)
  | .unary op operand => .unary op (operand.mapTexts f)
  | .binary op left right => .binary op (left.mapTexts f) (right.mapTexts f)
  | .logical op left right => .logical op (left.mapTexts f) (right.mapTexts f)
  | .conditional test yes no => .conditional (test.mapTexts f) (yes.mapTexts f) (no.mapTexts f)

/-- Expressions with their texts changed. -/
def mapTextsAll (f : String → String) : List Expr → List Expr
  | [] => []
  | e :: es => e.mapTexts f :: mapTextsAll f es

/-- Fields with their texts changed. -/
def mapTextsFields (f : String → String) : List (String × Expr) → List (String × Expr)
  | [] => []
  | (k, e) :: fields => (f k, e.mapTexts f) :: mapTextsFields f fields

/-- Variables whose values have their texts changed. -/
def mapTextsBindings (f : String → String) : List (String × Expr) → List (String × Expr)
  | [] => []
  | (x, e) :: bindings => (x, e.mapTexts f) :: mapTextsBindings f bindings

/-- A statement with its texts changed. -/
def Stmt.mapTexts (f : String → String) : Stmt → Stmt
  | .declare bindings => .declare (mapTextsBindings f bindings)
  | .assign root keys op value => .assign root (mapTextsAll f keys) op (value.mapTexts f)
  | .function code => .function (code.mapTexts f)
  | .leave value => .leave (value.mapTexts f)
  | .branch test yes no => .branch (test.mapTexts f) (yes.mapTexts f) (no.mapTexts f)
  | .block body => .block (mapTextsBody f body)
  | .run e => .run (e.mapTexts f)
  | .empty => .empty

/-- Statements with their texts changed. -/
def mapTextsBody (f : String → String) : List Stmt → List Stmt
  | [] => []
  | s :: rest => s.mapTexts f :: mapTextsBody f rest

/-- A function with its texts changed. -/
def Function.mapTexts (f : String → String) : Function → Function
  | .mk name params body => .mk name params (mapTextsBody f body)

end

/-- A literal that is no text stays. -/
theorem Expr.mapTexts_literal (f : String → String) {l : Literal} (h : ∀ s, l ≠ .string s) :
    (Expr.literal l).mapTexts f = .literal l := by
  rw [Expr.mapTexts]
  exact h

theorem Expr.mapTexts_undefined (f : String → String) :
    (Expr.literal .undefined).mapTexts f = .literal .undefined :=
  mapTexts_literal f fun _ h => by cases h

/-- Operators with the operands behind them, the texts of these changed. -/
def mapTextsMore (f : String → String) (more : List (Connective × Expr)) : List (Connective × Expr) :=
  more.map (Prod.map id (Expr.mapTexts f))

namespace Token.Connective

variable (f : String → String)

theorem mapTexts_join (op : Connective) (a b : Expr) :
    (op.join a b).mapTexts f = op.join (a.mapTexts f) (b.mapTexts f) := by
  cases op <;> rw [join, Expr.mapTexts, join]

theorem joinLevel_mapTexts (n : Nat) (a : Expr) (more : List (Connective × Expr)) :
    joinLevel n (a.mapTexts f) (mapTextsMore f more) =
      ((joinLevel n a more).1.mapTexts f, mapTextsMore f (joinLevel n a more).2) := by
  induction more generalizing a with
  | nil => rfl
  | cons p more ih =>
    obtain ⟨op, b⟩ := p
    have hjoined := ih (op.join a b)
    rw [mapTexts_join] at hjoined
    rw [mapTextsMore, List.map_cons, joinLevel, joinLevel]
    dsimp only [Prod.map, id]
    split
    · exact hjoined
    · have hb := ih b
      rw [mapTextsMore] at hb
      rw [hb]
      rfl

theorem joinFrom_mapTexts (n : Nat) (a : Expr) (more : List (Connective × Expr)) :
    joinFrom n (a.mapTexts f) (mapTextsMore f more) =
      ((joinFrom n a more).1.mapTexts f, mapTextsMore f (joinFrom n a more).2) := by
  induction n generalizing a more with
  | zero => rfl
  | succ n ih =>
    rw [joinFrom, joinFrom, joinLevel_mapTexts]
    exact ih _ _

/-- **Operands are assembled alike**, whatever their texts are. -/
theorem assemble_mapTexts (a : Expr) (more : List (Connective × Expr)) :
    assemble (a.mapTexts f) (mapTextsMore f more) = (assemble a more).mapTexts f := by
  rw [assemble, joinFrom_mapTexts, assemble]

end Token.Connective

namespace Grammar

/-! ## 2. Readers side by side -/

section

variable {α β : Type} {R : List Char → List Char → Prop}

/-- Two readers read related sources alike, when each has fuel for what there is to read: eight steps
    for each character, and some to begin with. What is read takes `k` characters or more. -/
def ReadAlike (R : List Char → List Char → Prop) (offset k : Nat) (g : α → β) (n : Nat)
    (read : Nat → List Char → Option (α × List Char))
    (read' : Nat → List Char → Option (β × List Char)) : Prop :=
  ∀ ⦃m : Nat⦄ ⦃cs ds : List Char⦄, R cs ds → 8 * cs.length + offset ≤ n →
    8 * ds.length + offset ≤ m → Option.Rel (Alike R k g cs ds) (read n cs) (read' m ds)

variable {offset k n : Nat} {g : α → β} {read : Nat → List Char → Option (α × List Char)}
  {read' : Nat → List Char → Option (β × List Char)}

/-- Without fuel nothing needs to be read. -/
theorem ReadAlike.zero : ReadAlike R (offset + 1) k g 0 read read' := by
  intro m cs ds _ hn
  omega

theorem ReadAlike.succ (h : ∀ m cs ds, R cs ds → 8 * cs.length + offset ≤ n →
      8 * ds.length + offset ≤ m → Option.Rel (Alike R k g cs ds) (read (n + 1) cs) (read' (m + 1) ds)) :
    ReadAlike R (offset + 1) k g (n + 1) read read' := by
  intro m cs ds hR hn hm
  cases m with
  | zero => omega
  | succ m => exact h m cs ds hR (Nat.le_of_succ_le_succ hn) (Nat.le_of_succ_le_succ hm)

/-- A reader behind a mark: the mark alone makes up for what the reader needs to begin with. -/
theorem ReadAlike.behind_mark {f : String → String} {m : Nat} {c : Char} {cs ds : List Char}
    (hread : ReadAlike R offset k g n read read') (hoffset : offset ≤ 8) (h : Likens R f)
    (hc : Plain c) (hR : R cs ds) (hn : 8 * cs.length ≤ n) (hm : 8 * ds.length ≤ m) :
    Option.Rel (Alike R k g cs ds) ((mark? c cs).bind (read n)) ((mark? c ds).bind (read' m)) :=
  past_bind (h.mark? hc hR) fun x y hxy hx hy =>
    alike_from (hread hxy (by omega) (by omega)) (by omega) (by omega)

end

/-- One after the other, as long as there is a next one: how the grammar reads rows. -/
def row {α : Type} (next : Option (α × List Char)) (more : List Char → Option (List α × List Char))
    (cs : List Char) : Option (List α × List Char) :=
  match next with
  | none => some ([], cs)
  | some (a, rest) => do
    let (as, rest) ← more rest
    some (a :: as, rest)

theorem alike_row {α β : Type} {R : List Char → List Char → Prop} {g : α → β} {gs : List α → List β}
    {cs ds : List Char} {next : Option (α × List Char)} {next' : Option (β × List Char)}
    {more : List Char → Option (List α × List Char)} {more' : List Char → Option (List β × List Char)}
    (hnil : gs [] = []) (hcons : ∀ a as, gs (a :: as) = g a :: gs as) (hR : R cs ds)
    (hnext : Option.Rel (Alike R 1 g cs ds) next next')
    (hmore : ∀ x y, R x y → x.length + 1 ≤ cs.length → y.length + 1 ≤ ds.length →
      Option.Rel (Alike R 0 gs x y) (more x) (more' y)) :
    Option.Rel (Alike R 0 gs cs ds) (row next more cs) (row next' more' ds) := by
  rcases alike_cases hnext with ⟨rfl, rfl⟩ | ⟨a, x, y, rfl, rfl, hxy, hx, hy⟩
  · exact alike_some hnil.symm hR (Nat.le_refl _) (Nat.le_refl _)
  · refine alike_bind (hmore x y hxy hx hy) fun as x y hxy hx hy => ?_
    exact alike_some (hcons a as).symm hxy (by omega) (by omega)

section

variable (fuel : Nat) (cs : List Char)

theorem moreOperands_succ : moreOperands (fuel + 1) cs =
    row (connected fuel cs) (moreOperands fuel) cs := by
  rw [moreOperands]
  rcases connected fuel cs with _ | ⟨p, rest⟩ <;> rfl

theorem moreExprs_succ : moreExprs (fuel + 1) cs =
    row ((mark? ',' cs).bind (expr fuel)) (moreExprs fuel) cs := by
  rw [moreExprs]
  rcases (mark? ',' cs).bind (expr fuel) with _ | ⟨e, rest⟩ <;> rfl

theorem moreFields_succ : moreFields (fuel + 1) cs =
    row ((mark? ',' cs).bind (field fuel)) (moreFields fuel) cs := by
  rw [moreFields]
  rcases (mark? ',' cs).bind (field fuel) with _ | ⟨p, rest⟩ <;> rfl

theorem moreBindings_succ : moreBindings (fuel + 1) cs =
    row ((mark? ',' cs).bind (binding fuel)) (moreBindings fuel) cs := by
  rw [moreBindings]
  rcases (mark? ',' cs).bind (binding fuel) with _ | ⟨p, rest⟩ <;> rfl

theorem statements_succ : statements (fuel + 1) cs =
    row (statement fuel cs) (statements fuel) cs := by
  rw [statements]
  rcases statement fuel cs with _ | ⟨s, rest⟩ <;> rfl

theorem targetKeys_succ : targetKeys (fuel + 1) cs =
    row (targetKey fuel cs) (targetKeys fuel) cs := by
  rw [targetKeys]
  rcases targetKey fuel cs with _ | ⟨k, rest⟩ <;> rfl

end

/-- What stands between brackets: several things, maybe with a comma behind the last one, or nothing. -/
def bracketed {α : Type} (things : Option (List α × List Char)) (cs : List Char) :
    List α × List Char :=
  match things with
  | some (as, rest) => (as, optionalComma rest)
  | none => ([], cs)

theorem primary_of_bracket {cs rest : List Char} (hcs : skip cs = '[' :: rest) (fuel : Nat) :
    primary (fuel + 1) cs =
      mark? ']' (bracketed (exprs fuel rest) rest).2 >>= fun rest' =>
        some (.array (bracketed (exprs fuel rest) rest).1, rest') := by
  rw [primary, hcs]
  split
  · rename_i heq
    cases heq
    rcases exprs fuel rest with _ | ⟨es, rest'⟩ <;> rfl
  · rename_i heq
    cases heq
  · rename_i heq
    cases heq
  · rename_i h _ _
    exact absurd rfl (h rest)

theorem primary_of_brace {cs rest : List Char} (hcs : skip cs = '\x7b' :: rest) (fuel : Nat) :
    primary (fuel + 1) cs =
      mark? '\x7d' (bracketed (fields fuel rest) rest).2 >>= fun rest' =>
        some (.object (bracketed (fields fuel rest) rest).1, rest') := by
  rw [primary, hcs]
  split
  · rename_i heq
    cases heq
  · rename_i heq
    cases heq
    rcases fields fuel rest with _ | ⟨fs, rest'⟩ <;> rfl
  · rename_i heq
    cases heq
  · rename_i h _
    exact absurd rfl (h rest)

theorem primary_of_paren {cs rest : List Char} (hcs : skip cs = '(' :: rest) (fuel : Nat) :
    primary (fuel + 1) cs =
      expr fuel rest >>= fun p => mark? ')' p.2 >>= fun rest' => some (p.1, rest') := by
  rw [primary, hcs]
  rfl

theorem functionRest_succ (fuel : Nat) (name : Option String) (cs : List Char) :
    functionRest (fuel + 1) name cs =
      mark? '(' cs >>= fun rest => mark? ')' (params fuel rest).2 >>= fun rest' =>
        block fuel rest' >>= fun p => some (.mk name (params fuel rest).1 p.1, p.2) := by
  rw [functionRest]

/-- All readers of the grammar read related sources alike, the one with fuel `n`. -/
structure AllAlike (R : List Char → List Char → Prop) (f : String → String) (n : Nat) : Prop where
  expr : ReadAlike R 4 1 (Expr.mapTexts f) n expr expr
  branches : ReadAlike R 1 1 (Prod.map (Expr.mapTexts f) (Expr.mapTexts f)) n branches branches
  chain : ReadAlike R 3 1 (Expr.mapTexts f) n chain chain
  moreOperands : ReadAlike R 2 0 (mapTextsMore f) n moreOperands moreOperands
  connected : ReadAlike R 1 1 (Prod.map id (Expr.mapTexts f)) n connected connected
  operand : ReadAlike R 2 1 (Expr.mapTexts f) n operand operand
  accesses : ∀ e, ReadAlike R 2 0 (Expr.mapTexts f) n (accesses · e) (accesses · (e.mapTexts f))
  access : ∀ e, ReadAlike R 1 1 (Expr.mapTexts f) n (access · e) (access · (e.mapTexts f))
  exprs : ReadAlike R 5 1 (mapTextsAll f) n exprs exprs
  moreExprs : ReadAlike R 1 0 (mapTextsAll f) n moreExprs moreExprs
  primary : ReadAlike R 1 1 (Expr.mapTexts f) n primary primary
  fields : ReadAlike R 3 1 (mapTextsFields f) n fields fields
  moreFields : ReadAlike R 1 0 (mapTextsFields f) n moreFields moreFields
  field : ReadAlike R 2 1 (Prod.map f (Expr.mapTexts f)) n field field
  fieldValue : ReadAlike R 1 1 (Prod.map f (Expr.mapTexts f)) n fieldValue fieldValue
  functionRest : ∀ name, ReadAlike R 1 1 (Function.mapTexts f) n (functionRest · name)
    (functionRest · name)
  block : ReadAlike R 1 1 (mapTextsBody f) n block block
  statements : ReadAlike R 6 0 (mapTextsBody f) n statements statements
  statement : ReadAlike R 5 1 (Stmt.mapTexts f) n statement statement
  wordStatement : ReadAlike R 1 1 (Stmt.mapTexts f) n wordStatement wordStatement
  binding : ReadAlike R 1 1 (Prod.map id (Expr.mapTexts f)) n binding binding
  moreBindings : ReadAlike R 1 0 (mapTextsBindings f) n moreBindings moreBindings
  assignment : ReadAlike R 1 1 (Stmt.mapTexts f) n assignment assignment
  targetKeys : ReadAlike R 2 0 (mapTextsAll f) n targetKeys targetKeys
  targetKey : ReadAlike R 1 1 (Expr.mapTexts f) n targetKey targetKey

section

variable {R : List Char → List Char → Prop} {f : String → String} {n : Nat} {cs ds : List Char}

/-! ## 3. Expressions -/

theorem alike_expr (ih : AllAlike R f n) :
    ReadAlike R 4 1 (Expr.mapTexts f) (n + 1) expr expr := by
  refine .succ fun m cs ds hR hn hm => ?_
  rw [expr, expr]
  rcases alike_cases (ih.chain hR hn hm) with ⟨h₁, h₂⟩ | ⟨test, x, y, h₁, h₂, hxy, hx, hy⟩
  · rw [h₁, h₂]
    exact .none
  · rw [h₁, h₂]
    dsimp only
    rcases alike_cases (ih.branches (m := m) hxy (by omega) (by omega)) with
      ⟨h₁, h₂⟩ | ⟨⟨yes, no⟩, x', y', h₁, h₂, hxy', hx', hy'⟩
    · rw [h₁, h₂]
      exact alike_some rfl hxy hx hy
    · rw [h₁, h₂]
      exact alike_some (by rw [Expr.mapTexts]) hxy' (by omega) (by omega)

theorem alike_branches (h : Likens R f) (ih : AllAlike R f n) :
    ReadAlike R 1 1 (Prod.map (Expr.mapTexts f) (Expr.mapTexts f)) (n + 1) branches branches := by
  refine .succ fun m cs ds hR hn hm => ?_
  rw [branches, branches]
  refine past_bind (h.mark? (by decide) hR) fun x y hxy hx hy => ?_
  refine alike_bind (ih.expr hxy (by omega) (by omega)) fun yes x y hxy hx hy => ?_
  refine past_bind (h.mark? (by decide) hxy) fun x y hxy hx hy => ?_
  refine alike_bind (ih.expr hxy (by omega) (by omega)) fun no x y hxy hx hy => ?_
  exact alike_some rfl hxy (by omega) (by omega)

theorem alike_chain (ih : AllAlike R f n) :
    ReadAlike R 3 1 (Expr.mapTexts f) (n + 1) chain chain := by
  refine .succ fun m cs ds hR hn hm => ?_
  rw [chain, chain]
  refine alike_bind (ih.operand hR hn hm) fun a x y hxy hx hy => ?_
  refine alike_bind (ih.moreOperands hxy (by omega) (by omega)) fun more x y hxy hx hy => ?_
  exact alike_some (Connective.assemble_mapTexts f a more) hxy (by omega) (by omega)

theorem alike_moreOperands (ih : AllAlike R f n) :
    ReadAlike R 2 0 (mapTextsMore f) (n + 1) moreOperands moreOperands := by
  refine .succ fun m cs ds hR hn hm => ?_
  rw [moreOperands_succ, moreOperands_succ]
  exact alike_row rfl (fun _ _ => rfl) hR (ih.connected hR hn hm) fun x y hxy hx hy =>
    ih.moreOperands hxy (by omega) (by omega)

/-- No operand begins with a star. -/
theorem operand_star (fuel : Nat) (h : cs.head? = some '*') : operand fuel cs = none := by
  obtain ⟨rest, rfl⟩ := List.head?_eq_some_iff.mp h
  have hprimary : ∀ fuel, primary fuel ('*' :: rest) = none := by
    intro fuel
    cases fuel with
    | zero => rw [primary]
    | succ fuel =>
      rw [primary_of_unopened (forall_head_skip (by decide) (by decide) _),
        word?_eq_none (by decide) (by decide), text?_eq_none (by decide) (by decide),
        number?_eq_none (by decide) (by decide) (by decide)]
      rfl
  cases fuel with
  | zero => rw [operand]
  | succ fuel =>
    rw [operand, unaryOp?_eq_none (by decide) (by decide), hprimary]
    rfl

theorem alike_connected (h : Likens R f) (ih : AllAlike R f n) :
    ReadAlike R 1 1 (Prod.map id (Expr.mapTexts f)) (n + 1) connected connected := by
  refine .succ fun m cs ds hR hn hm => ?_
  rw [connected, connected]
  refine rel_bind (h.connective? hR) fun p q hpq => ?_
  obtain ⟨op, x⟩ := p
  obtain ⟨_, y⟩ := q
  obtain ⟨rfl, hbehind, hx, hy⟩ := hpq
  dsimp only at hbehind hx hy ⊢
  rcases hbehind with hxy | ⟨hstar, hstar'⟩
  · refine alike_bind (ih.operand hxy (by omega) (by omega)) fun b x y hxy hx hy => ?_
    dsimp only
    exact alike_some rfl hxy (by omega) (by omega)
  · rw [operand_star _ hstar, operand_star _ hstar']
    exact .none

theorem alike_operand (h : Likens R f) (ih : AllAlike R f n) :
    ReadAlike R 2 1 (Expr.mapTexts f) (n + 1) operand operand := by
  refine .succ fun m cs ds hR hn hm => ?_
  rw [operand, operand]
  rcases alike_cases (h.unaryOp? hR) with ⟨h₁, h₂⟩ | ⟨op, x, y, h₁, h₂, hxy, hx, hy⟩
  · rw [h₁, h₂]
    refine alike_bind (ih.primary hR hn hm) fun e x y hxy hx hy => ?_
    exact alike_from (ih.accesses e hxy (by omega) (by omega)) (by omega) (by omega)
  · rw [h₁, h₂]
    refine alike_bind (ih.operand hxy (by omega) (by omega)) fun e x y hxy hx hy => ?_
    exact alike_some (by rw [Expr.mapTexts]; rfl) hxy (by omega) (by omega)

theorem alike_accesses (ih : AllAlike R f n) (e : Expr) :
    ReadAlike R 2 0 (Expr.mapTexts f) (n + 1) (accesses · e) (accesses · (e.mapTexts f)) := by
  refine .succ fun m cs ds hR hn hm => ?_
  rw [accesses, accesses]
  rcases alike_cases (ih.access e hR hn hm) with ⟨h₁, h₂⟩ | ⟨e', x, y, h₁, h₂, hxy, hx, hy⟩
  · dsimp only at h₁ h₂
    rw [h₁, h₂]
    exact alike_some rfl hR (Nat.le_refl _) (Nat.le_refl _)
  · dsimp only at h₁ h₂
    rw [h₁, h₂]
    exact alike_from (ih.accesses e' hxy (by omega) (by omega)) (by omega) (by omega)

theorem access_of_paren {rest : List Char} (hcs : skip cs = '(' :: rest) (fuel : Nat) (e : Expr) :
    access (fuel + 1) e cs =
      mark? ')' ((exprs fuel rest).getD ([], rest)).2 >>= fun rest' =>
        some (.call e ((exprs fuel rest).getD ([], rest)).1, rest') := by
  rw [access, hcs]
  rfl

theorem alike_access (h : Likens R f) (ih : AllAlike R f n) (e : Expr) :
    ReadAlike R 1 1 (Expr.mapTexts f) (n + 1) (access · e) (access · (e.mapTexts f)) := by
  refine .succ fun m cs ds hR hn hm => ?_
  rcases h.opens ['.', '[', '('] (by decide) hR with
    ⟨c, hopen, x, y, hcs, hds, hxy, hx, hy⟩ | ⟨hcs, hds⟩
  · simp only [List.mem_cons, List.not_mem_nil, or_false] at hopen
    rcases hopen with rfl | rfl | rfl
    · rw [access, access, hcs, hds]
      refine alike_bind (h.word? hxy) fun z x y hxy hx hy => ?_
      exact alike_some (by rw [Expr.mapTexts]; rfl) hxy (by omega) (by omega)
    · rw [access, access, hcs, hds]
      refine alike_bind (ih.expr hxy (by omega) (by omega)) fun key x y hxy hx hy => ?_
      refine past_bind (h.mark? (by decide) hxy) fun x y hxy hx hy => ?_
      exact alike_some (by rw [Expr.mapTexts]) hxy (by omega) (by omega)
    · rw [access_of_paren hcs, access_of_paren hds]
      have hargs : Alike R 0 (mapTextsAll f) x y ((exprs n x).getD ([], x))
          ((exprs m y).getD ([], y)) :=
        alike_getD (ih.exprs hxy (by omega) (by omega)) hxy
      obtain ⟨heq, hxy, hx', hy'⟩ := hargs
      refine past_bind (h.mark? (by decide) hxy) fun x y hxy hx hy => ?_
      exact alike_some (by rw [heq, Expr.mapTexts]) hxy (by omega) (by omega)
  · rw [access_of_unopened hcs, access_of_unopened hds]
    exact .none

theorem alike_exprs (ih : AllAlike R f n) :
    ReadAlike R 5 1 (mapTextsAll f) (n + 1) exprs exprs := by
  refine .succ fun m cs ds hR hn hm => ?_
  rw [exprs, exprs]
  refine alike_bind (ih.expr hR hn hm) fun e x y hxy hx hy => ?_
  refine alike_bind (ih.moreExprs hxy (by omega) (by omega)) fun es x y hxy hx hy => ?_
  exact alike_some (by rw [mapTextsAll]) hxy (by omega) (by omega)

theorem alike_moreExprs (h : Likens R f) (ih : AllAlike R f n) :
    ReadAlike R 1 0 (mapTextsAll f) (n + 1) moreExprs moreExprs := by
  refine .succ fun m cs ds hR hn hm => ?_
  rw [moreExprs_succ, moreExprs_succ]
  have hnext := ih.expr.behind_mark (by decide) h (by decide : Plain ',') hR hn hm
  exact alike_row (by rw [mapTextsAll]) (fun _ _ => by rw [mapTextsAll]) hR hnext
    fun x y hxy hx hy => ih.moreExprs hxy (by omega) (by omega)

theorem past_optional (h : Likens R f) {c : Char} (hc : Plain c) (hR : R cs ds) :
    Past R 0 cs ds ((mark? c cs).getD cs) ((mark? c ds).getD ds) := by
  rcases rel_cases (h.mark? hc hR) with ⟨h₁, h₂⟩ | ⟨x, y, h₁, h₂, hxy, hx, hy⟩
  · rw [h₁, h₂]
    exact ⟨hR, Nat.le_refl _, Nat.le_refl _⟩
  · rw [h₁, h₂]
    exact ⟨hxy, Nat.le_of_succ_le hx, Nat.le_of_succ_le hy⟩

theorem alike_bracketed (h : Likens R f) {α β : Type} {k : Nat} {gs : List α → List β}
    {things : Option (List α × List Char)} {things' : Option (List β × List Char)}
    (hnil : gs [] = []) (hR : R cs ds) (hthings : Option.Rel (Alike R k gs cs ds) things things') :
    Alike R 0 gs cs ds (bracketed things cs) (bracketed things' ds) := by
  rcases alike_cases hthings with ⟨rfl, rfl⟩ | ⟨as, x, y, rfl, rfl, hxy, hx, hy⟩
  · exact ⟨hnil.symm, hR, Nat.le_refl _, Nat.le_refl _⟩
  · obtain ⟨hxy, hx', hy'⟩ := past_optional h (by decide : Plain ',') hxy
    refine ⟨rfl, hxy, ?_, ?_⟩
    · exact Nat.le_trans hx' (Nat.le_trans (Nat.le_add_right _ _) hx)
    · exact Nat.le_trans hy' (Nat.le_trans (Nat.le_add_right _ _) hy)

theorem mapTexts_wordOperand? {z : String} {e : Expr} (he : wordOperand? z = some e) :
    e.mapTexts f = e := by
  unfold wordOperand? at he
  repeat' split at he
  all_goals cases he
  all_goals rw [Expr.mapTexts]
  all_goals
    intro _ hstring
    cases hstring

/-- An operand without brackets: a word, a function, a text or a number. -/
theorem alike_unopened (h : Likens R f) (ih : AllAlike R f n) {m : Nat} (hR : R cs ds)
    (hn : 8 * cs.length ≤ n) (hm : 8 * ds.length ≤ m)
    (hcs : ∀ c ∈ (skip cs).head?, c ∉ ['[', '\x7b', '('])
    (hds : ∀ c ∈ (skip ds).head?, c ∉ ['[', '\x7b', '(']) :
    Option.Rel (Alike R 1 (Expr.mapTexts f) cs ds) (primary (n + 1) cs) (primary (m + 1) ds) := by
  rw [primary_of_unopened hcs, primary_of_unopened hds]
  rcases alike_cases (h.word? hR) with ⟨h₁, h₂⟩ | ⟨z, x, y, h₁, h₂, hxy, hx, hy⟩
  · rw [h₁, h₂]
    dsimp only
    rcases alike_cases (h.text? hR) with ⟨h₁, h₂⟩ | ⟨s, x, y, h₁, h₂, hxy, hx, hy⟩
    · rw [h₁, h₂]
      have hnumber : ∀ n : Float, Expr.mapTexts f (.literal (.number n)) = .literal (.number n) :=
        fun n => Expr.mapTexts_literal f fun _ hstring => by cases hstring
      rcases alike_cases (h.number? hR) with ⟨h₁, h₂⟩ | ⟨n, x, y, h₁, h₂, hxy, hx, hy⟩
      · rw [h₁, h₂]
        exact .none
      · rw [h₁, h₂]
        exact alike_some (hnumber n).symm hxy hx hy
    · rw [h₁, h₂]
      exact alike_some (by rw [Expr.mapTexts]) hxy hx hy
  · rw [h₁, h₂]
    dsimp only [id]
    split
    · have hfunction : ∀ name {x' y'}, R x' y' → x'.length ≤ x.length → y'.length ≤ y.length →
          Option.Rel (Alike R 1 (Expr.mapTexts f) cs ds)
            ((functionRest n name x').map fun p => (.function p.1, p.2))
            ((functionRest m name y').map fun p => (.function p.1, p.2)) := by
        intro name x' y' hxy' hx' hy'
        have hcode := ih.functionRest name (m := m) hxy' (by omega) (by omega)
        exact alike_from (alike_map hcode fun code => by rw [Expr.mapTexts]) (by omega) (by omega)
      rcases alike_cases (h.word? hxy) with ⟨h₃, h₄⟩ | ⟨name, x', y', h₃, h₄, hxy', hx', hy'⟩
      · rw [h₃, h₄]
        exact hfunction none hxy (Nat.le_refl _) (Nat.le_refl _)
      · rw [h₃, h₄]
        exact hfunction (some name) hxy' (Nat.le_of_succ_le hx') (Nat.le_of_succ_le hy')
    · rcases hz : wordOperand? z with _ | e
      · exact .none
      · exact alike_some (mapTexts_wordOperand? hz).symm hxy hx hy

theorem alike_primary (h : Likens R f) (ih : AllAlike R f n) :
    ReadAlike R 1 1 (Expr.mapTexts f) (n + 1) primary primary := by
  refine .succ fun m cs ds hR hn hm => ?_
  rcases h.opens ['[', '\x7b', '('] (by decide) hR with
    ⟨c, hopen, x, y, hcs, hds, hxy, hx, hy⟩ | ⟨hcs, hds⟩
  · simp only [List.mem_cons, List.not_mem_nil, or_false] at hopen
    rcases hopen with rfl | rfl | rfl
    · rw [primary_of_bracket hcs, primary_of_bracket hds]
      obtain ⟨heq, hxy, hx', hy'⟩ := alike_bracketed h (by rw [mapTextsAll]) hxy
        (ih.exprs (m := m) hxy (by omega) (by omega))
      refine past_bind (h.mark? (by decide) hxy) fun x y hxy hx hy => ?_
      exact alike_some (by rw [heq, Expr.mapTexts]) hxy (by omega) (by omega)
    · rw [primary_of_brace hcs, primary_of_brace hds]
      obtain ⟨heq, hxy, hx', hy'⟩ := alike_bracketed h (by rw [mapTextsFields]) hxy
        (ih.fields (m := m) hxy (by omega) (by omega))
      refine past_bind (h.mark? (by decide) hxy) fun x y hxy hx hy => ?_
      exact alike_some (by rw [heq, Expr.mapTexts]) hxy (by omega) (by omega)
    · rw [primary_of_paren hcs, primary_of_paren hds]
      refine alike_bind (ih.expr hxy (by omega) (by omega)) fun e x y hxy hx hy => ?_
      dsimp only
      refine past_bind (h.mark? (by decide) hxy) fun x y hxy hx hy => ?_
      exact alike_some rfl hxy (by omega) (by omega)
  · exact alike_unopened h ih hR hn hm hcs hds

theorem alike_fields (ih : AllAlike R f n) :
    ReadAlike R 3 1 (mapTextsFields f) (n + 1) fields fields := by
  refine .succ fun m cs ds hR hn hm => ?_
  rw [fields, fields]
  refine alike_bind (ih.field hR hn hm) fun p x y hxy hx hy => ?_
  refine alike_bind (ih.moreFields hxy (by omega) (by omega)) fun ps x y hxy hx hy => ?_
  exact alike_some (by rw [mapTextsFields]; rfl) hxy (by omega) (by omega)

theorem alike_moreFields (h : Likens R f) (ih : AllAlike R f n) :
    ReadAlike R 1 0 (mapTextsFields f) (n + 1) moreFields moreFields := by
  refine .succ fun m cs ds hR hn hm => ?_
  rw [moreFields_succ, moreFields_succ]
  have hnext := ih.field.behind_mark (by decide) h (by decide : Plain ',') hR hn hm
  exact alike_row (by rw [mapTextsFields]) (fun _ _ => by rw [mapTextsFields]; rfl) hR hnext
    fun x y hxy hx hy => ih.moreFields hxy (by omega) (by omega)

theorem alike_field (h : Likens R f) (ih : AllAlike R f n) :
    ReadAlike R 2 1 (Prod.map f (Expr.mapTexts f)) (n + 1) field field := by
  refine .succ fun m cs ds hR hn hm => ?_
  rw [field, field]
  rcases alike_cases (ih.fieldValue hR hn hm) with ⟨h₁, h₂⟩ | ⟨p, x, y, h₁, h₂, hxy, hx, hy⟩
  · rw [h₁, h₂]
    dsimp only
    rcases alike_cases (h.word? hR) with ⟨h₁, h₂⟩ | ⟨z, x, y, h₁, h₂, hxy, hx, hy⟩
    · rw [h₁, h₂]
      exact .none
    · rw [h₁, h₂]
      exact alike_some (by rw [Prod.map, h.keeps_word h₁, Expr.mapTexts]; rfl) hxy hx hy
  · rw [h₁, h₂]
    exact alike_some rfl hxy hx hy

theorem alike_fieldValue (h : Likens R f) (ih : AllAlike R f n) :
    ReadAlike R 1 1 (Prod.map f (Expr.mapTexts f)) (n + 1) fieldValue fieldValue := by
  refine .succ fun m cs ds hR hn hm => ?_
  rw [fieldValue, fieldValue]
  have hvalue : ∀ k {x y}, R x y → x.length + 1 ≤ cs.length → y.length + 1 ≤ ds.length →
      Option.Rel (Alike R 1 (Prod.map f (Expr.mapTexts f)) cs ds)
        (mark? ':' x >>= fun rest => expr n rest >>= fun p => some ((k, p.1), p.2))
        (mark? ':' y >>= fun rest => expr m rest >>= fun p => some ((f k, p.1), p.2)) := by
    intro k x y hxy hx hy
    refine past_bind (h.mark? (by decide) hxy) fun x y hxy hx hy => ?_
    refine alike_bind (ih.expr hxy (by omega) (by omega)) fun e x y hxy hx hy => ?_
    dsimp only
    exact alike_some rfl hxy (by omega) (by omega)
  rcases alike_cases (h.word? hR) with ⟨h₁, h₂⟩ | ⟨z, x, y, h₁, h₂, hxy, hx, hy⟩
  · rw [h₁, h₂]
    dsimp only
    rcases alike_cases (h.text? hR) with ⟨h₁, h₂⟩ | ⟨s, x, y, h₁, h₂, hxy, hx, hy⟩
    · rw [h₁, h₂]
      dsimp only
      rcases alike_cases (h.number? hR) with ⟨h₁, h₂⟩ | ⟨k, x, y, h₁, h₂, hxy, hx, hy⟩
      · rw [h₁, h₂]
        exact .none
      · rw [h₁, h₂]
        have hkey := hvalue (Number.text k) hxy hx hy
        rw [h.keeps _ (not_isBlank_of_number k)] at hkey
        exact hkey
    · rw [h₁, h₂]
      exact hvalue s hxy hx hy
  · have hkey := hvalue z hxy hx hy
    rw [h.keeps_word h₁] at hkey
    rw [h₁, h₂]
    exact hkey

/-! ## 4. Functions and statements -/

/-- By induction on the fuel: each name takes some of the source. -/
theorem alike_moreNames (h : Likens R f) {n m : Nat} (hR : R cs ds) (hn : cs.length < n)
    (hm : ds.length < m) : Alike R 0 id cs ds (moreNames n cs) (moreNames m ds) := by
  induction n generalizing m cs ds with
  | zero => omega
  | succ n ih =>
    obtain ⟨m, rfl⟩ := Nat.exists_eq_succ_of_ne_zero (Nat.ne_zero_of_lt hm)
    have hnext : Option.Rel (Alike R 1 id cs ds) ((mark? ',' cs).bind word?)
        ((mark? ',' ds).bind word?) :=
      past_bind (h.mark? (by decide) hR) fun x y hxy hx hy =>
        alike_from (h.word? hxy) (by omega) (by omega)
    rw [moreNames, moreNames]
    rcases alike_cases hnext with ⟨h₁, h₂⟩ | ⟨z, x, y, h₁, h₂, hxy, hx, hy⟩
    · rw [h₁, h₂]
      exact ⟨rfl, hR, Nat.le_refl _, Nat.le_refl _⟩
    · rw [h₁, h₂]
      obtain ⟨heq, hpast⟩ := ih hxy (by omega) (m := m) (by omega)
      exact ⟨congrArg (List.cons z) heq, hpast.behind hx hy⟩

theorem alike_params (h : Likens R f) {n m : Nat} (hR : R cs ds) (hn : cs.length ≤ n)
    (hm : ds.length ≤ m) : Alike R 0 id cs ds (params n cs) (params m ds) := by
  rw [params, params]
  rcases alike_cases (h.word? hR) with ⟨h₁, h₂⟩ | ⟨z, x, y, h₁, h₂, hxy, hx, hy⟩
  · rw [h₁, h₂]
    exact ⟨rfl, hR, Nat.le_refl _, Nat.le_refl _⟩
  · rw [h₁, h₂]
    obtain ⟨heq, hpast⟩ := alike_moreNames h hxy (n := n) (m := m) (by omega) (by omega)
    exact ⟨congrArg (List.cons z) heq, hpast.behind hx hy⟩

theorem alike_functionRest (h : Likens R f) (ih : AllAlike R f n) (name : Option String) :
    ReadAlike R 1 1 (Function.mapTexts f) (n + 1) (functionRest · name) (functionRest · name) := by
  refine .succ fun m cs ds hR hn hm => ?_
  rw [functionRest_succ, functionRest_succ]
  refine past_bind (h.mark? (by decide) hR) fun x y hxy hx hy => ?_
  obtain ⟨heq, hxy, hx', hy'⟩ := alike_params h hxy (n := n) (m := m) (by omega) (by omega)
  refine past_bind (h.mark? (by decide) hxy) fun x y hxy hx hy => ?_
  refine alike_bind (ih.block hxy (by omega) (by omega)) fun body x y hxy hx hy => ?_
  dsimp only
  exact alike_some (by rw [heq, Function.mapTexts]; rfl) hxy (by omega) (by omega)

theorem alike_block (h : Likens R f) (ih : AllAlike R f n) :
    ReadAlike R 1 1 (mapTextsBody f) (n + 1) block block := by
  refine .succ fun m cs ds hR hn hm => ?_
  rw [block, block]
  refine past_bind (h.mark? (by decide) hR) fun x y hxy hx hy => ?_
  refine alike_bind (ih.statements hxy (by omega) (by omega)) fun body x y hxy hx hy => ?_
  refine past_bind (h.mark? (by decide) hxy) fun x y hxy hx hy => ?_
  exact alike_some rfl hxy (by omega) (by omega)

theorem alike_statements (ih : AllAlike R f n) :
    ReadAlike R 6 0 (mapTextsBody f) (n + 1) statements statements := by
  refine .succ fun m cs ds hR hn hm => ?_
  rw [statements_succ, statements_succ]
  exact alike_row (by rw [mapTextsBody]) (fun _ _ => by rw [mapTextsBody]) hR
    (ih.statement hR hn hm) fun x y hxy hx hy => ih.statements hxy (by omega) (by omega)

/-- A semicolon may be left out. -/
theorem alike_ended (h : Likens R f) {α β : Type} {k : Nat} {g : α → β} {a : α} {b : β}
    {x y : List Char} (hb : b = g a) (hxy : R x y) (hx : x.length + k ≤ cs.length)
    (hy : y.length + k ≤ ds.length) :
    Option.Rel (Alike R k g cs ds) (some (a, optionalEnd x)) (some (b, optionalEnd y)) := by
  obtain ⟨hxy, hx', hy'⟩ := past_optional h (by decide : Plain ';') hxy
  exact alike_some hb hxy (Nat.le_trans (Nat.add_le_add_right hx' k) hx)
    (Nat.le_trans (Nat.add_le_add_right hy' k) hy)

theorem alike_statement (h : Likens R f) (ih : AllAlike R f n) :
    ReadAlike R 5 1 (Stmt.mapTexts f) (n + 1) statement statement := by
  refine .succ fun m cs ds hR hn hm => ?_
  rw [statement, statement]
  rcases alike_cases (ih.block (m := m) hR (by omega) (by omega)) with
    ⟨h₁, h₂⟩ | ⟨body, x, y, h₁, h₂, hxy, hx, hy⟩
  · rw [h₁, h₂]
    dsimp only
    rcases alike_cases (ih.wordStatement (m := m) hR (by omega) (by omega)) with
      ⟨h₁, h₂⟩ | ⟨s, x, y, h₁, h₂, hxy, hx, hy⟩
    · rw [h₁, h₂]
      dsimp only
      rcases alike_cases (ih.assignment (m := m) hR (by omega) (by omega)) with
        ⟨h₁, h₂⟩ | ⟨s, x, y, h₁, h₂, hxy, hx, hy⟩
      · rw [h₁, h₂]
        dsimp only
        rcases alike_cases (ih.expr (m := m) hR (by omega) (by omega)) with
          ⟨h₁, h₂⟩ | ⟨e, x, y, h₁, h₂, hxy, hx, hy⟩
        · rw [h₁, h₂]
          exact rel_map (h.mark? (by decide) hR) fun _ _ hpast => ⟨by rw [Stmt.mapTexts], hpast⟩
        · rw [h₁, h₂]
          exact alike_ended h (by rw [Stmt.mapTexts]) hxy hx hy
      · rw [h₁, h₂]
        exact alike_some rfl hxy hx hy
    · rw [h₁, h₂]
      exact alike_some rfl hxy hx hy
  · rw [h₁, h₂]
    exact alike_some (by rw [Stmt.mapTexts]) hxy hx hy

theorem alike_wordStatement (h : Likens R f) (ih : AllAlike R f n) :
    ReadAlike R 1 1 (Stmt.mapTexts f) (n + 1) wordStatement wordStatement := by
  refine .succ fun m cs ds hR hn hm => ?_
  rw [wordStatement, wordStatement]
  refine alike_bind (h.word? hR) fun z x y hxy hx hy => ?_
  dsimp only [id]
  split
  · refine alike_bind (ih.binding hxy (by omega) (by omega)) fun b x y hxy hx hy => ?_
    dsimp only
    refine alike_bind (ih.moreBindings hxy (by omega) (by omega)) fun bs x y hxy hx hy => ?_
    dsimp only
    exact alike_ended h (by rw [Stmt.mapTexts, mapTextsBindings]; rfl) hxy (by omega) (by omega)
  · split
    · refine alike_bind (h.word? hxy) fun name x y hxy hx hy => ?_
      dsimp only
      refine alike_bind (ih.functionRest (some name) hxy (by omega) (by omega))
        fun code x y hxy hx hy => ?_
      dsimp only
      exact alike_some (by rw [Stmt.mapTexts]) hxy (by omega) (by omega)
    · split
      · have hvalue := alike_getD (a := .literal .undefined)
          (ih.expr (m := m) hxy (by omega) (by omega)) hxy
        rw [Expr.mapTexts_undefined] at hvalue
        obtain ⟨heq, hxy', hx', hy'⟩ := hvalue
        exact alike_ended h (by rw [heq, Stmt.mapTexts]) hxy' (by omega) (by omega)
      · split
        · refine past_bind (h.mark? (by decide) hxy) fun x y hxy hx hy => ?_
          refine alike_bind (ih.expr hxy (by omega) (by omega)) fun test x y hxy hx hy => ?_
          dsimp only
          refine past_bind (h.mark? (by decide) hxy) fun x y hxy hx hy => ?_
          refine alike_bind (ih.statement hxy (by omega) (by omega)) fun yes x y hxy hx hy => ?_
          dsimp only
          have helse : Option.Rel (Alike R 1 (Stmt.mapTexts f) x y)
              ((given? "else" x).bind (statement n)) ((given? "else" y).bind (statement m)) :=
            past_bind (h.given? "else" hxy) fun x' y' hxy' hx' hy' =>
              alike_from (ih.statement hxy' (by omega) (by omega)) (by omega) (by omega)
          rcases alike_cases helse with ⟨h₁, h₂⟩ | ⟨no, x', y', h₁, h₂, hxy', hx', hy'⟩
          · rw [h₁, h₂]
            exact alike_some (by rw [Stmt.mapTexts, Stmt.mapTexts]) hxy (by omega) (by omega)
          · rw [h₁, h₂]
            exact alike_some (by rw [Stmt.mapTexts]) hxy' (by omega) (by omega)
        · exact .none

theorem alike_binding (h : Likens R f) (ih : AllAlike R f n) :
    ReadAlike R 1 1 (Prod.map id (Expr.mapTexts f)) (n + 1) binding binding := by
  refine .succ fun m cs ds hR hn hm => ?_
  rw [binding, binding]
  refine alike_bind (h.word? hR) fun z x y hxy hx hy => ?_
  dsimp only [id]
  have hvalue := ih.expr.behind_mark (m := m) (by decide) h (by decide : Plain '=') hxy (by omega)
    (by omega)
  rcases alike_cases hvalue with ⟨h₁, h₂⟩ | ⟨e, x', y', h₁, h₂, hxy', hx', hy'⟩
  · rw [h₁, h₂]
    refine alike_some ?_ hxy (by omega) (by omega)
    rw [Prod.map, Expr.mapTexts_undefined]
    rfl
  · rw [h₁, h₂]
    exact alike_some rfl hxy' (by omega) (by omega)

theorem alike_moreBindings (h : Likens R f) (ih : AllAlike R f n) :
    ReadAlike R 1 0 (mapTextsBindings f) (n + 1) moreBindings moreBindings := by
  refine .succ fun m cs ds hR hn hm => ?_
  rw [moreBindings_succ, moreBindings_succ]
  have hnext := ih.binding.behind_mark (by decide) h (by decide : Plain ',') hR hn hm
  exact alike_row (by rw [mapTextsBindings]) (fun _ _ => by rw [mapTextsBindings]; rfl) hR hnext
    fun x y hxy hx hy => ih.moreBindings hxy (by omega) (by omega)

theorem alike_assignment (h : Likens R f) (ih : AllAlike R f n) :
    ReadAlike R 1 1 (Stmt.mapTexts f) (n + 1) assignment assignment := by
  refine .succ fun m cs ds hR hn hm => ?_
  rw [assignment, assignment]
  refine alike_bind (h.name? hR) fun root x y hxy hx hy => ?_
  refine alike_bind (ih.targetKeys hxy (by omega) (by omega)) fun keys x y hxy hx hy => ?_
  refine alike_bind (h.assignOp? hxy) fun op x y hxy hx hy => ?_
  refine alike_bind (ih.expr hxy (by omega) (by omega)) fun e x y hxy hx hy => ?_
  exact alike_ended h (by rw [Stmt.mapTexts]; rfl) hxy (by omega) (by omega)

theorem alike_targetKeys (ih : AllAlike R f n) :
    ReadAlike R 2 0 (mapTextsAll f) (n + 1) targetKeys targetKeys := by
  refine .succ fun m cs ds hR hn hm => ?_
  rw [targetKeys_succ, targetKeys_succ]
  exact alike_row (by rw [mapTextsAll]) (fun _ _ => by rw [mapTextsAll]) hR
    (ih.targetKey hR hn hm) fun x y hxy hx hy => ih.targetKeys hxy (by omega) (by omega)

theorem targetKey_of_unopened (hc : ∀ c ∈ (skip cs).head?, c ∉ ['.', '[']) (fuel : Nat) :
    targetKey fuel cs = none := by
  cases fuel with
  | zero => rw [targetKey]
  | succ fuel =>
    rw [targetKey]
    split
    · rename_i heq
      exact absurd (hc '.' (by rw [heq]; rfl)) (by decide)
    · rename_i heq
      exact absurd (hc '[' (by rw [heq]; rfl)) (by decide)
    · rfl

theorem alike_targetKey (h : Likens R f) (ih : AllAlike R f n) :
    ReadAlike R 1 1 (Expr.mapTexts f) (n + 1) targetKey targetKey := by
  refine .succ fun m cs ds hR hn hm => ?_
  rcases h.opens ['.', '['] (by decide) hR with
    ⟨c, hopen, x, y, hcs, hds, hxy, hx, hy⟩ | ⟨hcs, hds⟩
  · simp only [List.mem_cons, List.not_mem_nil, or_false] at hopen
    rw [targetKey, targetKey, hcs, hds]
    rcases hopen with rfl | rfl
    · have hword : Option.Rel (Alike R 1 f x y) (word? x) (word? y) :=
        rel_mono (h.word? hxy) fun p q hp _ ⟨heq, hpast⟩ => ⟨heq.trans (h.keeps_word hp).symm, hpast⟩
      refine alike_bind hword fun z x y hxy hx hy => ?_
      exact alike_some (by rw [Expr.mapTexts]) hxy (by omega) (by omega)
    · refine alike_bind (ih.expr hxy (by omega) (by omega)) fun key x y hxy hx hy => ?_
      refine past_bind (h.mark? (by decide) hxy) fun x y hxy hx hy => ?_
      exact alike_some rfl hxy (by omega) (by omega)
  · rw [targetKey_of_unopened hcs, targetKey_of_unopened hds]
    exact .none

/-! ## 5. All readers -/

/-- **All readers read related sources alike**, by induction on the fuel. -/
theorem allAlike (h : Likens R f) : ∀ n, AllAlike R f n
  | 0 => by
    constructor
    all_goals first | exact ReadAlike.zero | exact fun _ => ReadAlike.zero
  | n + 1 =>
    have ih := allAlike h n
    { expr := alike_expr ih
      branches := alike_branches h ih
      chain := alike_chain ih
      moreOperands := alike_moreOperands ih
      connected := alike_connected h ih
      operand := alike_operand h ih
      accesses := alike_accesses ih
      access := alike_access h ih
      exprs := alike_exprs ih
      moreExprs := alike_moreExprs h ih
      primary := alike_primary h ih
      fields := alike_fields ih
      moreFields := alike_moreFields h ih
      field := alike_field h ih
      fieldValue := alike_fieldValue h ih
      functionRest := alike_functionRest h ih
      block := alike_block h ih
      statements := alike_statements ih
      statement := alike_statement h ih
      wordStatement := alike_wordStatement h ih
      binding := alike_binding h ih
      moreBindings := alike_moreBindings h ih
      assignment := alike_assignment h ih
      targetKeys := alike_targetKeys ih
      targetKey := alike_targetKey h ih }

/-- An expression at the front of a whole source. -/
theorem expr_alike (h : Likens R f) (hR : R cs ds) :
    Option.Rel (Alike R 1 (Expr.mapTexts f) cs ds) (expr (fuelFor cs) cs) (expr (fuelFor ds) ds) :=
  (allAlike h _).expr hR (by rw [fuelFor]; omega) (by rw [fuelFor]; omega)

/-- **Related sources are the same expression**, but for the texts: when the one is none, the other is
    none. -/
theorem parseExpr?_alike (h : Likens R f) {s t : String} (hR : R s.toList t.toList) :
    parseExpr? t = (parseExpr? s).map (Expr.mapTexts f) := by
  rw [parseExpr?, parseExpr?]
  rcases alike_cases (expr_alike h hR) with ⟨h₁, h₂⟩ | ⟨e, x, y, h₁, h₂, hxy, -, -⟩
  · rw [h₁, h₂]
    rfl
  · rw [h₁, h₂]
    dsimp only
    have hends : (skip x).isEmpty = (skip y).isEmpty := by
      rw [Bool.eq_iff_iff, List.isEmpty_iff, List.isEmpty_iff, h.ends hxy]
    rw [hends]
    split <;> rfl

end

end Grammar

end Trellis
