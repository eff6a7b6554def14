import Trellis.Expr.Grammar
import Trellis.Proofs.Expr.Tokens

/-!
# The readers of the grammar, one step each

What a reader does before it goes on with another one.
- A blank in front of anything changes nothing,
- a mark that closes or separates begins nothing, and it ends what stands before it
  (`endsExpr_closer`),
- a word, a text and a number are operands, and so is an expression in parentheses.
-/
namespace Trellis.Grammar

open Token Text

variable {fuel : Nat} {e : Expr} {c : Char} {cs rest : List Char}

/-! ## 1. Blanks -/

theorem primary_blank (fuel : Nat) (cs : List Char) : primary fuel (' ' :: cs) = primary fuel cs := by
  cases fuel with
  | zero => rw [primary, primary]
  | succ fuel => rw [primary, primary, skip_blank, word?_blank, text?_blank, number?_blank]

theorem operand_blank (fuel : Nat) (cs : List Char) : operand fuel (' ' :: cs) = operand fuel cs := by
  cases fuel with
  | zero => rw [operand, operand]
  | succ fuel => rw [operand, operand, unaryOp?_blank, primary_blank]

theorem expr_blank (fuel : Nat) (cs : List Char) : expr fuel (' ' :: cs) = expr fuel cs := by
  cases fuel with
  | zero => rw [expr, expr]
  | succ fuel =>
    rw [expr, expr]
    cases fuel with
    | zero => rw [chain, chain]
    | succ fuel => rw [chain, chain, operand_blank]

theorem field_blank (fuel : Nat) (cs : List Char) : field fuel (' ' :: cs) = field fuel cs := by
  cases fuel with
  | zero => rw [field, field]
  | succ fuel =>
    rw [field, field, word?_blank]
    cases fuel with
    | zero => rw [fieldValue, fieldValue]
    | succ fuel => rw [fieldValue, fieldValue, word?_blank, text?_blank, number?_blank]

theorem access_blank (fuel : Nat) (e : Expr) (cs : List Char) :
    access fuel e (' ' :: cs) = access fuel e cs := by
  cases fuel with
  | zero => rw [access, access]
  | succ fuel => rw [access, access, skip_blank]

/-! ## 2. What may stand behind -/

/-- Behind this an operand does not go on: no access, and nothing that makes a word or a number
    longer. -/
structure EndsOperand (rest : List Char) : Prop where
  stops : EndsNumber rest
  access : ∀ fuel e, access fuel e rest = none

/-- Nor does an operator between operands follow. -/
structure EndsChain (rest : List Char) : Prop extends EndsOperand rest where
  connective : connective? rest = none

/-- Nor do branches. -/
structure EndsExpr (rest : List Char) : Prop extends EndsChain rest where
  mark : mark? '?' rest = none

theorem EndsOperand.word (h : EndsOperand rest) : Stops isWordChar rest :=
  h.stops.mono fun c hc => by rw [hc, Bool.true_or]

/-- Where no mark of an access stands in front, nothing is accessed. -/
theorem access_of_unopened (hc : ∀ c ∈ (skip cs).head?, c ∉ ['.', '[', '(']) (fuel : Nat)
    (e : Expr) : access fuel e cs = none := by
  cases fuel with
  | zero => rw [access]
  | succ fuel =>
    rw [access]
    split
    · rename_i heq
      exact absurd (hc '.' (by rw [heq]; rfl)) (by decide)
    · rename_i heq
      exact absurd (hc '[' (by rw [heq]; rfl)) (by decide)
    · rename_i heq
      exact absurd (hc '(' (by rw [heq]; rfl)) (by decide)
    · rfl

theorem access_eq_none (h : Begins c) (hc : c ∉ ['.', '[', '(']) (fuel : Nat) (e : Expr)
    (rest : List Char) : access fuel e (c :: rest) = none :=
  access_of_unopened (forall_head_skip h hc rest) fuel e

theorem endsExpr_nil : EndsExpr [] where
  stops := stops_nil
  access fuel e := by
    cases fuel with
    | zero => rw [access]
    | succ fuel => rw [access, skip]
  connective := rfl
  mark := rfl

theorem endsChain_of_begins (h : Begins c) (hword : isWordChar c = false)
    (haccess : c ∉ ['.', '[', '(']) (hop : c ∉ connectiveStarts) (rest : List Char) :
    EndsChain (c :: rest) where
  stops := by
    rw [EndsNumber, stops_cons, hword, Bool.false_or, beq_eq_false_iff_ne]
    rintro rfl
    exact haccess (by decide)
  access fuel e := access_eq_none h haccess fuel e rest
  connective := connective?_eq_none h hop rest

theorem EndsChain.blank (h : EndsChain cs) : EndsChain (' ' :: cs) where
  stops := stops_cons.mpr (by decide)
  access fuel e := by rw [access_blank, h.access]
  connective := by rw [connective?_blank, h.connective]

theorem EndsExpr.blank (h : EndsExpr cs) : EndsExpr (' ' :: cs) where
  toEndsChain := h.toEndsChain.blank
  mark := by rw [mark?_blank, h.mark]

theorem endsChain_question (rest : List Char) : EndsChain ('?' :: rest) :=
  endsChain_of_begins (by decide) (by decide) (by decide) (by decide) rest

/-- An operator between operands ends the operand before it. -/
theorem endsOperand_symbol (op : Connective) (rest : List Char) :
    EndsOperand (' ' :: (op.symbol ++ ' ' :: rest)) where
  stops := stops_cons.mpr (by decide)
  access fuel e := by
    rw [access_blank]
    cases fuel with
    | zero => rw [access]
    | succ fuel =>
      rw [access, skip_symbol]
      rcases op with op | op <;> cases op <;> rfl

/-! ## 3. Closers -/

/-- The marks behind which nothing goes on: they close brackets or separate what stands in them. -/
def closers : List Char := [')', ']', '\x7d', ',', ':']

theorem endsExpr_closer (hc : c ∈ closers) (rest : List Char) : EndsExpr (c :: rest) := by
  have h : ∀ c ∈ closers, Begins c ∧ c ≠ '?' ∧ isWordChar c = false ∧ c ∉ ['.', '[', '('] ∧
      c ∉ connectiveStarts := by decide
  obtain ⟨hbegins, hquestion, hword, haccess, hop⟩ := h c hc
  exact ⟨endsChain_of_begins hbegins hword haccess hop rest, mark?_eq_none hbegins hquestion rest⟩

/-- An operand that opens no bracket is a word, a text or a number. -/
theorem primary_of_unopened (hc : ∀ c ∈ (skip cs).head?, c ∉ ['[', '\x7b', '(']) (fuel : Nat) :
    primary (fuel + 1) cs =
      match word? cs with
      | some (x, rest) =>
        if x = "function" then
          let (name, rest) :=
            match word? rest with
            | some (n, rest) => (some n, rest)
            | none => (none, rest)
          (functionRest fuel name rest).map fun (code, rest) => (.function code, rest)
        else (wordOperand? x).map fun e => (e, rest)
      | none =>
        match text? cs with
        | some (s, rest) => some (.literal (.string s), rest)
        | none => (number? cs).map fun (n, rest) => (.literal (.number n), rest) := by
  rw [primary]
  split
  · rename_i heq
    exact absurd (hc '[' (by rw [heq]; rfl)) (by decide)
  · rename_i heq
    exact absurd (hc '\x7b' (by rw [heq]; rfl)) (by decide)
  · rename_i heq
    exact absurd (hc '(' (by rw [heq]; rfl)) (by decide)
  · rfl

section

variable (hc : c ∈ closers) (fuel : Nat) (rest : List Char)

include hc

/-- A closer is no word, no text and no number. -/
theorem nothing_closer :
    word? (c :: rest) = none ∧ text? (c :: rest) = none ∧ number? (c :: rest) = none := by
  have h : ∀ c ∈ closers, Begins c ∧ isWordStart c = false ∧ (c ≠ '"' ∧ c ≠ '\x27') ∧
      Number.isDigit c = false ∧ c ≠ '.' := by decide
  obtain ⟨hbegins, hword, htext, hdigit, hpoint⟩ := h c hc
  exact ⟨word?_eq_none hbegins hword rest, text?_eq_none hbegins htext rest,
    number?_eq_none hbegins hdigit hpoint rest⟩

theorem primary_closer : primary fuel (c :: rest) = none := by
  have h : ∀ c ∈ closers, Begins c ∧ c ∉ ['[', '\x7b', '('] := by decide
  obtain ⟨hword, htext, hnumber⟩ := nothing_closer hc rest
  cases fuel with
  | zero => rw [primary]
  | succ fuel =>
    rw [primary_of_unopened (forall_head_skip (h c hc).1 (h c hc).2 rest), hword]
    dsimp only
    rw [htext]
    dsimp only
    rw [hnumber, Option.map_none]

theorem expr_closer : expr fuel (c :: rest) = none := by
  have h : ∀ c ∈ closers, Begins c ∧ c ∉ unaryStarts := by decide
  have hoperand : ∀ fuel, operand fuel (c :: rest) = none := by
    intro fuel
    cases fuel with
    | zero => rw [operand]
    | succ fuel =>
      rw [operand, unaryOp?_eq_none (h c hc).1 (h c hc).2]
      dsimp only
      rw [primary_closer hc]
      rfl
  have hchain : ∀ fuel, chain fuel (c :: rest) = none := by
    intro fuel
    cases fuel with
    | zero => rw [chain]
    | succ fuel => rw [chain, hoperand]; rfl
  cases fuel with
  | zero => rw [expr]
  | succ fuel => rw [expr, hchain]

theorem exprs_closer : exprs fuel (c :: rest) = none := by
  cases fuel with
  | zero => rw [exprs]
  | succ fuel => rw [exprs, expr_closer hc]; rfl

theorem fields_closer : fields fuel (c :: rest) = none := by
  obtain ⟨hword, htext, hnumber⟩ := nothing_closer hc rest
  have hvalue : ∀ fuel, fieldValue fuel (c :: rest) = none := by
    intro fuel
    cases fuel with
    | zero => rw [fieldValue]
    | succ fuel => rw [fieldValue, hword, htext, hnumber]; rfl
  have hfield : ∀ fuel, field fuel (c :: rest) = none := by
    intro fuel
    cases fuel with
    | zero => rw [field]
    | succ fuel => rw [field, hvalue, hword]; rfl
  cases fuel with
  | zero => rw [fields]
  | succ fuel => rw [fields, hfield]; rfl

end

/-! ## 4. Operands -/

/-- A word that begins no function. -/
theorem primary_word {x : String} (hx : IsWord x) (hfunction : x ≠ "function")
    (hrest : Stops isWordChar rest) :
    primary (fuel + 1) (x.toList ++ rest) = (wordOperand? x).map fun e => (e, rest) := by
  have hword := word?_word hx hrest
  obtain ⟨c, hc, hstart⟩ := hx.1
  obtain ⟨cs, hcs⟩ := List.head?_eq_some_iff.mp hc
  rw [hcs, List.cons_append] at hword ⊢
  have hbracket : c ∉ ['[', '\x7b', '('] := by
    simp only [List.mem_cons, List.not_mem_nil, or_false, not_or]
    exact ⟨ne_of_class hstart (by decide), ne_of_class hstart (by decide),
      ne_of_class hstart (by decide)⟩
  rw [primary_of_unopened (forall_head_skip (begins_of_isWordStart hstart) hbracket _), hword]
  dsimp only
  rw [if_neg hfunction]

theorem primary_text (s : String) (rest : List Char) :
    primary (fuel + 1) (quote s ++ rest) = some (.literal (.string s), rest) := by
  have hword := word?_quote s rest
  have htext := text?_quote s rest
  rw [quote, List.cons_append] at hword htext ⊢
  rw [primary_of_unopened (forall_head_skip (by decide) (by decide) _), hword]
  dsimp only
  rw [htext]

theorem primary_digits {ds : List Char} (h : AreDigits ds) (hrest : EndsNumber rest) :
    primary (fuel + 1) (ds ++ rest) = some (.literal (.number (digitsNumber ds)), rest) := by
  have hword := word?_digits h rest
  have htext := text?_digits h rest
  have hnumber := number?_digits h hrest
  obtain ⟨d, ds, rfl⟩ := List.exists_cons_of_ne_nil h.1
  have hdigit := h.2 d List.mem_cons_self
  have hbracket : d ∉ ['[', '\x7b', '('] := by
    simp only [List.mem_cons, List.not_mem_nil, or_false, not_or]
    exact ⟨ne_of_class hdigit (by decide), ne_of_class hdigit (by decide),
      ne_of_class hdigit (by decide)⟩
  rw [List.cons_append] at hword htext hnumber ⊢
  rw [primary_of_unopened (forall_head_skip (begins_of_isDigit hdigit) hbracket _), hword]
  dsimp only
  rw [htext]
  dsimp only
  rw [hnumber, Option.map_some]

end Trellis.Grammar
