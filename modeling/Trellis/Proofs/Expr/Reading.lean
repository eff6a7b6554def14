import Trellis.Proofs.Expr.Readers
import Trellis.Proofs.Expr.Spine

/-!
# What was written is read

A term that was written is read as its expression, whatever may stand behind it.
- `Reads` is said of a term as a whole, as an operand, in front of an access and as a row of
  operands; each of these follows from another one, which one depends on the form of the term,
- `reads` goes over the terms,
- `compileExpr_print`: a written term compiles, and it evaluates to what the term means.

Fuel is counted by what there is to read, eight steps for each character: two characters have at
most that many readers between them.
-/
namespace Trellis.Grammar

open Token Text

variable {fuel n : Nat} {e : Expr} {c : Char} {cs rest tail : List Char} {t front : Term}

/-! ## 1. Reading a term -/

/-- The term is read as an expression. -/
def ReadsExpr (t : Term) : Prop :=
  ∀ fuel rest, 8 * t.print.length + 8 ≤ fuel → EndsExpr rest →
    expr fuel (t.print ++ rest) = some (t.toExpr, rest)

/-- The term is read as an operand. -/
def ReadsOperand (t : Term) : Prop :=
  ∀ fuel rest, 8 * (t.guarded 7).length + 6 ≤ fuel → EndsOperand rest →
    operand fuel (t.guarded 7 ++ rest) = some (t.toExpr, rest)

/-- The term is read in front of accesses. It has accesses of its own, `n` of them, and each leaves
    one step less for those behind it. -/
def ReadsBase (t : Term) : Prop :=
  ∃ n ≤ (t.guarded 9).length, ∀ fuel rest, 8 * (t.guarded 9).length + 5 ≤ fuel →
    Stops isWordChar rest →
    operand (fuel + 1) (t.guarded 9 ++ rest) = accesses (fuel - n) t.toExpr rest

/-- The operands of the term are read. -/
def ReadsSpine (p : Nat) (t : Term) : Prop :=
  ReadsOperand (t.spine p).1 ∧ ∀ m ∈ (t.spine p).2, ReadsOperand m.2

/-- The term is read wherever it may stand. -/
structure Reads (t : Term) : Prop where
  expr : ReadsExpr t
  operand : ReadsOperand t
  base : ReadsBase t
  spine (p : Nat) : ReadsSpine p t

/-! ## 2. Operands and accesses -/

theorem operand_of_primary (hop : unaryOp? cs = none) (h : primary fuel cs = some (e, rest)) :
    operand (fuel + 1) cs = accesses fuel e rest := by
  rw [operand, hop]
  dsimp only
  rw [h]
  rfl

theorem accesses_end (h : EndsOperand rest) (hfuel : 1 ≤ fuel) :
    accesses fuel e rest = some (e, rest) := by
  obtain ⟨fuel, rfl⟩ := Nat.exists_eq_add_of_le' hfuel
  rw [accesses, h.access]

/-- An operand that is read at once. -/
theorem readsBase_of_primary (hop : ∀ rest, unaryOp? (t.guarded 9 ++ rest) = none)
    (h : ∀ fuel rest, 8 * (t.guarded 9).length ≤ fuel → Stops isWordChar rest →
      primary (fuel + 1) (t.guarded 9 ++ rest) = some (t.toExpr, rest)) : ReadsBase t := by
  refine ⟨0, Nat.zero_le _, fun fuel rest hfuel hrest => ?_⟩
  obtain ⟨fuel, rfl⟩ := Nat.exists_eq_add_of_le' (show 1 ≤ fuel by omega)
  exact operand_of_primary (hop rest) (h fuel rest (by omega) hrest)

/-- What stands alike as an operand and in front of an access, in parentheses or without. -/
theorem ReadsBase.operand (h : ReadsBase t) (ht : t.level < 7 ∨ 9 ≤ t.level) : ReadsOperand t := by
  obtain ⟨n, hn, h⟩ := h
  have hsame : t.guarded 7 = t.guarded 9 := by
    rcases ht with ht | ht
    · rw [Term.guarded_of_lt ht, Term.guarded_of_lt (by omega)]
    · rw [Term.guarded_of_le (by omega), Term.guarded_of_le ht]
  intro fuel rest hfuel hrest
  rw [hsame] at hfuel ⊢
  obtain ⟨fuel, rfl⟩ := Nat.exists_eq_add_of_le' (show 1 ≤ fuel by omega)
  rw [h fuel rest (by omega) hrest.word, accesses_end hrest (by omega)]

theorem primary_parens (h : expr fuel cs = some (e, ')' :: rest)) :
    primary (fuel + 1) ('(' :: cs) = some (e, rest) := by
  rw [primary, skip_of_begins (by decide)]
  simp only [h, Option.bind_eq_bind, Option.bind_some, mark?_self (c := ')') (by decide)]

/-- A term in parentheses. -/
theorem ReadsExpr.base (h : ReadsExpr t) (ht : t.level < 9) : ReadsBase t := by
  have hguarded := Term.guarded_of_lt ht
  apply readsBase_of_primary
  · intro rest
    rw [hguarded, List.cons_append, unaryOp?_eq_none (by decide) (by decide)]
  · intro fuel rest hfuel _
    rw [hguarded] at hfuel ⊢
    rw [List.length_cons, List.length_append, List.length_singleton] at hfuel
    rw [List.cons_append, List.append_assoc, List.singleton_append]
    exact primary_parens (h fuel _ (by omega) (endsExpr_closer (by decide) rest))

/-! ## 3. Rows of operands -/

/-- A term that is the only operand of its row. -/
theorem ReadsOperand.spine {p : Nat} (h : ReadsOperand t) (ht : t.spine p = (t, [])) :
    ReadsSpine p t := by
  rw [ReadsSpine, ht]
  exact ⟨h, fun m hm => absurd hm List.not_mem_nil⟩

/-- Behind an operand stands the rest of its row. -/
theorem endsOperand_printOperands (ms : List (Connective × Term)) (h : EndsChain rest) :
    EndsOperand (Term.printOperands ms ++ rest) := by
  cases ms with
  | nil => exact h.toEndsOperand
  | cons m ms =>
    rw [Term.printOperands_cons, List.cons_append, List.append_assoc, List.cons_append]
    exact endsOperand_symbol m.1 _

theorem moreOperands_print {ms : List (Connective × Term)} (hms : ∀ m ∈ ms, ReadsOperand m.2)
    (fuel : Nat) (rest : List Char) (hfuel : 8 * (Term.printOperands ms).length + 1 ≤ fuel)
    (hrest : EndsChain rest) :
    moreOperands fuel (Term.printOperands ms ++ rest) = some (Term.operandExprs ms, rest) := by
  induction ms generalizing fuel with
  | nil =>
    obtain ⟨fuel, rfl⟩ := Nat.exists_eq_add_of_le' hfuel
    have hnone : connected fuel rest = none := by
      cases fuel with
      | zero => rw [connected]
      | succ fuel => rw [connected, hrest.connective]; rfl
    show moreOperands (fuel + 1) rest = _
    rw [moreOperands, hnone]
    rfl
  | cons m ms ih =>
    obtain ⟨op, t⟩ := m
    rw [Term.printOperands_cons] at hfuel ⊢
    simp only [List.length_cons, List.length_append] at hfuel
    obtain ⟨fuel, rfl⟩ := Nat.exists_eq_add_of_le' (show 2 ≤ fuel by omega)
    have ht : ReadsOperand t := hms (op, t) List.mem_cons_self
    have hoperand := ht fuel _ (by omega) (endsOperand_printOperands ms hrest)
    have hmore := ih (fun m hm => hms m (.tail _ hm)) (fuel + 1) (by omega)
    rw [List.cons_append, List.append_assoc, List.cons_append, List.append_assoc, moreOperands,
      connected, connective?_symbol]
    simp only [Option.bind_eq_bind, Option.bind_some, operand_blank, hoperand, hmore]
    rfl

/-- Operands with operators between them are joined to the term. -/
theorem ReadsSpine.chain (h : ReadsSpine 1 t) (fuel : Nat) (rest : List Char)
    (hfuel : 8 * (t.guarded 1).length + 7 ≤ fuel) (hrest : EndsChain rest) :
    chain fuel (t.guarded 1 ++ rest) = some (t.toExpr, rest) := by
  have hguarded := Term.guarded_spine t 1 (by decide) (by decide)
  have hlength : (t.guarded 1).length =
      ((t.spine 1).1.guarded 7).length + (Term.printOperands (t.spine 1).2).length := by
    rw [hguarded, List.length_append]
  obtain ⟨fuel, rfl⟩ := Nat.exists_eq_add_of_le' (show 1 ≤ fuel by omega)
  rw [Grammar.chain, hguarded, List.append_assoc,
    h.1 fuel _ (by omega) (endsOperand_printOperands _ hrest)]
  simp only [Option.bind_eq_bind, Option.bind_some]
  rw [moreOperands_print h.2 fuel rest (by omega) hrest, Option.bind_some, Term.assemble_spine]

theorem ReadsSpine.expr (h : ReadsSpine 1 t) (ht : 1 ≤ t.level) : ReadsExpr t := by
  intro fuel rest hfuel hrest
  rw [← Term.guarded_of_le ht] at hfuel ⊢
  obtain ⟨fuel, rfl⟩ := Nat.exists_eq_add_of_le' (show 1 ≤ fuel by omega)
  rw [Grammar.expr, h.chain fuel rest (by omega) hrest.toEndsChain]
  dsimp only
  cases fuel with
  | zero => rw [branches]
  | succ fuel =>
    rw [branches, hrest.mark]
    rfl

/-! ## 4. Lists of terms -/

section

variable {ts : List Term} (hts : ∀ t ∈ ts, ReadsExpr t) (hc : c ∈ closers)

include hc

/-- Behind a term stands a comma or what closes the list. -/
theorem endsExpr_printMore (ts : List Term) (rest : List Char) :
    EndsExpr (Term.printMore ts ++ c :: rest) := by
  cases ts with
  | nil => exact endsExpr_closer hc rest
  | cons => exact endsExpr_closer (by decide) _

include hts

theorem moreExprs_print (hcomma : c ≠ ',') (fuel : Nat) (rest : List Char)
    (hfuel : 8 * (Term.printMore ts).length + 1 ≤ fuel) :
    moreExprs fuel (Term.printMore ts ++ c :: rest) = some (Term.toExprs ts, c :: rest) := by
  induction ts generalizing fuel with
  | nil =>
    have hbegins : ∀ c ∈ closers, Begins c := by decide
    obtain ⟨fuel, rfl⟩ := Nat.exists_eq_add_of_le' (show 1 ≤ fuel by omega)
    rw [Term.printMore, List.nil_append, moreExprs, mark?_eq_none (hbegins c hc) hcomma]
    rfl
  | cons t ts ih =>
    have ht : ReadsExpr t := hts t List.mem_cons_self
    rw [Term.printMore] at hfuel ⊢
    simp only [List.length_cons, List.length_append] at hfuel
    obtain ⟨fuel, rfl⟩ := Nat.exists_eq_add_of_le' (show 1 ≤ fuel by omega)
    have hexpr := ht fuel _ (by omega) (endsExpr_printMore hc ts rest)
    have hmore := ih (fun t ht => hts t (.tail _ ht)) fuel (by omega)
    rw [List.cons_append, List.cons_append, List.append_assoc, moreExprs, mark?_self (by decide),
      Option.bind_some, expr_blank, hexpr]
    dsimp only
    rw [hmore]
    rfl

/-- Terms with commas between them are read up to what closes the list. -/
theorem exprs_print {t : Term} (ht : ReadsExpr t) (hcomma : c ≠ ',') (fuel : Nat)
    (rest : List Char) (hfuel : 8 * (Term.printAll (t :: ts)).length + 9 ≤ fuel) :
    exprs fuel (Term.printAll (t :: ts) ++ c :: rest) =
      some (Term.toExprs (t :: ts), c :: rest) := by
  rw [Term.printAll] at hfuel ⊢
  rw [List.length_append] at hfuel
  obtain ⟨fuel, rfl⟩ := Nat.exists_eq_add_of_le' (show 1 ≤ fuel by omega)
  have hexpr := ht fuel _ (by omega) (endsExpr_printMore hc ts rest)
  have hmore := moreExprs_print hts hc hcomma fuel rest (by omega)
  rw [List.append_assoc, exprs, hexpr]
  simp only [Option.bind_eq_bind, Option.bind_some, hmore]
  rfl

omit hc

theorem primary_array (hfuel : 8 * (Term.printAll ts).length + 9 ≤ fuel) :
    primary (fuel + 1) ('[' :: (Term.printAll ts ++ ']' :: rest)) =
      some (.array (Term.toExprs ts), rest) := by
  have hcloser : ']' ∈ closers := by decide
  have hclose := mark?_self (c := ']') (by decide) rest
  have hcomma := mark?_eq_none (c := ']') (m := ',') (by decide) (by decide) rest
  rw [primary, skip_of_begins (by decide)]
  cases ts with
  | nil => simp [Term.printAll, exprs_closer hcloser, hclose, Term.toExprs]
  | cons t ts =>
    have hexprs := exprs_print (fun t ht => hts t (.tail _ ht)) hcloser (hts t List.mem_cons_self)
      (by decide) fuel rest hfuel
    simp [hexprs, optionalComma, hcomma, hclose]

theorem access_call (hfuel : 8 * (Term.printAll ts).length + 9 ≤ fuel) (e : Expr) :
    access (fuel + 1) e ('(' :: (Term.printAll ts ++ ')' :: rest)) =
      some (.call e (Term.toExprs ts), rest) := by
  have hcloser : ')' ∈ closers := by decide
  have hclose := mark?_self (c := ')') (by decide) rest
  rw [access, skip_of_begins (by decide)]
  cases ts with
  | nil => simp [Term.printAll, exprs_closer hcloser, hclose, Term.toExprs]
  | cons t ts =>
    have hexprs := exprs_print (fun t ht => hts t (.tail _ ht)) hcloser (hts t List.mem_cons_self)
      (by decide) fuel rest hfuel
    simp [hexprs, hclose]

end

/-! ## 5. Lists of fields -/

theorem field_print {k : FieldKey} (hk : k.Fits) (ht : ReadsExpr t) (fuel : Nat)
    (rest : List Char) (hfuel : 8 * t.print.length + 8 ≤ fuel) (hrest : EndsExpr rest) :
    field (fuel + 2) (k.print ++ ':' :: ' ' :: (t.print ++ rest)) =
      some ((k.name, t.toExpr), rest) := by
  have hexpr := ht fuel rest hfuel hrest
  have hmark := mark?_self (c := ':') (by decide) (' ' :: (t.print ++ rest))
  have hnumber : EndsNumber (':' :: ' ' :: (t.print ++ rest)) := stops_cons.mpr (by decide)
  have hword : Stops isWordChar (':' :: ' ' :: (t.print ++ rest)) := stops_cons.mpr (by decide)
  rw [field, fieldValue]
  cases k with
  | word x => simp [FieldKey.print, word?_word hk hword, hmark, expr_blank, hexpr, FieldKey.name]
  | text s => simp [FieldKey.print, word?_quote, text?_quote, hmark, expr_blank, hexpr, FieldKey.name]
  | digits ds =>
    simp [FieldKey.print, word?_digits hk, text?_digits hk, number?_digits hk hnumber, hmark,
      expr_blank, hexpr, FieldKey.name]

section

variable {fs : List (FieldKey × Term)} (hfs : ∀ k t, (k, t) ∈ fs → k.Fits ∧ ReadsExpr t)

/-- Behind a field stands a comma or what closes the list. -/
theorem endsExpr_printMoreFields (fs : List (FieldKey × Term)) (rest : List Char) :
    EndsExpr (Term.printMoreFields fs ++ '\x7d' :: rest) := by
  cases fs with
  | nil => exact endsExpr_closer (by decide) rest
  | cons => exact endsExpr_closer (by decide) _

include hfs

theorem moreFields_print (fuel : Nat) (rest : List Char)
    (hfuel : 8 * (Term.printMoreFields fs).length + 1 ≤ fuel) :
    moreFields fuel (Term.printMoreFields fs ++ '\x7d' :: rest) =
      some (Term.toFields fs, '\x7d' :: rest) := by
  induction fs generalizing fuel with
  | nil =>
    obtain ⟨fuel, rfl⟩ := Nat.exists_eq_add_of_le' (show 1 ≤ fuel by omega)
    rw [Term.printMoreFields, List.nil_append, moreFields, mark?_eq_none (by decide) (by decide)]
    rfl
  | cons f fs ih =>
    obtain ⟨k, t⟩ := f
    obtain ⟨hk, ht⟩ := hfs k t List.mem_cons_self
    rw [Term.printMoreFields] at hfuel ⊢
    simp only [List.length_cons, List.length_append] at hfuel
    obtain ⟨fuel, rfl⟩ := Nat.exists_eq_add_of_le' (show 3 ≤ fuel by omega)
    have hfield := field_print hk ht fuel _ (by omega) (endsExpr_printMoreFields fs rest)
    have hmore := ih (fun k t h => hfs k t (.tail _ h)) (fuel + 2) (by omega)
    simp only [List.cons_append, List.append_assoc]
    rw [moreFields, mark?_self (by decide), Option.bind_some, field_blank, hfield]
    dsimp only
    rw [hmore]
    rfl

/-- Fields with commas between them are read up to the closing brace. -/
theorem fields_print {k : FieldKey} (hk : k.Fits) (ht : ReadsExpr t) (fuel : Nat)
    (rest : List Char) (hfuel : 8 * (Term.printFields ((k, t) :: fs)).length + 9 ≤ fuel) :
    fields fuel (Term.printFields ((k, t) :: fs) ++ '\x7d' :: rest) =
      some (Term.toFields ((k, t) :: fs), '\x7d' :: rest) := by
  rw [Term.printFields] at hfuel ⊢
  simp only [List.length_cons, List.length_append] at hfuel
  obtain ⟨fuel, rfl⟩ := Nat.exists_eq_add_of_le' (show 3 ≤ fuel by omega)
  have hfield := field_print hk ht fuel _ (by omega) (endsExpr_printMoreFields fs rest)
  have hmore := moreFields_print hfs (fuel + 2) rest (by omega)
  simp only [List.cons_append, List.append_assoc]
  rw [fields, hfield]
  simp only [Option.bind_eq_bind, Option.bind_some, hmore]
  rfl

theorem primary_object (hfuel : 8 * (Term.printFields fs).length + 9 ≤ fuel) :
    primary (fuel + 1) ('\x7b' :: (Term.printFields fs ++ '\x7d' :: rest)) =
      some (.object (Term.toFields fs), rest) := by
  have hcloser : '\x7d' ∈ closers := by decide
  have hclose := mark?_self (c := '\x7d') (by decide) rest
  have hcomma := mark?_eq_none (c := '\x7d') (m := ',') (by decide) (by decide) rest
  rw [primary, skip_of_begins (by decide)]
  cases fs with
  | nil => simp [Term.printFields, fields_closer hcloser, hclose, Term.toFields]
  | cons f fs =>
    obtain ⟨k, t⟩ := f
    obtain ⟨hk, ht⟩ := hfs k t List.mem_cons_self
    have hfields := fields_print (fun k t h => hfs k t (.tail _ h)) hk ht fuel rest hfuel
    simp [hfields, optionalComma, hcomma, hclose]

end

/-! ## 6. The forms of a term -/

/-- What stands in front of an access is read everywhere. -/
theorem ReadsBase.reads (h : ReadsBase t) (ht : 9 ≤ t.level) : Reads t := by
  have hoperand := h.operand (.inr ht)
  have hspine := fun p => hoperand.spine (Term.spine_of_level (.inr (by omega)) p)
  exact ⟨(hspine 1).expr (by omega), hoperand, h, hspine⟩

/-- So is an operand that stands in parentheses in front of an access. -/
theorem ReadsOperand.reads (h : ReadsOperand t) (ht : t.level = 7 ∨ t.level = 8) : Reads t := by
  have hspine := fun p => h.spine (Term.spine_of_level (.inr (by omega)) p)
  have hexpr := (hspine 1).expr (by omega)
  exact ⟨hexpr, h, hexpr.base (by omega), hspine⟩

/-- So is what stands in parentheses as an operand. -/
theorem ReadsExpr.reads (h : ReadsExpr t) (ht : t.level = 0) : Reads t := by
  have hbase := h.base (by omega)
  have hoperand := hbase.operand (.inl (by omega))
  exact ⟨h, hoperand, hbase, fun p => hoperand.spine (Term.spine_of_level (.inl ht) p)⟩

/-- An operator between two terms. -/
theorem reads_connected {op : Connective} {left right : Term} (hleft : Reads left)
    (hright : Reads right) : Reads (.connected op left right) := by
  obtain ⟨hpos, hle⟩ := Term.row_bounds op
  have hlevel : (Term.connected op left right).level = op.row := by rw [Term.level]
  have hrow : ∀ p ≤ op.row, ReadsSpine p (.connected op left right) := by
    intro p hp
    obtain ⟨hl, hls⟩ := hleft.spine op.row
    obtain ⟨hr, hrs⟩ := hright.spine (op.row + 1)
    rw [ReadsSpine, Term.spine, if_neg (by omega)]
    refine ⟨hl, fun m hm => ?_⟩
    rcases List.mem_append.mp hm with hm | hm
    · exact hls m hm
    · rcases List.mem_cons.mp hm with rfl | hm
      · exact hr
      · exact hrs m hm
  have hexpr := (hrow 1 hpos).expr (by omega)
  have hbase := hexpr.base (by omega)
  have hoperand := hbase.operand (.inl (by omega))
  refine ⟨hexpr, hoperand, hbase, fun p => ?_⟩
  by_cases hp : p ≤ op.row
  · exact hrow p hp
  · exact hoperand.spine (by rw [Term.spine, if_pos (by omega)])

/-- An operator in front of a term. -/
theorem reads_unary {op : UnaryOp} {operand : Term} (h : Reads operand) :
    Reads (.unary op operand) := by
  have hlevel : (Term.unary op operand).level = 7 := by rw [Term.level]
  refine ReadsOperand.reads (fun fuel rest hfuel hrest => ?_) (.inl hlevel)
  rw [Term.guarded_of_le (by omega), Term.print_unary] at hfuel ⊢
  rw [List.length_cons] at hfuel
  obtain ⟨fuel, rfl⟩ := Nat.exists_eq_add_of_le' (show 1 ≤ fuel by omega)
  rw [List.cons_append, Grammar.operand, unaryOp?_symbol]
  dsimp only
  rw [h.operand fuel rest (by omega) hrest]
  rfl

theorem reads_number {ds : List Char} (h : AreDigits ds) : Reads (.number ds) := by
  have hlevel : (Term.number ds).level = 8 := by rw [Term.level]
  refine ReadsOperand.reads (fun fuel rest hfuel hrest => ?_) (.inr hlevel)
  rw [Term.guarded_of_le (by omega), Term.print] at hfuel ⊢
  obtain ⟨fuel, rfl⟩ := Nat.exists_eq_add_of_le' (show 3 ≤ fuel by omega)
  rw [operand_of_primary (unaryOp?_digits h rest) (primary_digits h hrest.stops),
    accesses_end hrest (by omega), Term.toExpr]

/-- An operand that is read at once. -/
theorem reads_of_primary (ht : 9 ≤ t.level) (hop : ∀ rest, unaryOp? (t.print ++ rest) = none)
    (h : ∀ fuel rest, 8 * t.print.length ≤ fuel → Stops isWordChar rest →
      primary (fuel + 1) (t.print ++ rest) = some (t.toExpr, rest)) : Reads t := by
  rw [← Term.guarded_of_le ht] at hop h
  exact (readsBase_of_primary hop h).reads ht

theorem reads_word {x : String} (hx : IsWord x) (hfunction : x ≠ "function")
    (ht : t.print = x.toList) (hlevel : 9 ≤ t.level) (h : wordOperand? x = some t.toExpr) :
    Reads t := by
  refine reads_of_primary hlevel (fun rest => ?_) fun fuel rest _ hrest => ?_
  · rw [ht, unaryOp?_word hx]
  · rw [ht, primary_word hx hfunction hrest, h, Option.map_some]

theorem reads_name {x : String} (hx : IsWord x) (hreserved : x ∉ reserved) : Reads (.name x) := by
  have hmem := hreserved
  simp only [reserved, List.mem_cons, List.not_mem_nil, or_false, not_or] at hmem
  refine reads_word hx hmem.2.2.2.2.1 (by rw [Term.print]) (Nat.le_refl 9) ?_
  rw [wordOperand?, if_neg hmem.1, if_neg hmem.2.1, if_neg hmem.2.2.1, if_neg hmem.2.2.2.1, if_neg]
  · rw [Term.toExpr]
  · rw [List.contains_iff_mem]
    exact hreserved

theorem reads_text (s : String) : Reads (.text s) := by
  refine reads_of_primary (Nat.le_refl 9) (fun rest => ?_) fun fuel rest _ _ => ?_
  · rw [Term.print, quote, List.cons_append, unaryOp?_eq_none (by decide) (by decide)]
  · rw [Term.print, primary_text, Term.toExpr]

theorem reads_array {ts : List Term} (hts : ∀ t ∈ ts, ReadsExpr t) : Reads (.array ts) := by
  refine reads_of_primary (Nat.le_refl 9) (fun rest => ?_) fun fuel rest hfuel _ => ?_
  · rw [Term.print, List.cons_append, unaryOp?_eq_none (by decide) (by decide)]
  · rw [Term.print, List.length_cons, List.length_append, List.length_singleton] at hfuel
    rw [Term.print, List.cons_append, List.append_assoc, List.singleton_append,
      primary_array hts (by omega), Term.toExpr]

theorem reads_object {fs : List (FieldKey × Term)}
    (hfs : ∀ k t, (k, t) ∈ fs → k.Fits ∧ ReadsExpr t) : Reads (.object fs) := by
  refine reads_of_primary (Nat.le_refl 9) (fun rest => ?_) fun fuel rest hfuel _ => ?_
  · rw [Term.print, List.cons_append, unaryOp?_eq_none (by decide) (by decide)]
  · rw [Term.print, List.length_cons, List.length_append, List.length_singleton] at hfuel
    rw [Term.print, List.cons_append, List.append_assoc, List.singleton_append,
      primary_object hfs (by omega), Term.toExpr]

/-- One access more. -/
theorem reads_of_access (ht : 9 ≤ t.level) (hprint : t.print = front.guarded 9 ++ c :: tail)
    (hc : isWordChar c = false)
    (haccess : ∀ fuel rest, 8 * (tail.length + 1) ≤ fuel + 1 → Stops isWordChar rest →
      access (fuel + 1) front.toExpr (c :: (tail ++ rest)) = some (t.toExpr, rest))
    (h : Reads front) : Reads t := by
  obtain ⟨n, hn, hfront⟩ := h.base
  rw [← Term.guarded_of_le ht] at hprint
  have hlength : (t.guarded 9).length = (front.guarded 9).length + (tail.length + 1) := by
    rw [hprint, List.length_append, List.length_cons]
  refine ReadsBase.reads ⟨n + 1, by omega, fun fuel rest hfuel hrest => ?_⟩ ht
  obtain ⟨k, hk⟩ : ∃ k, fuel - n = k + 1 + 1 := ⟨fuel - n - 2, by omega⟩
  have hk' : fuel - (n + 1) = k + 1 := by omega
  rw [hprint, List.append_assoc, List.cons_append, hfront fuel _ (by omega) (stops_cons.mpr hc), hk,
    hk', accesses, haccess k rest (by omega) hrest]

theorem reads_member {field : String} (hfield : IsWord field) (h : Reads front) :
    Reads (.member front field) := by
  refine reads_of_access (Nat.le_refl 9) (Term.print_member front field) (by decide)
    (fun fuel rest _ hrest => ?_) h
  rw [access, skip_of_begins (by decide)]
  simp only [word?_word hfield hrest, Option.bind_eq_bind, Option.bind_some]
  rw [Term.toExpr]

theorem reads_index {key : Term} (hkey : ReadsExpr key) (h : Reads front) :
    Reads (.index front key) := by
  refine reads_of_access (Nat.le_refl 9) (Term.print_index front key) (by decide)
    (fun fuel rest hfuel _ => ?_) h
  rw [List.length_append, List.length_singleton] at hfuel
  have hexpr := hkey fuel (']' :: rest) (by omega) (endsExpr_closer (by decide) rest)
  rw [List.append_assoc, List.singleton_append, access, skip_of_begins (by decide)]
  simp only [hexpr, mark?_self (c := ']') (by decide), Option.bind_eq_bind, Option.bind_some]
  rw [Term.toExpr]

theorem reads_call {args : List Term} (hargs : ∀ t ∈ args, ReadsExpr t) (h : Reads front) :
    Reads (.call front args) := by
  refine reads_of_access (Nat.le_refl 9) (Term.print_call front args) (by decide)
    (fun fuel rest hfuel _ => ?_) h
  rw [List.length_append, List.length_singleton] at hfuel
  rw [List.append_assoc, List.singleton_append, access_call hargs (by omega), Term.toExpr]

/-- A condition. -/
theorem reads_conditional {test yes no : Term} (htest : Reads test) (hyes : Reads yes)
    (hno : Reads no) : Reads (.conditional test yes no) := by
  refine ReadsExpr.reads (fun fuel rest hfuel hrest => ?_) (by rw [Term.level])
  rw [Term.print_conditional] at hfuel ⊢
  simp only [List.length_append, List.length_cons] at hfuel
  obtain ⟨fuel, rfl⟩ := Nat.exists_eq_add_of_le' (show 2 ≤ fuel by omega)
  have hchain := (htest.spine 1).chain (fuel + 1) _ (by omega)
    (endsChain_question (' ' :: (yes.print ++ (' ' :: ':' :: ' ' :: (no.print ++ rest))))).blank
  have hfirst := hyes.expr fuel (' ' :: ':' :: ' ' :: (no.print ++ rest)) (by omega)
    (endsExpr_closer (by decide) _).blank
  have hsecond := hno.expr fuel rest (by omega) hrest
  simp only [List.append_assoc, List.cons_append]
  rw [Grammar.expr, hchain]
  dsimp only
  rw [branches, mark?_blank, mark?_self (by decide)]
  simp only [Option.bind_eq_bind, Option.bind_some, expr_blank, hfirst, mark?_blank,
    mark?_self (c := ':') (by decide), hsecond]
  rw [Term.toExpr]

/-! ## 7. All terms -/

mutual

/-- **Every term that may be written is read, wherever it may stand.** -/
theorem reads : ∀ t : Term, t.Fits → Reads t
  | .name _, h => reads_name h.1 h.2
  | .text s, _ => reads_text s
  | .bool true, _ =>
    reads_word (x := "true") (by decide) (by decide) rfl (Nat.le_refl 9) rfl
  | .bool false, _ =>
    reads_word (x := "false") (by decide) (by decide) rfl (Nat.le_refl 9) rfl
  | .null, _ => reads_word (x := "null") (by decide) (by decide) rfl (Nat.le_refl 9) rfl
  | .undefined, _ =>
    reads_word (x := "undefined") (by decide) (by decide) rfl (Nat.le_refl 9) rfl
  | .number _, h => reads_number h
  | .array items, h => reads_array (readsAll items h)
  | .object fields, h => reads_object (readsFields fields h)
  | .member front _, h => reads_member h.2 (reads front h.1)
  | .index front key, h => reads_index (reads key h.2).expr (reads front h.1)
  | .call callee args, h => reads_call (readsAll args h.2) (reads callee h.1)
  | .unary _ operand, h => reads_unary (reads operand h)
  | .connected _ left right, h => reads_connected (reads left h.1) (reads right h.2)
  | .conditional test yes no, h =>
    reads_conditional (reads test h.1) (reads yes h.2.1) (reads no h.2.2)

theorem readsAll : ∀ ts : List Term, Term.FitAll ts → ∀ t ∈ ts, ReadsExpr t
  | [], _ => nofun
  | t :: ts, h => List.forall_mem_cons.mpr ⟨(reads t h.1).expr, readsAll ts h.2⟩

theorem readsFields : ∀ fs : List (FieldKey × Term), Term.FitFields fs →
    ∀ k t, (k, t) ∈ fs → k.Fits ∧ ReadsExpr t
  | [], _ => nofun
  | (k, t) :: fs, h => by
    have ht := (reads t h.2.1).expr
    have hfs := readsFields fs h.2.2
    intro k' t' hmem
    rcases List.mem_cons.mp hmem with heq | hmem
    · obtain ⟨rfl, rfl⟩ := Prod.mk.inj heq
      exact ⟨h.1, ht⟩
    · exact hfs k' t' hmem

end

/-! ## 8. Compiling -/

/-- A written term is a whole source, and there is fuel for all of it. -/
theorem parseExpr?_print (h : t.Fits) : parseExpr? (String.ofList t.print) = some t.toExpr := by
  have hexpr := (reads t h).expr (fuelFor t.print) [] (by rw [fuelFor]; omega) endsExpr_nil
  rw [List.append_nil] at hexpr
  rw [parseExpr?, String.toList_ofList, hexpr]
  rfl

end Trellis.Grammar

namespace Trellis.Term

open Token

/-- **A written term compiles, and in every scope it evaluates to what the term means.** -/
theorem compileExpr_print {t : Term} (h : t.Fits) :
    ∃ e, compileExpr (String.ofList t.print) = .ok e ∧
      ∀ scope place m, e.eval callFunction scope place m = (t.value scope m place, m) := by
  refine ⟨t.toExpr, ?_, fun scope place m => eval_toExpr scope m t place⟩
  rw [compileExpr, Grammar.parseExpr?_print h]

/-- A condition on a product one side of which is a sum. -/
def sumInProduct : Term :=
  .conditional
    (.connected (.value .mul) (.connected (.value .add) (.name "a") (.number ['1']))
      (.index (.member (.name "b") "c") (.number ['0'])))
    (.unary .not (.call (.name "f") [.text "q\""])) .null

theorem compileExpr_sumInProduct :
    sumInProduct.Fits ∧
      ∃ e, compileExpr "(a + 1) * b.c[0] ? !f(\"q\\\"\") : null" = .ok e ∧
        ∀ scope place m, e.eval callFunction scope place m = (sumInProduct.value scope m place, m) := by
  have hone : AreDigits ['1'] := by decide
  have hzero : AreDigits ['0'] := by decide
  have hfits : sumInProduct.Fits :=
    ⟨⟨⟨⟨by decide, by decide⟩, hone⟩, ⟨⟨by decide, by decide⟩, by decide⟩, hzero⟩,
      ⟨⟨by decide, by decide⟩, trivial, trivial⟩, trivial⟩
  have hprint : String.ofList sumInProduct.print = "(a + 1) * b.c[0] ? !f(\"q\\\"\") : null" := by
    decide +kernel
  rw [← hprint]
  exact ⟨hfits, compileExpr_print hfits⟩

end Trellis.Term
