import Trellis.Proofs.Expr.Term

/-!
# Tokens as they are written

What a reader of tokens makes of a token that was written, whatever stands behind it.
- Words and numbers end where the class of their characters does,
- a quoted text ends at its own quote, and its escapes stand for what was quoted
  (`text?_quote`),
- an operator is read in whole, the space behind it keeps it from being another one
  (`connective?_symbol`).
-/
namespace Trellis.Token

open Text

variable {c : Char} {cs rest : List Char}

/-! ## 1. Blanks -/

/-- A character with which a token may begin: no blank, and no stroke, which could open a comment. -/
def Begins (c : Char) : Prop := c ≠ '/' ∧ isBlank c = false

instance (c : Char) : Decidable (Begins c) := inferInstanceAs (Decidable (_ ∧ _))

theorem skip_blank (cs : List Char) : skip (' ' :: cs) = skip cs := by
  rw [skip]
  · rfl
  all_goals simp

theorem skip_of_begins (h : Begins c) (cs : List Char) : skip (c :: cs) = c :: cs := by
  obtain ⟨hc, hblank⟩ := h
  rw [skip]
  · rw [hblank]
    rfl
  all_goals
    intro _ h
    cases h
    exact absurd rfl hc

/-- What is true of the first character of a token is true of what `skip` leaves in front. -/
theorem forall_head_skip {p : Char → Prop} (h : Begins c) (hc : p c) (cs : List Char) :
    ∀ d ∈ (skip (c :: cs)).head?, p d := by
  rw [skip_of_begins h]
  simpa using hc

/-- A token may begin with the characters of a class that has no blanks and no stroke. -/
theorem begins_of_class {p : Char → Bool} (hc : p c = true)
    (hp : p '/' = false ∧ p ' ' = false ∧ p '\t' = false ∧ p '\r' = false ∧ p '\n' = false) :
    Begins c := by
  obtain ⟨hslash, hspace, htab, hreturn, hfeed⟩ := hp
  refine ⟨ne_of_class hc hslash, ?_⟩
  simp [isBlank, ne_of_class hc hspace, ne_of_class hc htab, ne_of_class hc hreturn,
    ne_of_class hc hfeed]

theorem begins_of_isWordStart (h : isWordStart c = true) : Begins c :=
  begins_of_class h (by decide)

theorem begins_of_isDigit (h : Number.isDigit c = true) : Begins c :=
  begins_of_class h (by decide)

/-! ## 2. Marks and words -/

theorem mark?_self (h : Begins c) (rest : List Char) : mark? c (c :: rest) = some rest := by
  rw [mark?, skip_of_begins h]
  exact if_pos rfl

theorem mark?_eq_none {m : Char} (h : Begins c) (hm : c ≠ m) (rest : List Char) :
    mark? m (c :: rest) = none := by
  rw [mark?, skip_of_begins h]
  exact if_neg hm

theorem mark?_blank (m : Char) (rest : List Char) : mark? m (' ' :: rest) = mark? m rest := by
  rw [mark?, skip_blank, mark?]

theorem word?_blank (rest : List Char) : word? (' ' :: rest) = word? rest := by
  rw [word?, skip_blank, word?]

theorem word?_word {x : String} (hx : IsWord x) (hrest : Stops isWordChar rest) :
    word? (x.toList ++ rest) = some (x, rest) := by
  obtain ⟨⟨c, hc, hstart⟩, hall⟩ := hx
  obtain ⟨cs, hcs⟩ := List.head?_eq_some_iff.mp hc
  have hmore : ∀ d ∈ cs, isWordChar d = true := fun d hd => hall d (by rw [hcs]; exact .tail c hd)
  rw [hcs, List.cons_append, word?, skip_of_begins (begins_of_isWordStart hstart)]
  dsimp only
  rw [if_pos hstart, takeWhile_run hmore hrest, dropWhile_run hmore hrest, ← hcs, String.ofList_toList]

theorem word?_eq_none (h : Begins c) (hstart : isWordStart c = false) (rest : List Char) :
    word? (c :: rest) = none := by
  rw [word?, skip_of_begins h]
  dsimp only
  rw [if_neg (by rw [hstart]; exact Bool.false_ne_true)]

/-! ## 3. Numbers -/

/-- A number ends here: no digit, point or exponent goes on with it. -/
def EndsNumber (rest : List Char) : Prop := Stops (fun c => isWordChar c || c == '.') rest

section

variable (h : Number.isDigit c = true)

include h

/-- Letters come behind the digits. -/
theorem lt_of_isDigit {d : Char} (hd : '9'.val < d.val) : ¬ d.val ≤ c.val := by
  rw [Number.isDigit, Bool.and_eq_true, decide_eq_true_iff, decide_eq_true_iff] at h
  intro hle
  exact absurd (UInt32.lt_of_lt_of_le hd (UInt32.le_trans hle h.2)) (UInt32.lt_irrefl _)

theorem toLower_of_isDigit : c.toLower = c :=
  dif_neg fun hupper => lt_of_isDigit h (by decide) hupper.1

theorem isWordStart_of_isDigit : isWordStart c = false := by
  have hupper : c.isUpper = false :=
    decide_eq_false_iff_not.mpr fun hupper => lt_of_isDigit h (by decide) hupper.1
  have hlower : c.isLower = false :=
    Bool.and_eq_false_iff.mpr (.inl (decide_eq_false_iff_not.mpr (lt_of_isDigit h (by decide))))
  have halpha : c.isAlpha = false := Bool.or_eq_false_iff.mpr ⟨hupper, hlower⟩
  have hmark : c ≠ '_' ∧ c ≠ '$' := ⟨ne_of_class h (by decide), ne_of_class h (by decide)⟩
  simp [isWordStart, halpha, hmark]

end

/-- A run of digits is no word for a special value. -/
theorem special?_digits {ds : List Char} (h : AreDigits ds) (negative : Bool) :
    Number.special? negative ds = none := by
  obtain ⟨d, ds, rfl⟩ := List.exists_cons_of_ne_nil h.1
  have hdigit := h.2 d List.mem_cons_self
  have hname : ∀ (e : Char) (es : List Char), Number.isDigit e = false →
      String.ofList ((d :: ds).map Char.toLower) ≠ String.ofList (e :: es) := by
    intro e es he heq
    rw [List.map_cons, toLower_of_isDigit hdigit, String.ofList_inj] at heq
    exact ne_of_class hdigit he (List.cons.inj heq).1
  unfold Number.special?
  dsimp only
  rw [if_neg, if_neg]
  · exact hname 'n' ['a', 'n'] (by decide)
  · rintro (heq | heq)
    · exact hname 'i' ['n', 'f'] (by decide) heq
    · exact hname 'i' ['n', 'f', 'i', 'n', 'i', 't', 'y'] (by decide) heq

/-- **Digits are read as the number that they write.** -/
theorem parse?_digits {ds : List Char} (h : AreDigits ds) :
    Number.parse? ds = some (digitsNumber ds) := by
  have hsign : Number.takeSign ds = (false, ds) := by
    obtain ⟨d, ds, rfl⟩ := List.exists_cons_of_ne_nil h.1
    have hdigit := h.2 d List.mem_cons_self
    unfold Number.takeSign
    split
    · rename_i heq
      cases heq
      exact absurd hdigit (by decide)
    · rename_i heq
      cases heq
      exact absurd hdigit (by decide)
    · rfl
  have htake := takeWhile_run h.2 stops_nil
  have hdrop := dropWhile_run h.2 stops_nil
  rw [List.append_nil] at htake hdrop
  have hsome : ds.isEmpty = false := List.isEmpty_eq_false_iff.mpr h.1
  rw [Number.parse?, hsign]
  dsimp only
  rw [special?_digits h, Number.unsigned?, htake, hdrop]
  simp [hsome, Number.exponent?, digitsNumber]

theorem exponentPart_end (h : EndsNumber rest) : exponentPart rest = ([], rest) := by
  cases rest with
  | nil => rfl
  | cons c rest =>
    have hc := stops_cons.mp h
    unfold exponentPart
    dsimp only
    rw [if_neg]
    rintro (rfl | rfl)
    · exact absurd hc (by decide)
    · exact absurd hc (by decide)

theorem numberText?_digits {ds : List Char} (h : AreDigits ds) (hrest : EndsNumber rest) :
    numberText? (ds ++ rest) = some (ds, rest) := by
  have hdigits : Stops Number.isDigit rest := hrest.mono fun c hc => by simp [isWordChar, hc]
  have hskip : skip (ds ++ rest) = ds ++ rest := by
    obtain ⟨d, ds, rfl⟩ := List.exists_cons_of_ne_nil h.1
    exact skip_of_begins (begins_of_isDigit (h.2 d List.mem_cons_self)) _
  have hsome : ds.isEmpty = false := List.isEmpty_eq_false_iff.mpr h.1
  unfold numberText?
  dsimp only
  rw [hskip, takeWhile_run h.2 hdigits, dropWhile_run h.2 hdigits]
  split
  · rename_i more
    exact absurd (stops_cons.mp hrest) (by decide)
  · simp [hsome, exponentPart_end hrest]

theorem number?_digits {ds : List Char} (h : AreDigits ds) (hrest : EndsNumber rest) :
    number? (ds ++ rest) = some (digitsNumber ds, rest) := by
  rw [number?, numberText?_digits h hrest, Option.map_some]
  dsimp only
  rw [parse?_digits h, Option.getD_some]

theorem number?_blank (rest : List Char) : number? (' ' :: rest) = number? rest := by
  rw [number?, numberText?, skip_blank, number?, numberText?]

theorem number?_eq_none (h : Begins c) (hdigit : Number.isDigit c = false) (hpoint : c ≠ '.')
    (rest : List Char) : number? (c :: rest) = none := by
  rw [number?, numberText?, skip_of_begins h]
  dsimp only
  rw [List.takeWhile_cons, List.dropWhile_cons, hdigit]
  simp [hpoint]

/-! ## 4. Texts -/

theorem rawText?_cons {quote : Char} (hq : c ≠ quote) (hc : c ≠ '\\') (rest : List Char) :
    rawText? quote (c :: rest) = (rawText? quote rest).map fun (t, rest) => (c :: t, rest) := by
  cases rest <;> simp [rawText?, hq, hc]

theorem rawText?_escape (e : Char) (rest : List Char) :
    rawText? '"' ('\\' :: e :: rest) =
      (rawText? '"' rest).map fun (t, rest) => ('\\' :: e :: t, rest) := by
  simp [rawText?]

theorem rawText?_quote (s : List Char) (rest : List Char) :
    rawText? '"' (s.flatMap quoteChar ++ '"' :: rest) = some (s.flatMap quoteChar, rest) := by
  induction s with
  | nil => cases rest <;> simp [rawText?]
  | cons c s ih =>
    rw [List.flatMap_cons, quoteChar, List.append_assoc]
    split
    · rw [List.cons_append, List.singleton_append, rawText?_escape, ih]
      rfl
    · rename_i hc
      rw [List.singleton_append, rawText?_cons (fun h => hc (.inl h)) fun h => hc (.inr h), ih]
      rfl

theorem unescape_quote (s : List Char) : unescape (s.flatMap quoteChar) = s := by
  induction s with
  | nil => rfl
  | cons c s ih =>
    rw [List.flatMap_cons, quoteChar]
    split
    · rename_i hc
      rcases hc with rfl | rfl
      · rw [List.cons_append, List.cons_append, List.nil_append, unescape, if_pos rfl, unescapeOne,
          if_neg (by decide), ih]
        rfl
      · rw [List.cons_append, List.cons_append, List.nil_append, unescape, if_pos rfl, unescapeOne,
          if_neg (by decide), ih]
        rfl
    · rename_i hc
      rw [List.cons_append, List.nil_append, unescape, if_neg (fun h => hc (.inr h)), ih]

/-- **A quoted text is read as the text.** -/
theorem text?_quote (s : String) (rest : List Char) : text? (quote s ++ rest) = some (s, rest) := by
  rw [text?, quote, List.cons_append, skip_of_begins (by decide)]
  dsimp only
  rw [if_pos (.inl rfl), List.append_assoc, List.singleton_append, rawText?_quote, Option.map_some,
    unescape_quote, String.ofList_toList]

theorem text?_blank (rest : List Char) : text? (' ' :: rest) = text? rest := by
  rw [text?, skip_blank, text?]

theorem text?_eq_none (h : Begins c) (hc : c ≠ '"' ∧ c ≠ '\x27') (rest : List Char) :
    text? (c :: rest) = none := by
  rw [text?, skip_of_begins h]
  dsimp only
  rw [if_neg (by simpa using hc)]

/-! ## 5. One token is no other one -/

theorem word?_quote (s : String) (rest : List Char) : word? (quote s ++ rest) = none := by
  rw [quote, List.cons_append]
  exact word?_eq_none (by decide) (by decide) _

theorem word?_digits {ds : List Char} (h : AreDigits ds) (rest : List Char) :
    word? (ds ++ rest) = none := by
  obtain ⟨d, ds, rfl⟩ := List.exists_cons_of_ne_nil h.1
  have hdigit := h.2 d List.mem_cons_self
  exact word?_eq_none (begins_of_isDigit hdigit) (isWordStart_of_isDigit hdigit) _

theorem text?_digits {ds : List Char} (h : AreDigits ds) (rest : List Char) :
    text? (ds ++ rest) = none := by
  obtain ⟨d, ds, rfl⟩ := List.exists_cons_of_ne_nil h.1
  have hdigit := h.2 d List.mem_cons_self
  exact text?_eq_none (begins_of_isDigit hdigit)
    ⟨ne_of_class hdigit (by decide), ne_of_class hdigit (by decide)⟩ _

/-! ## 6. Operators -/

/-- The characters of an operator in front of its operand. -/
def unaryStarts : List Char := ['!', '-', '+']

theorem unaryOp?_symbol (op : UnaryOp) (rest : List Char) :
    unaryOp? (op.symbol :: rest) = some (op, rest) := by
  cases op <;> rfl

theorem unaryOp?_blank (rest : List Char) : unaryOp? (' ' :: rest) = unaryOp? rest := by
  rw [unaryOp?, skip_blank, unaryOp?]

theorem unaryOp?_eq_none (h : Begins c) (hc : c ∉ unaryStarts) (rest : List Char) :
    unaryOp? (c :: rest) = none := by
  simp only [unaryStarts, List.mem_cons, List.not_mem_nil, or_false, not_or] at hc
  rw [unaryOp?, skip_of_begins h]
  simp [hc]

theorem unaryOp?_class {p : Char → Bool} (hc : p c = true) (h : Begins c)
    (hp : ∀ d ∈ unaryStarts, p d = false) (rest : List Char) : unaryOp? (c :: rest) = none :=
  unaryOp?_eq_none h (fun hmem => absurd hc (by rw [hp c hmem]; exact Bool.false_ne_true)) rest

theorem unaryOp?_word {x : String} (hx : IsWord x) (rest : List Char) :
    unaryOp? (x.toList ++ rest) = none := by
  obtain ⟨c, hc, hstart⟩ := hx.1
  obtain ⟨cs, hcs⟩ := List.head?_eq_some_iff.mp hc
  rw [hcs]
  exact unaryOp?_class hstart (begins_of_isWordStart hstart) (by decide) _

theorem unaryOp?_digits {ds : List Char} (h : AreDigits ds) (rest : List Char) :
    unaryOp? (ds ++ rest) = none := by
  obtain ⟨d, ds, rfl⟩ := List.exists_cons_of_ne_nil h.1
  have hdigit := h.2 d List.mem_cons_self
  exact unaryOp?_class hdigit (begins_of_isDigit hdigit) (by decide) _

theorem skip_symbol (op : Connective) (rest : List Char) :
    skip (op.symbol ++ ' ' :: rest) = op.symbol ++ ' ' :: rest := by
  rcases op with op | op <;> cases op <;> rfl

/-- **An operator between operands is read in whole.** -/
theorem connective?_symbol (op : Connective) (rest : List Char) :
    connective? (' ' :: (op.symbol ++ ' ' :: rest)) = some (op, ' ' :: rest) := by
  rw [connective?, skip_blank, skip_symbol]
  rcases op with op | op <;> cases op <;> rfl

theorem connective?_blank (rest : List Char) : connective? (' ' :: rest) = connective? rest := by
  rw [connective?, skip_blank, connective?]

/-- The characters with which an operator between operands begins. -/
def connectiveStarts : List Char := ['|', '&', '=', '!', '<', '>', '+', '-', '*', '/', '%']

theorem connective?_eq_none (h : Begins c) (hc : c ∉ connectiveStarts) (rest : List Char) :
    connective? (c :: rest) = none := by
  simp only [connectiveStarts, List.mem_cons, List.not_mem_nil, or_false, not_or] at hc
  rw [connective?, skip_of_begins h]
  simp [hc]

end Trellis.Token
