import Trellis.Proofs.Expr.LikeReaders

/-!
# Expressions in squeezed sources

A text is squeezed before its regions are compiled: every run of blanks in it becomes one space. Between
the tokens of an expression this changes nothing, but texts are squeezed, too, and a comment that ends
with its line goes on to the end of the source, so that of the source only the front counts (`kept`).

A source that is an expression is made of gaps, texts and single characters (`Laid`, `laid_of_parse`). So
the squeezed source is the expression that `kept` of it is, with its texts squeezed
(`parseExpr?_oneSpace`).
-/

namespace Trellis

open Text (oneSpace)

namespace Token

variable {c : Char} {cs ds rest l t : List Char}

/-! ## 1. Sources made of gaps, texts and characters -/

/-- A source without double quotes and backslashes, cut into blanks, comments, texts and characters that
    stand for themselves. A comment that ends with its line is the last thing that is looked at. -/
inductive Laid : List Char → Prop
  | nil : Laid []
  | blank {c : Char} {cs : List Char} (hc : isBlank c = true) (h : Laid cs) : Laid (c :: cs)
  | line (cs : List Char) : Laid ('/' :: '/' :: cs)
  | block {l cs : List Char} (hl : ¬ commentEnd <:+: l ++ ['*']) (h : Laid cs) :
    Laid ('/' :: '*' :: (l ++ commentEnd ++ cs))
  | text {t cs : List Char} (ht : '\x27' ∉ t) (h : Laid cs) : Laid ('\x27' :: (t ++ '\x27' :: cs))
  | slash {cs : List Char} (hcs : ∀ c ∈ cs.head?, c ≠ '/' ∧ c ≠ '*') (h : Laid cs) : Laid ('/' :: cs)
  | plain {c : Char} {cs : List Char} (hc : Plain c) (h : Laid cs) : Laid (c :: cs)

/-- Gaps may be added in front. -/
theorem laid_of_skip (h : Laid (skip cs)) : Laid cs := by
  induction cs using skip_induction with
  | stays cs hcs => rwa [hcs] at h
  | gap l rest hgap ih =>
    rw [hgap.skip_eq] at h
    cases hgap with
    | blank hc => exact .blank hc (ih h)
    | line hl hrest => exact .line _
    | block hl => exact .block hl (ih h)

/-- No double quote and no backslash. -/
def Unescaped (cs : List Char) : Prop := ∀ c ∈ cs, c ≠ '"' ∧ c ≠ '\\'

theorem Unescaped.of_suffix (h : Unescaped cs) (hds : ds <:+ cs) : Unescaped ds :=
  fun c hc => h c (hds.subset hc)

/-- Without escapes a text ends with the next quote. -/
theorem rawText?_eq_some_iff {quote : Char} (h : Unescaped cs) :
    rawText? quote cs = some (t, rest) ↔ cs = t ++ quote :: rest ∧ quote ∉ t := by
  induction cs generalizing t with
  | nil => simp [rawText?]
  | cons c cs ih =>
    obtain ⟨hc, hcs⟩ := List.forall_mem_cons.mp h
    by_cases hquote : c = quote
    · have hraw : rawText? quote (c :: cs) = some ([], cs) := by
        cases cs <;> rw [rawText?, if_pos hquote]
      rw [hraw]
      constructor
      · rintro heq
        cases heq
        exact ⟨by rw [hquote, List.nil_append], List.not_mem_nil⟩
      · rintro ⟨heq, ht⟩
        cases t with
        | nil => rw [(List.cons.inj heq).2]
        | cons d t =>
          have hd : c = d := (List.cons.inj heq).1
          exact absurd (hd ▸ hquote ▸ List.mem_cons_self) ht
    · rw [rawText?_cons hquote hc.2]
      constructor
      · intro heq
        obtain ⟨⟨t', rest'⟩, ht', heq⟩ := Option.map_eq_some_iff.mp heq
        cases heq
        obtain ⟨rfl, ht⟩ := (ih hcs).mp ht'
        exact ⟨rfl, List.not_mem_cons_of_ne_of_not_mem (Ne.symm hquote) ht⟩
      · rintro ⟨heq, ht⟩
        cases t with
        | nil => exact absurd (List.cons.inj heq).1 hquote
        | cons d t =>
          obtain ⟨rfl, rfl⟩ := List.cons.inj heq
          rw [(ih hcs).mpr ⟨rfl, fun hmem => ht (List.mem_cons_of_mem c hmem)⟩]
          rfl

theorem unescape_eq_self (h : Unescaped cs) : unescape cs = cs := by
  induction cs with
  | nil => rfl
  | cons c cs ih =>
    obtain ⟨hc, hcs⟩ := List.forall_mem_cons.mp h
    rw [unescape, if_neg hc.2, ih hcs]

theorem text?_of_quote (hcs : skip cs = '\x27' :: (t ++ '\x27' :: rest)) (ht : '\x27' ∉ t)
    (h : Unescaped (t ++ '\x27' :: rest)) : text? cs = some (String.ofList t, rest) := by
  have htext : Unescaped t := fun c hc => h c (List.mem_append_left _ hc)
  rw [text?, hcs]
  dsimp only
  rw [if_pos (.inr rfl), (rawText?_eq_some_iff h).mpr ⟨rfl, ht⟩, Option.map_some, unescape_eq_self htext]

theorem text?_of_unquoted (h : ∀ c ∈ (skip cs).head?, c ≠ '"' ∧ c ≠ '\x27') : text? cs = none := by
  rw [text?]
  split
  · rename_i c more hcs
    obtain ⟨hdouble, hsingle⟩ := h c (by rw [hcs]; rfl)
    exact if_neg (not_or.mpr ⟨hdouble, hsingle⟩)
  · rfl

/-! ## 2. Expressions are laid out -/

/-- A source and itself, in front of which the whole source is laid out if the rest is. -/
def Ahead (whole cs ds : List Char) : Prop :=
  cs = ds ∧ Unescaped cs ∧ (Laid cs → Laid whole)

theorem Ahead.of_suffix {whole : List Char} (h : Ahead whole cs ds) (hrest : rest <:+ cs)
    (hlaid : Laid rest → Laid cs) : Ahead whole rest rest :=
  ⟨rfl, h.2.1.of_suffix hrest, fun hr => h.2.2 (hlaid hr)⟩

theorem Ahead.skip {whole : List Char} (h : Ahead whole cs ds) :
    Ahead whole (skip cs) (skip cs) :=
  h.of_suffix (skip_suffix cs) laid_of_skip

theorem ahead_likens (whole : List Char) : Likens (Ahead whole) id where
  skip h := by
    obtain rfl := h.1
    exact h.skip
  ends h := by rw [h.1]
  keeps _ _ := rfl
  front {cs ds} h := by
    obtain rfl := h.1
    rcases cs with _ | ⟨c, x⟩
    · exact .inr ⟨nofun, nofun⟩
    · by_cases hc : Plain c
      · exact .inl ⟨c, x, x, hc, rfl, rfl, h.of_suffix (List.suffix_cons c x) (.plain hc)⟩
      · refine .inr ⟨?_, ?_⟩ <;> simpa using hc
  slash {cs ds} h := by
    obtain rfl := h.1
    rcases hmark : mark? '/' cs with _ | x
    · exact .none
    · have hskip : Token.skip cs = '/' :: x := by
        rw [mark?_eq] at hmark
        exact Text.after?_eq_some hmark
      have hrest := h.skip
      rw [hskip] at hrest
      by_cases hstar : x.head? = some '*'
      · exact .some (.inr ⟨hstar, hstar⟩)
      · refine .some (.inl (hrest.of_suffix (List.suffix_cons _ x) (.slash fun c hc => ⟨?_, ?_⟩)))
        · rintro rfl
          obtain ⟨x, rfl⟩ := List.head?_eq_some_iff.mp hc
          exact skip_ne_line cs x hskip
        · rintro rfl
          exact hstar hc
  text {cs ds} h := by
    obtain rfl := h.1
    rcases htext : text? cs with _ | ⟨s, x⟩
    · exact .none
    · refine .some ⟨rfl, ?_⟩
      rw [text?] at htext
      split at htext
      · rename_i c more hskip
        have hrest := h.skip
        rw [hskip] at hrest
        obtain ⟨hc, hmore⟩ := List.forall_mem_cons.mp hrest.2.1
        split at htext
        · rename_i hquote
          obtain rfl := hquote.resolve_left hc.1
          obtain ⟨⟨t, x'⟩, hraw, heq⟩ := Option.map_eq_some_iff.mp htext
          cases heq
          obtain ⟨rfl, ht⟩ := (rawText?_eq_some_iff hmore).mp hraw
          exact hrest.of_suffix ⟨'\x27' :: (t ++ ['\x27']), by simp⟩ (.text ht)
        · cases htext
      · cases htext

/-! ## 3. What counts of a source -/

mutual

/-- A source up to the end of the first line that ends in a comment. -/
def kept : List Char → List Char
  | '/' :: '/' :: rest => '/' :: '/' :: rest.takeWhile (!endsLine ·)
  | '/' :: '*' :: rest => '/' :: '*' :: keptComment rest
  | '\x27' :: rest => '\x27' :: keptText rest
  | c :: rest => c :: kept rest
  | [] => []

/-- The same inside of a comment that ends with its mark. -/
def keptComment : List Char → List Char
  | '*' :: '/' :: rest => '*' :: '/' :: kept rest
  | c :: rest => c :: keptComment rest
  | [] => []

/-- The same inside of a text. -/
def keptText : List Char → List Char
  | '\x27' :: rest => '\x27' :: kept rest
  | c :: rest => c :: keptText rest
  | [] => []

end

theorem isBlank_of_blank (hc : isBlank c = true) : Text.isBlank c = true := by
  rw [isBlank, Bool.or_eq_true, Bool.or_eq_true, Bool.or_eq_true, beq_iff_eq, beq_iff_eq, beq_iff_eq,
    beq_iff_eq] at hc
  rcases hc with ((rfl | rfl) | rfl) | rfl <;> rfl

theorem kept_cons (hslash : c ≠ '/') (hquote : c ≠ '\x27') (cs : List Char) :
    kept (c :: cs) = c :: kept cs := by
  rw [kept]
  · rintro _ rfl
    exact absurd rfl hslash
  · rintro _ rfl
    exact absurd rfl hslash
  · exact hquote

theorem kept_cons_of_blank (hc : Text.isBlank c = true) (cs : List Char) :
    kept (c :: cs) = c :: kept cs := by
  apply kept_cons
  all_goals
    rintro rfl
    cases hc

theorem kept_slash (h : ∀ c ∈ cs.head?, c ≠ '/' ∧ c ≠ '*') : kept ('/' :: cs) = '/' :: kept cs := by
  rw [kept]
  · rintro rest - rfl
    exact (h '/' rfl).1 rfl
  · rintro rest - rfl
    exact (h '*' rfl).2 rfl
  · nofun

theorem keptText_eq (ht : '\x27' ∉ t) : keptText (t ++ '\x27' :: cs) = t ++ '\x27' :: kept cs := by
  induction t with
  | nil => rw [List.nil_append, keptText, List.nil_append]
  | cons c t ih =>
    rw [List.mem_cons, not_or] at ht
    rw [List.cons_append, keptText, ih ht.2, List.cons_append]
    exact Ne.symm ht.1

theorem keptComment_eq (hl : ¬ commentEnd <:+: l ++ ['*']) :
    keptComment (l ++ commentEnd ++ cs) = l ++ commentEnd ++ kept cs := by
  induction l with
  | nil => rw [List.nil_append, commentEnd, List.cons_append, List.cons_append, keptComment]; rfl
  | cons c l ih =>
    obtain ⟨hl, hfirst⟩ := not_commentEnd_cons hl cs
    rw [List.cons_append, List.cons_append, keptComment, ih hl]
    · rfl
    · rintro rest rfl hrest
      exact hfirst ⟨rest, by rw [hrest]; rfl⟩

/-- Nothing is put in place of what does not count. -/
theorem kept_prefix (h : Laid cs) : kept cs <+: cs := by
  induction h with
  | nil => exact List.prefix_refl _
  | blank hc _ ih =>
    rw [kept_cons_of_blank (isBlank_of_blank hc)]
    exact List.cons_prefix_cons.mpr ⟨rfl, ih⟩
  | line cs =>
    rw [kept]
    exact List.cons_prefix_cons.mpr ⟨rfl, List.cons_prefix_cons.mpr ⟨rfl, List.takeWhile_prefix _⟩⟩
  | block hl _ ih =>
    rw [kept, keptComment_eq hl]
    exact List.cons_prefix_cons.mpr
      ⟨rfl, List.cons_prefix_cons.mpr ⟨rfl, (List.prefix_append_right_inj _).mpr ih⟩⟩
  | text ht _ ih =>
    rw [kept, keptText_eq ht]
    exact List.cons_prefix_cons.mpr
      ⟨rfl, (List.prefix_append_right_inj _).mpr (List.cons_prefix_cons.mpr ⟨rfl, ih⟩)⟩
  | slash hcs _ ih =>
    rw [kept_slash hcs]
    exact List.cons_prefix_cons.mpr ⟨rfl, ih⟩
  | plain hc _ ih =>
    rw [kept_cons hc.1 hc.2.1]
    exact List.cons_prefix_cons.mpr ⟨rfl, ih⟩

theorem head?_kept (cs : List Char) : (kept cs).head? = cs.head? := by
  rw [kept.eq_def]
  split <;> rfl

/-- A blank source counts as a whole. -/
theorem kept_of_blank (h : ∀ c ∈ cs, Text.isBlank c = true) : kept cs = cs := by
  induction cs with
  | nil => rfl
  | cons c cs ih =>
    obtain ⟨hc, hcs⟩ := List.forall_mem_cons.mp h
    rw [kept_cons_of_blank hc, ih hcs]

/-- What counts of a source is blank when the source is. -/
theorem blank_kept_iff :
    (∀ c ∈ kept cs, Text.isBlank c = true) ↔ ∀ c ∈ cs, Text.isBlank c = true := by
  refine ⟨fun h => ?_, fun h => by rwa [kept_of_blank h]⟩
  induction cs with
  | nil => exact List.forall_mem_nil _
  | cons c cs ih =>
    have hc := h c (List.mem_of_mem_head? (by rw [head?_kept]; rfl))
    rw [kept_cons_of_blank hc] at h
    exact List.forall_mem_cons.mpr ⟨hc, ih (List.forall_mem_cons.mp h).2⟩

/-! ## 4. Squeezed sources -/

/-- A comment that ends with the source. -/
theorem skip_lastLine (hl : ∀ c ∈ l, endsLine c = false) : skip ('/' :: '/' :: l) = [] := by
  have hgap : Gap [] ('/' :: '/' :: l) := .line hl nofun
  rw [← List.append_nil ('/' :: '/' :: l), hgap.skip_eq]
  rfl

theorem not_blank_of_not_isBlank (hc : Text.isBlank c = false) : isBlank c = false :=
  Bool.eq_false_iff.mpr fun h => by
    rw [isBlank_of_blank h] at hc
    cases hc

theorem Plain.begins (h : Plain c) : Begins c := ⟨h.1, not_blank_of_not_isBlank h.2.2.2⟩

theorem begins_quote : Begins '\x27' := ⟨by decide, rfl⟩

/-- **Gaps in what counts of a source and in the squeezed source** are passed over alike. -/
theorem exists_skip (h : Laid cs) : ∃ u, Laid u ∧ u <:+ cs ∧ skip u = u ∧
    skip (kept cs) = kept u ∧ skip (oneSpace cs) = oneSpace u := by
  induction h with
  | nil => exact ⟨[], .nil, List.suffix_refl _, rfl, rfl, rfl⟩
  | @blank c cs hc _ ih =>
    obtain ⟨u, hu, hsuffix, hstays, hkept, hspace⟩ := ih
    refine ⟨u, hu, hsuffix.trans (List.suffix_cons c cs), hstays, ?_, ?_⟩
    · rw [kept_cons_of_blank (isBlank_of_blank hc), skip_of_blank hc, hkept]
    · rw [oneSpace, if_pos (isBlank_of_blank hc)]
      split
      · exact hspace
      · rw [skip_of_blank rfl, hspace]
  | line cs =>
    refine ⟨[], .nil, List.nil_suffix, rfl, ?_, ?_⟩
    · rw [kept, kept]
      refine skip_lastLine fun c hc => ?_
      simpa using List.mem_takeWhile_imp hc
    · refine skip_lastLine fun c hc => ?_
      rcases Text.mem_oneSpace hc with rfl | ⟨hc, -⟩
      · rfl
      · exact Bool.eq_false_iff.mpr fun hend =>
          Text.ne_of_class (isBlank_of_endsLine hend) (not_blank_of_not_isBlank hc) rfl
  | @block l cs hl _ ih =>
    obtain ⟨u, hu, hsuffix, hstays, hkept, hspace⟩ := ih
    refine ⟨u, hu, hsuffix.trans ⟨'/' :: '*' :: (l ++ commentEnd), by simp⟩, hstays, ?_, ?_⟩
    · have hgap : Gap (kept cs) ('/' :: '*' :: (l ++ commentEnd)) := .block hl
      rw [kept, keptComment_eq hl, ← hkept, ← hgap.skip_eq]
      rfl
    · have hsqueezed : oneSpace ('/' :: '*' :: (l ++ commentEnd ++ cs)) =
          '/' :: '*' :: (oneSpace l ++ commentEnd) ++ oneSpace cs := by
        have hend : oneSpace (commentEnd ++ cs) = commentEnd ++ oneSpace cs := rfl
        have hstops : Text.Stops Text.isBlank (commentEnd ++ cs) := Text.stops_cons.mpr rfl
        rw [List.append_assoc, Text.oneSpace_cons_of_not_blank rfl,
          Text.oneSpace_cons_of_not_blank rfl, Text.oneSpace_append l hstops, hend]
        simp
      have hgap : Gap (oneSpace cs) ('/' :: '*' :: (oneSpace l ++ commentEnd)) := by
        refine .block fun hmark => hl ?_
        have hstops : Text.Stops Text.isBlank ['*'] := Text.stops_cons.mpr rfl
        have hstar : oneSpace l ++ ['*'] = oneSpace (l ++ ['*']) := (Text.oneSpace_append l hstops).symm
        rw [hstar] at hmark
        exact Text.pair_of_oneSpace rfl rfl hmark
      rw [hsqueezed, hgap.skip_eq, hspace]
  | @text t cs ht h =>
    refine ⟨_, .text ht h, List.suffix_refl _, skip_of_begins begins_quote _, ?_, ?_⟩
    · rw [kept, skip_of_begins begins_quote]
    · rw [Text.oneSpace_cons_of_not_blank rfl, skip_of_begins begins_quote]
  | @slash cs hcs h =>
    refine ⟨_, .slash hcs h, List.suffix_refl _, skip_slash hcs, ?_, ?_⟩
    · rw [kept_slash hcs, skip_slash (by rwa [head?_kept])]
    · rw [Text.oneSpace_cons_of_not_blank rfl, skip_slash]
      refine fun c hc => ⟨?_, ?_⟩
      · rintro rfl
        exact (hcs '/' (Text.head?_oneSpace rfl hc)).1 rfl
      · rintro rfl
        exact (hcs '*' (Text.head?_oneSpace rfl hc)).2 rfl
  | @plain c cs hc h =>
    refine ⟨_, .plain hc h, List.suffix_refl _, skip_of_begins hc.begins _, ?_, ?_⟩
    · rw [kept_cons hc.1 hc.2.1, skip_of_begins hc.begins]
    · rw [Text.oneSpace_cons_of_not_blank hc.2.2.2, skip_of_begins hc.begins]

/-- What counts of a source, and the source squeezed. -/
def SqueezesTo (cs ds : List Char) : Prop :=
  ∃ u, Laid u ∧ Unescaped u ∧ cs = kept u ∧ ds = oneSpace u

/-- What is in front of a source that begins with no gap. -/
theorem laid_front (h : Laid cs) (hstays : skip cs = cs) : cs = [] ∨
    (∃ t rest, cs = '\x27' :: (t ++ '\x27' :: rest) ∧ '\x27' ∉ t ∧ Laid rest) ∨
    (∃ rest, cs = '/' :: rest ∧ (∀ c ∈ rest.head?, c ≠ '/' ∧ c ≠ '*') ∧ Laid rest) ∨
    ∃ c rest, cs = c :: rest ∧ Plain c ∧ Laid rest := by
  cases h with
  | nil => exact .inl rfl
  | blank hc h => exact absurd hstays (Gap.skip_ne (.blank hc))
  | line cs => exact absurd hstays (skip_ne_line _ cs)
  | @block l cs hl h =>
    have hgap : Gap cs ('/' :: '*' :: (l ++ commentEnd)) := .block hl
    exact absurd hstays hgap.skip_ne
  | text ht h => exact .inr (.inl ⟨_, _, rfl, ht, h⟩)
  | slash hcs h => exact .inr (.inr (.inl ⟨_, rfl, hcs, h⟩))
  | plain hc h => exact .inr (.inr (.inr ⟨_, _, rfl, hc, h⟩))

theorem Laid.behind_plain (h : Laid (c :: cs)) (hc : Plain c) : Laid cs := by
  rcases laid_front h (skip_of_begins hc.begins cs) with hnil | ⟨t, rest, heq, -, -⟩ |
    ⟨rest, heq, -, -⟩ | ⟨d, rest, heq, -, hrest⟩
  · cases hnil
  · exact absurd (List.cons.inj heq).1 hc.2.1
  · exact absurd (List.cons.inj heq).1 hc.1
  · exact (List.cons.inj heq).2 ▸ hrest

/-- A text with every run of blanks as one space. -/
def squeezeText (s : String) : String := String.ofList (oneSpace s.toList)

theorem unescaped_oneSpace (h : Unescaped cs) : Unescaped (oneSpace cs) := by
  intro c hc
  rcases Text.mem_oneSpace hc with rfl | ⟨-, hc⟩
  · decide
  · exact h c hc

/-- A stroke that divides, in both sources or in none. -/
theorem slash_squeezed (h : Laid cs) (hcs : Unescaped cs) :
    Option.Rel (Behind SqueezesTo) (mark? '/' (kept cs)) (mark? '/' (oneSpace cs)) := by
  obtain ⟨u, hu, hsuffix, hstays, hkept, hspace⟩ := exists_skip h
  rw [mark?_eq, mark?_eq, hkept, hspace]
  rcases laid_front hu hstays with rfl | ⟨t, rest, rfl, -, -⟩ | ⟨rest, rfl, hrest, hr⟩ |
    ⟨c, rest, rfl, hc, -⟩
  · exact .none
  · rw [kept, Text.oneSpace_cons_of_not_blank rfl]
    exact .none
  · have hr' := hcs.of_suffix ((List.suffix_cons _ _).trans hsuffix)
    rw [kept_slash hrest, Text.oneSpace_cons_of_not_blank rfl]
    exact .some (.inl ⟨rest, hr, hr', rfl, rfl⟩)
  · rw [kept_cons hc.1 hc.2.1, Text.oneSpace_cons_of_not_blank hc.2.2.2, Text.after?,
      if_neg (Ne.symm hc.1), Text.after?, if_neg (Ne.symm hc.1)]
    exact .none

/-- Where no quote is in front, there is no text in either source. -/
theorem text?_squeezed_of_unquoted {u : List Char} (hkept : skip (kept cs) = kept u)
    (hspace : skip (oneSpace cs) = oneSpace u) (h : ∀ c ∈ u.head?, c ≠ '"' ∧ c ≠ '\x27') :
    text? (kept cs) = none ∧ text? (oneSpace cs) = none := by
  refine ⟨text?_of_unquoted ?_, text?_of_unquoted ?_⟩
  · rwa [hkept, head?_kept]
  · rw [hspace]
    refine fun c hc => ⟨?_, ?_⟩
    · rintro rfl
      exact (h '"' (Text.head?_oneSpace rfl hc)).1 rfl
    · rintro rfl
      exact (h '\x27' (Text.head?_oneSpace rfl hc)).2 rfl

/-- **A text at the front of a source** is squeezed in the squeezed source, and whole in what counts. -/
theorem text?_squeezed (h : Laid cs) (hcs : Unescaped cs) :
    Option.Rel (fun p q => q.1 = squeezeText p.1 ∧ SqueezesTo p.2 q.2) (text? (kept cs))
      (text? (oneSpace cs)) := by
  obtain ⟨u, hu, hsuffix, hstays, hkept, hspace⟩ := exists_skip h
  have hu' := hcs.of_suffix hsuffix
  have hnone := text?_squeezed_of_unquoted hkept hspace
  rcases laid_front hu hstays with rfl | ⟨t, rest, rfl, ht, hrest⟩ | ⟨rest, rfl, -, -⟩ |
    ⟨c, rest, rfl, hc, -⟩
  · rw [(hnone nofun).1, (hnone nofun).2]
    exact .none
  · have htext : Unescaped (t ++ '\x27' :: rest) := hu'.of_suffix (List.suffix_cons _ _)
    have hrest' : Unescaped rest := htext.of_suffix ⟨t ++ ['\x27'], by simp⟩
    have hquote : Text.Stops Text.isBlank ('\x27' :: rest) := Text.stops_cons.mpr rfl
    have htail : t ++ '\x27' :: kept rest <+: t ++ '\x27' :: rest :=
      (List.prefix_append_right_inj t).mpr (List.cons_prefix_cons.mpr ⟨rfl, kept_prefix hrest⟩)
    have hspaces := unescaped_oneSpace htext
    rw [kept, keptText_eq ht] at hkept
    rw [Text.oneSpace_append t hquote, Text.oneSpace_cons_of_not_blank rfl] at hspaces
    rw [Text.oneSpace_cons_of_not_blank rfl, Text.oneSpace_append t hquote,
      Text.oneSpace_cons_of_not_blank rfl] at hspace
    have ht' : '\x27' ∉ oneSpace t := mt (Text.mem_oneSpace_iff rfl).mp ht
    rw [text?_of_quote hkept ht fun c hc => htext c (htail.subset hc),
      text?_of_quote hspace ht' hspaces]
    exact .some ⟨by rw [squeezeText, String.toList_ofList], rest, hrest, hrest', rfl, rfl⟩
  · have hhead : ∀ c ∈ ('/' :: rest).head?, c ≠ '"' ∧ c ≠ '\x27' := by simp
    rw [(hnone hhead).1, (hnone hhead).2]
    exact .none
  · have hhead : ∀ d ∈ (c :: rest).head?, d ≠ '"' ∧ d ≠ '\x27' := by
      simpa using ⟨hc.2.2.1, hc.2.1⟩
    rw [(hnone hhead).1, (hnone hhead).2]
    exact .none

/-- **What counts of a source and the squeezed source have the same tokens**, texts apart. -/
theorem squeezesTo_likens : Likens SqueezesTo squeezeText where
  skip := by
    rintro _ _ ⟨cs, h, hcs, rfl, rfl⟩
    obtain ⟨u, hu, hsuffix, -, hkept, hspace⟩ := exists_skip h
    exact ⟨u, hu, hcs.of_suffix hsuffix, hkept, hspace⟩
  ends := by
    rintro _ _ ⟨cs, h, -, rfl, rfl⟩
    obtain ⟨u, -, -, -, hkept, hspace⟩ := exists_skip h
    rw [hkept, hspace, Text.oneSpace_eq_nil_iff, ← List.head?_eq_none_iff, head?_kept,
      List.head?_eq_none_iff]
  front := by
    rintro _ _ ⟨cs, h, hcs, rfl, rfl⟩
    by_cases hplain : ∃ c ∈ cs.head?, Plain c
    · obtain ⟨c, hc, hplain⟩ := hplain
      obtain ⟨rest, rfl⟩ := List.head?_eq_some_iff.mp hc
      exact .inl ⟨c, kept rest, oneSpace rest, hplain, kept_cons hplain.1 hplain.2.1 rest,
        Text.oneSpace_cons_of_not_blank hplain.2.2.2, rest, h.behind_plain hplain,
        hcs.of_suffix (List.suffix_cons c rest), rfl, rfl⟩
    · refine .inr ⟨fun c hc hc' => hplain ⟨c, ?_, hc'⟩, fun c hc hc' => hplain ⟨c, ?_, hc'⟩⟩
      · rwa [head?_kept] at hc
      · exact Text.head?_oneSpace hc'.2.2.2 hc
  slash := by
    rintro _ _ ⟨cs, h, hcs, rfl, rfl⟩
    exact slash_squeezed h hcs
  text := by
    rintro _ _ ⟨cs, h, hcs, rfl, rfl⟩
    exact text?_squeezed h hcs
  keeps s hs := by rw [squeezeText, Text.oneSpace_eq_self hs, String.ofList_toList]

end Token

namespace Grammar

open Token

/-- **A source that is an expression is laid out.** -/
theorem laid_of_parse {s : String} {e : Expr} (hs : Unescaped s.toList)
    (h : parseExpr? s = some e) : Laid s.toList := by
  have hself : Ahead s.toList s.toList s.toList := ⟨rfl, hs, id⟩
  have hread := expr_alike (ahead_likens s.toList) hself
  rw [parseExpr?] at h
  rcases alike_cases hread with ⟨h₁, -⟩ | ⟨e, x, y, h₁, -, hxy, -, -⟩
  · rw [h₁] at h
    cases h
  · rw [h₁] at h
    dsimp only at h
    split at h
    · rename_i hend
      refine hxy.2.2 (laid_of_skip ?_)
      rw [List.isEmpty_iff.mp hend]
      exact .nil
    · cases h

/-- **A squeezed source is the expression of what counts in the source**, with its texts squeezed. -/
theorem parseExpr?_oneSpace {cs : List Char} (hcs : Unescaped cs) (h : Laid cs) :
    parseExpr? (String.ofList (oneSpace cs)) =
      (parseExpr? (String.ofList (kept cs))).map (Expr.mapTexts squeezeText) := by
  refine parseExpr?_alike squeezesTo_likens ⟨cs, h, hcs, ?_, ?_⟩ <;> rw [String.toList_ofList]

end Grammar

end Trellis
