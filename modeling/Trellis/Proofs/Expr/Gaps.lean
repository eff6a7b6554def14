import Mathlib.Data.List.Infix
import Mathlib.Data.List.TakeWhile
import Trellis.Proofs.Expr.Tokens
import Trellis.Proofs.Text.Collapse

/-!
# Gaps between tokens

In front of a token the readers pass over gaps: blanks, comments up to the end of their line, and
comments up to their mark (`Gap`). What `skip` leaves is what stands behind the last of them
(`skip_cases`, `skip_induction`); a comment that does not end is no gap and stays.
-/

namespace Trellis.Token

variable {c : Char} {cs rest l : List Char}

/-! ## 1. Comments -/

/-- Whether a character ends a line. -/
def endsLine (c : Char) : Bool := c == '\n' || c == '\r'

theorem isBlank_of_endsLine (h : endsLine c = true) : isBlank c = true := by
  simp only [endsLine, Bool.or_eq_true, beq_iff_eq] at h
  rcases h with rfl | rfl <;> rfl

theorem skipLine_cons (c : Char) (cs : List Char) :
    skipLine (c :: cs) = if endsLine c then skip cs else skipLine cs := by
  simp [skipLine, endsLine]

theorem skip_of_blank (h : isBlank c = true) (cs : List Char) : skip (c :: cs) = skip cs := by
  have hc : c ≠ '/' := by
    rintro rfl
    cases h
  rw [skip, if_pos h]
  all_goals
    rintro _ rfl
    exact absurd rfl hc

/-- Behind two slashes stands the rest of the line, and behind it the source goes on. -/
theorem skipLine_eq (hl : ∀ c ∈ l, endsLine c = false) (hrest : ∀ c ∈ rest.head?, endsLine c = true) :
    skipLine (l ++ rest) = skip rest := by
  induction l with
  | nil =>
    cases rest with
    | nil => rfl
    | cons c rest =>
      have hc := hrest c rfl
      rw [List.nil_append, skipLine_cons, if_pos hc, skip_of_blank (isBlank_of_endsLine hc)]
  | cons c l ih =>
    obtain ⟨hc, hl⟩ := List.forall_mem_cons.mp hl
    rw [List.cons_append, skipLine_cons, if_neg (by simp [hc]), ih hl]

/-- The mark that ends a comment. -/
def commentEnd : List Char := ['*', '/']

theorem skipBlock_of_not_end (start : List Char) (h : ¬ commentEnd <+: c :: cs) :
    skipBlock start (c :: cs) = skipBlock start cs := by
  rw [skipBlock]
  intro rest hc hcs
  exact h ⟨rest, by rw [hc, hcs]; rfl⟩

/-- The mark begins nowhere in front of the end of a comment. -/
theorem not_commentEnd_cons (h : ¬ commentEnd <:+: c :: l ++ ['*']) (rest : List Char) :
    ¬ commentEnd <:+: l ++ ['*'] ∧ ¬ commentEnd <+: c :: (l ++ commentEnd ++ rest) :=
  Text.not_pair_cons h rest

/-- A comment that ends: what stands in it, and behind its first mark the source goes on. -/
theorem skipBlock_eq (start : List Char) (h : ¬ commentEnd <:+: l ++ ['*']) :
    skipBlock start (l ++ commentEnd ++ rest) = skip rest := by
  induction l with
  | nil => rw [List.nil_append, commentEnd, List.cons_append, List.cons_append, List.nil_append, skipBlock]
  | cons c l ih =>
    obtain ⟨hl, hfirst⟩ := not_commentEnd_cons h rest
    rw [List.cons_append, List.cons_append, skipBlock_of_not_end start hfirst, ih hl]

/-- A comment that does not end. -/
theorem skipBlock_eq_start (start : List Char) (h : ¬ commentEnd <:+: cs) :
    skipBlock start cs = start := by
  induction cs with
  | nil => rfl
  | cons c cs ih =>
    rw [skipBlock_of_not_end start fun hc => h hc.isInfix,
      ih fun hcs => h (hcs.trans (List.suffix_cons c cs).isInfix)]

/-- The first mark that ends a comment. -/
theorem exists_commentEnd (h : commentEnd <:+: cs) :
    ∃ l rest, cs = l ++ commentEnd ++ rest ∧ ¬ commentEnd <:+: l ++ ['*'] := by
  induction cs with
  | nil => exact absurd h (by decide)
  | cons c cs ih =>
    by_cases hfirst : commentEnd <+: c :: cs
    · obtain ⟨rest, hrest⟩ := hfirst
      exact ⟨[], rest, hrest.symm, by decide⟩
    · obtain ⟨l, rest, rfl, hl⟩ := ih ((List.infix_cons_iff.mp h).resolve_left hfirst)
      refine ⟨c :: l, rest, rfl, fun hmark => ?_⟩
      rcases List.infix_cons_iff.mp hmark with hmark | hmark
      · exact hfirst (hmark.trans ⟨'/' :: rest, by simp [commentEnd]⟩)
      · exact hl hmark

/-! ## 2. Gaps -/

/-- A gap in front of `rest`: one blank, a comment that ends with its line, or one that ends with its
    mark. -/
inductive Gap (rest : List Char) : List Char → Prop
  | blank {c : Char} (h : isBlank c = true) : Gap rest [c]
  | line {l : List Char} (hl : ∀ c ∈ l, endsLine c = false)
    (hrest : ∀ c ∈ rest.head?, endsLine c = true) : Gap rest ('/' :: '/' :: l)
  | block {l : List Char} (h : ¬ commentEnd <:+: l ++ ['*']) :
    Gap rest ('/' :: '*' :: (l ++ commentEnd))

theorem Gap.ne_nil (h : Gap rest l) : l ≠ [] := by
  cases h <;> exact List.cons_ne_nil _ _

theorem skip_line (cs : List Char) : skip ('/' :: '/' :: cs) = skipLine cs := by
  rw [skip]

theorem skip_block (cs : List Char) :
    skip ('/' :: '*' :: cs) = skipBlock ('/' :: '*' :: cs) cs := by
  rw [skip]

/-- A slash that begins no comment stays. -/
theorem skip_slash (h : ∀ c ∈ cs.head?, c ≠ '/' ∧ c ≠ '*') : skip ('/' :: cs) = '/' :: cs := by
  cases cs with
  | nil => rfl
  | cons c cs =>
    obtain ⟨hline, hblock⟩ := h c rfl
    rw [skip]
    · rfl
    all_goals
      intro rest _ hrest
      simp_all

/-- **A gap is passed over.** -/
theorem Gap.skip_eq (h : Gap rest l) : skip (l ++ rest) = skip rest := by
  cases h with
  | blank h => exact skip_of_blank h rest
  | line hl hrest => rw [List.cons_append, List.cons_append, skip_line, skipLine_eq hl hrest]
  | block h => rw [List.cons_append, List.cons_append, skip_block, skipBlock_eq _ h]

/-- Two slashes begin a gap. -/
theorem exists_gap_line (cs : List Char) :
    ∃ l rest, Gap rest l ∧ '/' :: '/' :: cs = l ++ rest := by
  refine ⟨'/' :: '/' :: cs.takeWhile (!endsLine ·), cs.dropWhile (!endsLine ·), .line ?_ ?_, ?_⟩
  · intro c hc
    simpa using List.mem_takeWhile_imp hc
  · intro c hc
    simpa using Text.stops_dropWhile (!endsLine ·) cs c hc
  · rw [List.cons_append, List.cons_append, List.takeWhile_append_dropWhile]

/-- A source that begins with no gap stays; any other one has a gap in front. -/
theorem skip_cases (cs : List Char) : skip cs = cs ∨ ∃ l rest, Gap rest l ∧ cs = l ++ rest := by
  rcases cs with _ | ⟨c, cs⟩
  · exact .inl rfl
  by_cases hblank : isBlank c = true
  · exact .inr ⟨[c], cs, .blank hblank, rfl⟩
  by_cases hslash : c = '/'
  · subst hslash
    by_cases hnext : ∀ d ∈ cs.head?, d ≠ '/' ∧ d ≠ '*'
    · exact .inl (skip_slash hnext)
    · simp only [not_forall, not_and_or, not_not] at hnext
      obtain ⟨d, hd, hmark⟩ := hnext
      obtain ⟨cs, rfl⟩ := List.head?_eq_some_iff.mp hd
      rcases hmark with rfl | rfl
      · exact .inr (exists_gap_line cs)
      · by_cases hend : commentEnd <:+: cs
        · obtain ⟨l, rest, rfl, hl⟩ := exists_commentEnd hend
          exact .inr ⟨_, rest, .block hl, rfl⟩
        · exact .inl (by rw [skip_block, skipBlock_eq_start _ hend])
  · exact .inl (skip_of_begins ⟨hslash, by simpa using hblank⟩ cs)

/-- **What is true of the sources that begin with no gap**, and of a source with a gap in front if it
    is true of what stands behind the gap, is true of all sources. -/
theorem skip_induction {P : List Char → Prop} (stays : ∀ cs, skip cs = cs → P cs)
    (gap : ∀ l rest, Gap rest l → P rest → P (l ++ rest)) (cs : List Char) : P cs := by
  induction hn : cs.length using Nat.strong_induction_on generalizing cs with
  | _ n ih =>
    rcases skip_cases cs with h | ⟨l, rest, h, rfl⟩
    · exact stays cs h
    · refine gap l rest h (ih rest.length ?_ rest rfl)
      have hlength := List.length_pos_of_ne_nil h.ne_nil
      rw [List.length_append] at hn
      omega

theorem skip_suffix (cs : List Char) : skip cs <:+ cs := by
  induction cs using skip_induction with
  | stays cs h => rw [h]
  | gap l rest h ih =>
    rw [h.skip_eq]
    exact ih.trans (List.suffix_append l rest)

theorem skip_skip (cs : List Char) : skip (skip cs) = skip cs := by
  induction cs using skip_induction with
  | stays cs h => rw [h, h]
  | gap l rest h ih => rw [h.skip_eq, ih]

theorem length_skip_le (cs : List Char) : (skip cs).length ≤ cs.length :=
  (skip_suffix cs).length_le

/-- A source with a gap in front does not stay. -/
theorem Gap.skip_ne (h : Gap rest l) : skip (l ++ rest) ≠ l ++ rest := by
  intro heq
  have hle := length_skip_le rest
  have hpos := List.length_pos_of_ne_nil h.ne_nil
  rw [← h.skip_eq, heq, List.length_append] at hle
  omega

/-- No two slashes are left in front. -/
theorem skip_ne_line (cs rest : List Char) : skip cs ≠ '/' :: '/' :: rest := by
  intro hslashes
  obtain ⟨l, after, h, heq⟩ := exists_gap_line rest
  have hskip := skip_skip cs
  rw [hslashes, heq] at hskip
  exact h.skip_ne hskip

end Trellis.Token
