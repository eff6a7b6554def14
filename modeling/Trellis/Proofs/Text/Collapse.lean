import Mathlib.Data.List.DropRight
import Mathlib.Data.List.Infix
import Trellis.Proofs.Text.Runs
import Trellis.Text.Blank

/-!
# Collapsed texts

The words of a text with one space between neighbours are the text trimmed, with every run of blanks
inside as one space (`collapse_eq`). Collapsing brings no two characters together that are no blanks
(`pair_of_squeezed`), so it makes no mark that was not there.
-/

namespace Trellis.Text

/-! ## 1. Runs of blanks -/

/-- Every run of blanks as one space. -/
def oneSpace : List Char → List Char
  | [] => []
  | c :: cs =>
    if isBlank c then if cs.head?.any isBlank then oneSpace cs else ' ' :: oneSpace cs
    else c :: oneSpace cs

/-- The text trimmed, every run of blanks inside as one space. -/
def squeezed (cs : List Char) : List Char := oneSpace (trimChars cs)

section

variable {c : Char} {cs : List Char}

theorem oneSpace_cons_of_not_blank (hc : isBlank c = false) :
    oneSpace (c :: cs) = c :: oneSpace cs := by
  simp [oneSpace, hc]

/-- A text without blanks stays. -/
theorem oneSpace_eq_self (h : ∀ c ∈ cs, isBlank c = false) : oneSpace cs = cs := by
  induction cs with
  | nil => rfl
  | cons c cs ih =>
    obtain ⟨hc, hcs⟩ := List.forall_mem_cons.mp h
    rw [oneSpace_cons_of_not_blank hc, ih hcs]

/-- What begins with no blank belongs to no run before it. -/
theorem oneSpace_append (cs : List Char) {rest : List Char} (h : Stops isBlank rest) :
    oneSpace (cs ++ rest) = oneSpace cs ++ oneSpace rest := by
  induction cs with
  | nil => rfl
  | cons c cs ih =>
    have hnext : (cs ++ rest).head?.any isBlank = cs.head?.any isBlank := by
      cases cs with
      | nil =>
        cases rest with
        | nil => rfl
        | cons d rest => exact h d rfl
      | cons d cs => rfl
    rw [List.cons_append, oneSpace, oneSpace, hnext, ih]
    split
    · split <;> rfl
    · rfl

/-- The only blanks that are left are spaces. -/
theorem mem_oneSpace {d : Char} (h : d ∈ oneSpace cs) : d = ' ' ∨ isBlank d = false ∧ d ∈ cs := by
  induction cs with
  | nil => cases h
  | cons c cs ih =>
    have hlater (h : d ∈ oneSpace cs) : d = ' ' ∨ isBlank d = false ∧ d ∈ c :: cs :=
      (ih h).imp_right (And.imp_right (List.mem_cons_of_mem c))
    rw [oneSpace] at h
    split at h
    · split at h
      · exact hlater h
      · exact (List.mem_cons.mp h).elim .inl hlater
    · rename_i hc
      rcases List.mem_cons.mp h with rfl | h
      · exact .inr ⟨by simpa using hc, List.mem_cons_self⟩
      · exact hlater h

/-- What is no blank stays. -/
theorem mem_oneSpace_iff {d : Char} (hd : isBlank d = false) : d ∈ oneSpace cs ↔ d ∈ cs := by
  refine ⟨fun h => ?_, fun h => ?_⟩
  · rcases mem_oneSpace h with rfl | ⟨-, h⟩
    · cases hd
    · exact h
  · induction cs with
    | nil => cases h
    | cons c cs ih =>
      rw [oneSpace]
      rcases List.mem_cons.mp h with rfl | h
      · rw [if_neg (by simp [hd])]
        exact List.mem_cons_self
      · split
        · split
          · exact ih h
          · exact List.mem_cons_of_mem _ (ih h)
        · exact List.mem_cons_of_mem _ (ih h)

/-- A text is blank just when its runs of blanks are spaces and nothing else is left. -/
theorem blank_oneSpace_iff : (∀ c ∈ oneSpace cs, isBlank c = true) ↔ ∀ c ∈ cs, isBlank c = true := by
  refine ⟨fun h c hc => ?_, fun h c hc => ?_⟩
  · by_contra hblank
    rw [Bool.not_eq_true] at hblank
    exact absurd (h c ((mem_oneSpace_iff hblank).mpr hc)) (by simp [hblank])
  · rcases mem_oneSpace hc with rfl | ⟨-, hc⟩
    · rfl
    · exact h c hc

/-! ## 2. Words -/

/-- The text without the blanks at its end. -/
theorem rdropWhile_cons (c : Char) (cs : List Char) :
    (c :: cs).rdropWhile isBlank =
      if cs.rdropWhile isBlank = [] then if isBlank c then [] else [c]
      else c :: cs.rdropWhile isBlank := by
  unfold List.rdropWhile
  rw [List.reverse_cons, List.dropWhile_append]
  cases hcs : cs.reverse.dropWhile isBlank with
  | nil => by_cases hc : isBlank c <;> simp [hc]
  | cons d ds => simp

/-- The first character of a text stays when the end is trimmed, if something stays. -/
theorem head?_rdropWhile (h : cs.rdropWhile isBlank ≠ []) :
    (cs.rdropWhile isBlank).head? = cs.head? := by
  cases cs with
  | nil => exact absurd rfl h
  | cons c cs =>
    rw [rdropWhile_cons] at h ⊢
    by_cases hcs : cs.rdropWhile isBlank = []
    · rw [if_pos hcs] at h ⊢
      by_cases hc : isBlank c
      · rw [if_pos hc] at h
        exact absurd rfl h
      · rw [if_neg hc]
        rfl
    · rw [if_neg hcs]
      rfl

/-- The word that has begun at the front of a text, and the words behind it. -/
def split (cs : List Char) : List Char × List (List Char) := cs.foldr wordStep ([], [])

theorem words_eq (cs : List Char) : words cs = consWord (split cs).1 (split cs).2 := rfl

theorem split_cons_of_blank (hc : isBlank c = true) : split (c :: cs) = ([], words cs) := by
  rw [split, List.foldr_cons, wordStep, if_pos hc]
  rfl

theorem split_cons_of_not_blank (hc : isBlank c = false) :
    split (c :: cs) = (c :: (split cs).1, (split cs).2) := by
  rw [split, List.foldr_cons, wordStep, if_neg (by simp [hc])]
  rfl

/-- No word has begun where there is a blank or nothing. -/
theorem split_fst_eq_nil_iff : (split cs).1 = [] ↔ ∀ c ∈ cs.head?, isBlank c = true := by
  cases cs with
  | nil => simp [split]
  | cons c cs =>
    cases hc : isBlank c with
    | true => simp [split_cons_of_blank hc, hc]
    | false => simp [split_cons_of_not_blank hc, hc]

/-- **Words with a space before each but the one that has begun** are the text without the blanks at
    its end. -/
theorem split_eq (cs : List Char) :
    (split cs).1 ++ (split cs).2.flatMap (' ' :: ·) = oneSpace (cs.rdropWhile isBlank) := by
  induction cs with
  | nil => rfl
  | cons c cs ih =>
    cases hc : isBlank c with
    | false =>
      rw [split_cons_of_not_blank hc, List.cons_append, ih, rdropWhile_cons]
      by_cases hcs : cs.rdropWhile isBlank = []
      · simp [hcs, hc, oneSpace]
      · rw [if_neg hcs, oneSpace_cons_of_not_blank hc]
    | true =>
      rw [split_cons_of_blank hc, List.nil_append, words_eq, rdropWhile_cons]
      by_cases hcs : cs.rdropWhile isBlank = []
      · -- nothing but blanks follows
        rw [hcs] at ih
        obtain ⟨hfst, hsnd⟩ := List.append_eq_nil_iff.mp ih
        simp [hcs, hc, hfst, consWord, hsnd, oneSpace]
      · rw [if_neg hcs, oneSpace, if_pos hc, head?_rdropWhile hcs, ← ih]
        by_cases hfst : (split cs).1 = []
        · have hblank : cs.head?.any isBlank = true := by
            have hhead := split_fst_eq_nil_iff.mp hfst
            cases cs with
            | nil => exact absurd rfl hcs
            | cons d ds => exact hhead d rfl
          simp [hfst, consWord, hblank]
        · have hblank : cs.head?.any isBlank = false := by
            cases hhead : cs.head? with
            | none => rfl
            | some d =>
              cases hd : isBlank d with
              | false => simp [hd]
              | true => exact absurd (split_fst_eq_nil_iff.mpr (by simp [hhead, hd])) hfst
          simp [consWord, hfst, hblank]

theorem intercalate_space (w : List Char) (ws : List (List Char)) :
    [' '].intercalate (w :: ws) = w ++ ws.flatMap (' ' :: ·) := by
  induction ws generalizing w with
  | nil => simp [List.intercalate]
  | cons u ws ih => rw [List.intercalate_cons_cons, ih, List.flatMap_cons]; simp

theorem intercalate_words (cs : List Char) : [' '].intercalate (words cs) = squeezed cs := by
  induction cs with
  | nil => rfl
  | cons c cs ih =>
    cases hc : isBlank c with
    | true =>
      have hwords : words (c :: cs) = words cs := by
        rw [words_eq, split_cons_of_blank hc]
        rfl
      rw [hwords, ih, squeezed, squeezed, trimChars, trimChars, List.dropWhile_cons, if_pos hc]
    | false =>
      have hsplit := split_eq (c :: cs)
      rw [split_cons_of_not_blank hc] at hsplit
      rw [words_eq, split_cons_of_not_blank hc, consWord, if_neg (by simp), intercalate_space, hsplit,
        squeezed, trimChars, List.dropWhile_cons, if_neg (by simp [hc])]
      rfl

/-- **A collapsed text is trimmed, and every run of blanks inside is one space.** -/
theorem collapse_eq (s : String) : collapse s = String.ofList (squeezed s.toList) := by
  have hwords : ((words s.toList).map String.ofList).map String.toList = words s.toList := by
    rw [List.map_map]
    exact List.map_id'' (fun w => String.toList_ofList) _
  rw [← String.toList_inj, collapse, String.toList_intercalate, hwords, ← intercalate_words]
  exact String.toList_ofList.symm

/-- A text is trimmed to nothing just when it is blank. -/
theorem trimChars_eq_nil_iff : trimChars cs = [] ↔ ∀ c ∈ cs, isBlank c = true := by
  rw [trimChars, List.reverse_eq_nil_iff, List.dropWhile_eq_nil_iff]
  constructor
  · intro h c hc
    rw [← List.takeWhile_append_dropWhile (p := isBlank) (l := cs), List.mem_append] at hc
    rcases hc with hc | hc
    · exact List.mem_takeWhile_imp hc
    · exact h c (List.mem_reverse.mpr hc)
  · intro h c hc
    exact h c ((List.dropWhile_sublist _).mem (List.mem_reverse.mp hc))

theorem oneSpace_eq_nil_iff : oneSpace cs = [] ↔ cs = [] := by
  induction cs with
  | nil => exact Iff.rfl
  | cons c cs ih =>
    unfold oneSpace
    split
    · split
      · rename_i hnext
        have hne : cs ≠ [] := by
          rintro rfl
          cases hnext
        simp [ih, hne]
      · simp
    · simp

/-- A text collapses to nothing just when it is blank. -/
theorem squeezed_eq_nil_iff : squeezed cs = [] ↔ ∀ c ∈ cs, isBlank c = true := by
  rw [squeezed, oneSpace_eq_nil_iff, trimChars_eq_nil_iff]

/-! ## 3. Marks -/

/-- A collapsed run that begins with no blank begins like the text. -/
theorem head?_oneSpace (hc : isBlank c = false) (h : (oneSpace cs).head? = some c) :
    cs.head? = some c := by
  induction cs with
  | nil => exact h
  | cons d cs ih =>
    cases hd : isBlank d with
    | false =>
      rw [oneSpace_cons_of_not_blank hd] at h
      exact h
    | true =>
      rw [oneSpace, if_pos hd] at h
      by_cases hnext : cs.head?.any isBlank = true
      · rw [if_pos hnext] at h
        rw [ih h] at hnext
        simp [hc] at hnext
      · rw [if_neg hnext] at h
        simp at h
        subst h
        cases hc

/-- **Two characters side by side in a collapsed text are side by side in the text**, unless one of
    them is a blank. -/
theorem pair_of_oneSpace {a b : Char} (ha : isBlank a = false) (hb : isBlank b = false)
    (h : [a, b] <:+: oneSpace cs) : [a, b] <:+: cs := by
  induction cs with
  | nil => exact h
  | cons c cs ih =>
    have hlater (h : [a, b] <:+: oneSpace cs) : [a, b] <:+: c :: cs :=
      (ih h).trans (List.suffix_cons c cs).isInfix
    cases hc : isBlank c with
    | true =>
      rw [oneSpace, if_pos hc] at h
      split at h
      · exact hlater h
      · rcases List.infix_cons_iff.mp h with h | h
        · obtain ⟨_, heq⟩ := h
          simp at heq
          rw [heq.1] at ha
          cases ha
        · exact hlater h
    | false =>
      rw [oneSpace_cons_of_not_blank hc] at h
      rcases List.infix_cons_iff.mp h with ⟨t, heq⟩ | h
      · obtain ⟨rfl, hcs⟩ := List.cons.inj heq
        have hhead : cs.head? = some b := head?_oneSpace hb (hcs ▸ rfl)
        obtain ⟨cs, rfl⟩ := List.head?_eq_some_iff.mp hhead
        exact ⟨[], cs, rfl⟩
      · exact hlater h

/-- A mark of two characters that ends a text and does not stand before begins nowhere before. -/
theorem not_pair_cons {a b : Char} (h : ¬ [a, b] <:+: c :: cs ++ [a]) (rest : List Char) :
    ¬ [a, b] <:+: cs ++ [a] ∧ ¬ [a, b] <+: c :: (cs ++ [a, b] ++ rest) := by
  refine ⟨fun hcs => h (hcs.trans (List.suffix_cons c _).isInfix), fun hmark => ?_⟩
  have hfront : c :: (cs ++ [a]) <+: c :: (cs ++ [a, b] ++ rest) := ⟨b :: rest, by simp⟩
  exact h (List.prefix_of_prefix_length_le hmark hfront (by simp)).isInfix

theorem pair_of_squeezed {a b : Char} (ha : isBlank a = false) (hb : isBlank b = false)
    (h : [a, b] <:+: squeezed cs) : [a, b] <:+: cs :=
  (pair_of_oneSpace ha hb h).trans ((List.rdropWhile_prefix isBlank _).isInfix.trans
    (List.dropWhile_suffix isBlank).isInfix)

end

end Trellis.Text
