import Mathlib.Data.List.Basic
import Mathlib.Logic.Function.Basic
import Trellis.Proofs.Text.Runs
import Trellis.Text.Html

/-!
# Entities

`escape` goes character by character, and that is what four replacements of a character in a whole
text come to, one after the other, with the ampersand as the first (`escape_eq_replace`). None of the
characters that have a meaning in a page is left but the ampersand (`ne_of_mem_escape`), and
each ampersand begins an entity (`entity_at_ampersand_of_escape`). So the text is read off again by `decode`,
entity after entity (`decode_escape`).
-/

namespace Trellis.Text

open String.Slice (Pos)
open String.Slice.Pattern (SearchStep ToForwardSearcher)
open String.Slice.Pattern.Model (IsValidSearchFrom LawfulToForwardSearcherModel MatchesAt
  Char.isLongestMatchAt_iff Char.matchesAt_iff)

/-! ## 1. A character replaced in a text -/

/-- The text `t` in the place of the character `c`, and every other character for itself. -/
def instead (c : Char) (t : String) (d : Char) : List Char := if d = c then t.toList else [d]

/-- What a step of the search for a character adds to the text with the character replaced. -/
def replaceStep (s : String.Slice) (t : String) (sofar : String) : SearchStep s → String
  | .matched _ _ => sofar ++ t.toSlice
  | .rejected start stop => sofar ++ s.slice! start stop

section

variable {s : String.Slice} {c : Char} {t : String} {start stop : s.Pos}

theorem flatMap_instead_of_not_mem {cs : List Char} (h : c ∉ cs) :
    cs.flatMap (instead c t) = cs := by
  induction cs with
  | nil => rfl
  | cons d cs ih =>
    obtain ⟨hd, hcs⟩ := List.ne_and_not_mem_of_not_mem_cons h
    rw [List.flatMap_cons, ih hcs, instead, if_neg hd.symm, List.singleton_append]

theorem toList_append_slice (sofar : String) (s : String.Slice) :
    (sofar ++ s).toList = sofar.toList ++ s.copy.toList := by
  rw [← String.toList_append]
  rfl

/-- Where the character is found nowhere, it does not stand. -/
theorem not_mem_slice (h : start ≤ stop)
    (hnone : ∀ pos, start ≤ pos → pos < stop → ¬ MatchesAt c pos) :
    c ∉ (s.slice start stop h).copy.toList := by
  intro hmem
  obtain ⟨pos, hpos, hget⟩ := String.Slice.mem_toList_copy_iff_exists_get.mp hmem
  have hlt : Pos.ofSlice pos < stop := by
    refine Pos.ofSlice_lt_iff.mpr fun _ => ⟨h, ?_⟩
    rw [Pos.slice_eq_endPos]
    exact (Pos.lt_endPos_iff pos).mpr hpos
  rw [Pos.get_eq_get_ofSlice] at hget
  exact hnone _ Pos.le_ofSlice hlt (Char.matchesAt_iff.mpr ⟨_, hget⟩)

theorem toList_sliceFrom (h : start ≤ stop) :
    (s.sliceFrom start).copy.toList =
      (s.slice start stop h).copy.toList ++ (s.sliceFrom stop).copy.toList := by
  obtain ⟨t₁, t₂, hstart, hstop⟩ := String.Slice.copy_slice_eq_iff_splits.mp ⟨h, rfl⟩
  rw [hstart.copy_sliceFrom_eq, hstop.copy_sliceFrom_eq, String.toList_append]

/-- The steps of a search from a place on add what is behind it, with the character replaced. -/
theorem toList_foldl_replaceStep {steps : List (SearchStep s)}
    (h : IsValidSearchFrom c start steps) (sofar : String) :
    (steps.foldl (replaceStep s t) sofar).toList =
      sofar.toList ++ (s.sliceFrom start).copy.toList.flatMap (instead c t) := by
  induction h generalizing sofar with
  | endPos => simp
  | @matched _ start stop hmatch _ ih =>
    obtain ⟨hpos, rfl, hget⟩ := Char.isLongestMatchAt_iff.mp hmatch
    rw [List.foldl_cons, ih, replaceStep, toList_append_slice, String.copy_toSlice,
      (Pos.splits_next_right start hpos).copy_sliceFrom_eq, String.toList_append,
      List.flatMap_append, hget, String.toList_singleton, List.flatMap_singleton, instead,
      if_pos rfl, List.append_assoc]
  | @mismatched _ start stop hlt hnone _ ih =>
    have hle : start ≤ stop := Std.le_of_lt hlt
    rw [List.foldl_cons, ih, replaceStep, ← String.Slice.slice_eq_slice! (h := hle),
      toList_append_slice, toList_sliceFrom hle, List.flatMap_append,
      flatMap_instead_of_not_mem (not_mem_slice hle hnone), List.append_assoc]

/-- **A character is replaced in every place, and everything else stays.** -/
theorem toList_replace (s : String) (c : Char) (t : String) :
    (s.replace c t).toList = s.toList.flatMap (instead c t) := by
  have hvalid : IsValidSearchFrom c s.toSlice.startPos
      (ToForwardSearcher.toSearcher c s.toSlice).toList :=
    LawfulToForwardSearcherModel.isValidSearchFrom_toList s.toSlice
  have hfold := toList_foldl_replaceStep (t := t) hvalid ""
  rw [Std.Iter.foldl_toList, String.Slice.sliceFrom_startPos, String.copy_toSlice,
    String.toList_empty, List.nil_append] at hfold
  rw [← hfold, String.replace, String.Slice.replace]
  congr 2
  funext sofar step
  cases step <;> rfl

end

/-! ## 2. Four characters in turn -/

/-- The characters with a meaning in a page. -/
def IsSpecial (c : Char) : Prop := c = '&' ∨ c = '<' ∨ c = '>' ∨ c = '"'

theorem entity_of_not_special {c : Char} (h : ¬ IsSpecial c) : entity c = [c] := by
  simp only [IsSpecial, not_or] at h
  obtain ⟨hamp, hlt, hgt, hquot⟩ := h
  unfold entity
  split <;> first | rfl | contradiction

/-- The ampersand has to be the first: what a replacement writes must hold none of the characters
    that are replaced after it. -/
theorem entity_eq_instead (c : Char) :
    entity c = (((instead '&' "&amp;" c).flatMap (instead '<' "&lt;")).flatMap
      (instead '>' "&gt;")).flatMap (instead '"' "&quot;") := by
  by_cases h : IsSpecial c
  · rcases h with rfl | rfl | rfl | rfl <;> decide
  · rw [entity_of_not_special h]
    simp only [IsSpecial, not_or] at h
    simp [instead, h]

/-- **Escaping is four replacements, one after the other.** -/
theorem escape_eq_replace (s : String) :
    escape s = (((s.replace '&' "&amp;").replace '<' "&lt;").replace '>' "&gt;").replace
      '"' "&quot;" := by
  refine String.toList_inj.mp ?_
  rw [escape, String.toList_ofList, escapeChars, toList_replace, toList_replace, toList_replace,
    toList_replace, List.flatMap_assoc, List.flatMap_assoc, List.flatMap_assoc]
  refine List.flatMap_congr fun c _ => ?_
  rw [entity_eq_instead, List.flatMap_assoc, List.flatMap_assoc]

/-! ## 3. What is in an escaped text -/

section

variable {c : Char} {cs before behind : List Char}

theorem ne_of_mem_entity {d : Char} (h : d ∈ entity c) : d ≠ '<' ∧ d ≠ '>' ∧ d ≠ '"' := by
  by_cases hc : IsSpecial c
  · have hall : ∀ d ∈ entity c, d ≠ '<' ∧ d ≠ '>' ∧ d ≠ '"' := by
      rcases hc with rfl | rfl | rfl | rfl <;> decide
    exact hall d h
  · rw [entity_of_not_special hc, List.mem_singleton] at h
    simp only [IsSpecial, not_or] at hc
    exact h ▸ hc.2

/-- **An escaped text holds nothing that opens or closes a tag or a value.** -/
theorem ne_of_mem_escape {s : String} (h : c ∈ (escape s).toList) :
    c ≠ '<' ∧ c ≠ '>' ∧ c ≠ '"' := by
  rw [escape, String.toList_ofList, escapeChars, List.mem_flatMap] at h
  obtain ⟨d, -, hd⟩ := h
  exact ne_of_mem_entity hd

/-- An ampersand stands at the front of what is written for a character, or nowhere in it. -/
theorem ampersand_not_mem_tail_entity (c : Char) : '&' ∉ (entity c).tail := by
  by_cases hc : IsSpecial c
  · rcases hc with rfl | rfl | rfl | rfl <;> decide
  · rw [entity_of_not_special hc]
    exact List.not_mem_nil

theorem isSpecial_of_entity_eq (h : entity c = '&' :: behind) : IsSpecial c := by
  by_contra hc
  rw [entity_of_not_special hc, List.cons.injEq] at h
  exact hc (.inl h.1)

theorem entity_at_ampersand (h : escapeChars cs = before ++ '&' :: behind) :
    ∃ d, IsSpecial d ∧ entity d <+: '&' :: behind := by
  induction cs generalizing before with
  | nil => exact absurd h.symm (List.append_ne_nil_of_right_ne_nil _ (List.cons_ne_nil _ _))
  | cons c cs ih =>
    rw [escapeChars_cons] at h
    rcases List.append_eq_append_iff.mp h with ⟨later, -, hcs⟩ | ⟨rest, hentity, hbehind⟩
    · exact ih hcs
    · cases rest with
      | nil => exact @ih [] hbehind.symm
      | cons d rest =>
        obtain ⟨rfl, rfl⟩ := List.cons.inj hbehind
        cases before with
        | nil => exact ⟨c, isSpecial_of_entity_eq hentity, _, by rw [hentity]; rfl⟩
        | cons e before =>
          refine absurd ?_ (ampersand_not_mem_tail_entity c)
          rw [hentity]
          exact List.mem_append_right _ List.mem_cons_self

/-- **Every ampersand of an escaped text begins one of four entities.** -/
theorem entity_at_ampersand_of_escape {s : String}
    (h : (escape s).toList = before ++ '&' :: behind) :
    ∃ e ∈ ["&amp;", "&lt;", "&gt;", "&quot;"], e.toList <+: '&' :: behind := by
  rw [escape, String.toList_ofList] at h
  obtain ⟨d, hd, hprefix⟩ := entity_at_ampersand h
  rcases hd with rfl | rfl | rfl | rfl
  · exact ⟨"&amp;", by decide, hprefix⟩
  · exact ⟨"&lt;", by decide, hprefix⟩
  · exact ⟨"&gt;", by decide, hprefix⟩
  · exact ⟨"&quot;", by decide, hprefix⟩

end

/-! ## 4. Reading entities -/

/-- The characters with every entity read, left to right; an ampersand without one stays. -/
def decodeChars : List Char → List Char
  | '&' :: 'a' :: 'm' :: 'p' :: ';' :: cs => '&' :: decodeChars cs
  | '&' :: 'l' :: 't' :: ';' :: cs => '<' :: decodeChars cs
  | '&' :: 'g' :: 't' :: ';' :: cs => '>' :: decodeChars cs
  | '&' :: 'q' :: 'u' :: 'o' :: 't' :: ';' :: cs => '"' :: decodeChars cs
  | c :: cs => c :: decodeChars cs
  | [] => []

/-- The text with every entity read. -/
def decode (s : String) : String := String.ofList (decodeChars s.toList)

theorem decodeChars_cons_of_ne {c : Char} (h : c ≠ '&') (cs : List Char) :
    decodeChars (c :: cs) = c :: decodeChars cs := by
  rw [decodeChars] <;> exact fun _ hc => absurd hc h

/-- What is written for a character is read as the character, whatever follows. -/
theorem decodeChars_entity (c : Char) (cs : List Char) :
    decodeChars (entity c ++ cs) = c :: decodeChars cs := by
  by_cases hc : IsSpecial c
  · rcases hc with rfl | rfl | rfl | rfl <;> rfl
  · rw [entity_of_not_special hc, List.singleton_append,
      decodeChars_cons_of_ne fun h => hc (.inl h)]

theorem decodeChars_escapeChars (cs : List Char) : decodeChars (escapeChars cs) = cs := by
  induction cs with
  | nil => rfl
  | cons c cs ih => rw [escapeChars_cons, decodeChars_entity, ih]

/-- **Escaping loses nothing.** -/
theorem decode_escape (s : String) : decode (escape s) = s := by
  rw [decode, escape, String.toList_ofList, decodeChars_escapeChars, String.ofList_toList]

theorem escape_injective : Function.Injective escape :=
  Function.LeftInverse.injective decode_escape

end Trellis.Text
