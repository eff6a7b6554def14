import Trellis.Proofs.Value.PathText

/-!
# Which texts are paths

The brackets of a text are matched in the usual way (`Balanced`): a closing bracket closes the nearest
opening one that is still open. A text is refused as a path exactly when one of its opening brackets is
closed by none, or a pair of brackets holds anything but an index, or no key results because the text has
nothing but points (`parse?_eq_none_iff`). A closing bracket that closes nothing is no reason: outside of
brackets it is a character like any other, and becomes part of a name.
-/

namespace Trellis.Path

/-! ## 1. Brackets -/

/-- Every bracket has its counterpart. -/
inductive Balanced : List Char → Prop
  | nil : Balanced []
  | other {c : Char} {cs : List Char} (hopen : c ≠ '[') (hclose : c ≠ ']') (h : Balanced cs) :
    Balanced (c :: cs)
  | pair {inner rest : List Char} (hinner : Balanced inner) (hrest : Balanced rest) :
    Balanced ('[' :: inner ++ ']' :: rest)

/-- An opening bracket has no closing one behind it. -/
def Unclosed (cs : List Char) : Prop :=
  ∃ before behind, cs = before ++ '[' :: behind ∧
    ∀ inner rest, behind = inner ++ ']' :: rest → ¬ Balanced inner

/-- A closing bracket has no opening one before it. -/
def Unopened (cs : List Char) : Prop :=
  ∃ before behind, cs = before ++ ']' :: behind ∧
    ∀ front inner, before = front ++ '[' :: inner → ¬ Balanced inner

/-- The text stands between a bracket and its counterpart. -/
def Enclosed (cs inner : List Char) : Prop :=
  ∃ before rest, cs = before ++ '[' :: inner ++ ']' :: rest ∧ Balanced inner

/-- One or more digits that write a number below `2 ^ 64`. -/
def WritesIndex (cs : List Char) : Prop :=
  cs ≠ [] ∧ (∀ c ∈ cs, '0' ≤ c ∧ c ≤ '9') ∧ Nat.ofDigitChars 10 cs 0 < Number.indexBound

/-- What is wrong with a text that is no path: an opening bracket is closed by none, a pair of brackets
    holds no index, or there is nothing but points. -/
def Faulty (cs : List Char) : Prop :=
  Unclosed cs ∨ (∃ inner, Enclosed cs inner ∧ ¬ WritesIndex inner) ∨ ∀ c ∈ cs, c = '.'

/-! ## 2. Behind an opening bracket -/

/-- The digits, with those that follow them up to a closing bracket, write an index. -/
def Indexed (digits cs : List Char) : Prop :=
  ∃ ds rest, cs = ds ++ ']' :: rest ∧ WritesIndex (digits ++ ds)

/-- Behind some opening bracket there is no index with a closing bracket. -/
def Broken (cs : List Char) : Prop := ∃ before behind, cs = before ++ '[' :: behind ∧ ¬ Indexed [] behind

section

variable {c : Char} {cs ds rest digits name inner : List Char}

theorem isDigit_iff : Number.isDigit c = true ↔ '0' ≤ c ∧ c ≤ '9' := by
  rw [Number.isDigit, Bool.and_eq_true, decide_eq_true_iff, decide_eq_true_iff]

theorem writesIndex_iff : WritesIndex ds ↔ ∃ i, Number.index? ds = some i := by
  constructor
  · rintro ⟨hne, hdigits, hsmall⟩
    exact ⟨_, Number.index?_eq_some_iff.mpr ⟨hne, fun d hd => isDigit_iff.mpr (hdigits d hd), rfl, hsmall⟩⟩
  · rintro ⟨i, hi⟩
    obtain ⟨hne, hdigits, rfl, hsmall⟩ := Number.index?_eq_some_iff.mp hi
    exact ⟨hne, fun d hd => isDigit_iff.mp (hdigits d hd), hsmall⟩

theorem WritesIndex.not_mem (h : WritesIndex ds) (hc : ¬ ('0' ≤ c ∧ c ≤ '9')) : c ∉ ds :=
  fun hmem => hc (h.2.1 c hmem)

theorem not_indexed_nil : ¬ Indexed digits [] := by
  rintro ⟨ds, rest, h, -⟩
  exact List.append_ne_nil_of_right_ne_nil ds (List.cons_ne_nil _ rest) h.symm

theorem indexed_closing : Indexed digits (']' :: cs) ↔ WritesIndex digits := by
  constructor
  · rintro ⟨_ | ⟨d, ds⟩, rest, h, hindex⟩
    · exact List.append_nil digits ▸ hindex
    · obtain ⟨rfl, -⟩ := List.cons.inj h
      exact absurd (List.mem_append_right digits List.mem_cons_self) (hindex.not_mem (by decide))
  · exact fun hindex => ⟨[], cs, rfl, (List.append_nil digits).symm ▸ hindex⟩

theorem indexed_of_ne (hc : c ≠ ']') :
    Indexed digits (c :: cs) ↔ Number.isDigit c = true ∧ Indexed (digits ++ [c]) cs := by
  constructor
  · rintro ⟨_ | ⟨d, ds⟩, rest, h, hindex⟩
    · exact absurd (List.cons.inj h).1 hc
    · obtain ⟨rfl, rfl⟩ := List.cons.inj h
      exact ⟨isDigit_iff.mpr (hindex.2.1 c (List.mem_append_right _ List.mem_cons_self)), ds, rest, rfl,
        List.append_cons digits c ds ▸ hindex⟩
  · rintro ⟨-, ds, rest, rfl, hindex⟩
    exact ⟨c :: ds, rest, rfl, (List.append_cons digits c ds).symm ▸ hindex⟩

theorem not_broken_nil : ¬ Broken [] := by
  rintro ⟨before, behind, h, -⟩
  exact List.append_ne_nil_of_right_ne_nil before (List.cons_ne_nil _ behind) h.symm

theorem broken_opening : Broken ('[' :: cs) ↔ ¬ Indexed [] cs ∨ Broken cs := by
  constructor
  · rintro ⟨_ | ⟨d, before⟩, behind, h, hindex⟩
    · obtain ⟨-, rfl⟩ := List.cons.inj h
      exact .inl hindex
    · obtain ⟨-, rfl⟩ := List.cons.inj h
      exact .inr ⟨before, behind, rfl, hindex⟩
  · rintro (hindex | ⟨before, behind, rfl, hindex⟩)
    · exact ⟨[], cs, rfl, hindex⟩
    · exact ⟨'[' :: before, behind, rfl, hindex⟩

theorem broken_of_ne (hc : c ≠ '[') : Broken (c :: cs) ↔ Broken cs := by
  constructor
  · rintro ⟨_ | ⟨d, before⟩, behind, h, hindex⟩
    · exact absurd (List.cons.inj h).1 hc
    · exact ⟨before, behind, (List.cons.inj h).2, hindex⟩
  · rintro ⟨before, behind, rfl, hindex⟩
    exact ⟨c :: before, behind, rfl, hindex⟩

/-! ## 3. Where reading stops -/

mutual

/-- **Reading fails where an opening bracket has no index behind it**: outside brackets, -/
theorem outside_eq_none_iff : ∀ (name cs : List Char), outside name cs = none ↔ Broken cs
  | name, [] => iff_of_false nofun not_broken_nil
  | name, c :: cs => by
    rw [outside]
    split
    · rename_i hpoint
      rw [Option.map_eq_none_iff, outside_eq_none_iff [] cs, hpoint, broken_of_ne (by decide)]
    · split
      · rename_i hbracket
        rw [Option.map_eq_none_iff, inside_eq_none_iff [] cs, hbracket, broken_opening]
      · rename_i hbracket
        rw [outside_eq_none_iff (name ++ [c]) cs, broken_of_ne hbracket]

/-- and inside, where the index may be the one that is being read. -/
theorem inside_eq_none_iff : ∀ (digits cs : List Char),
    inside digits cs = none ↔ ¬ Indexed digits cs ∨ Broken cs
  | digits, [] => iff_of_true rfl (.inl not_indexed_nil)
  | digits, c :: cs => by
    rw [inside]
    split
    · rename_i hclosing
      rw [hclosing, indexed_closing, broken_of_ne (by decide)]
      split
      · rename_i i hi
        rw [Option.map_eq_none_iff, outside_eq_none_iff [] cs,
          or_iff_right (not_not_intro (writesIndex_iff.mpr ⟨i, hi⟩))]
      · rename_i hnone
        refine iff_of_true rfl (.inl fun hindex => ?_)
        obtain ⟨i, hi⟩ := writesIndex_iff.mp hindex
        rw [hnone] at hi
        cases hi
    · rename_i hclosing
      rw [indexed_of_ne hclosing]
      split
      · rename_i hdigit
        have hbracket : c ≠ '[' := by
          rintro rfl
          cases hdigit
        rw [inside_eq_none_iff (digits ++ [c]) cs, broken_of_ne hbracket, and_iff_right hdigit]
      · rename_i hdigit
        exact iff_of_true rfl (.inl fun h => hdigit h.1)

end

theorem inside_ne_nil (digits cs : List Char) : inside digits cs ≠ some [] := by
  induction cs generalizing digits with
  | nil => nofun
  | cons c cs ih =>
    rw [inside]
    split
    · split
      · intro h
        obtain ⟨ks, -, hks⟩ := Option.map_eq_some_iff.mp h
        cases hks
      · nofun
    · split
      · exact ih _
      · nofun

theorem pending_eq_nil_iff : pending name = [] ↔ name = [] := by
  rw [pending]
  split
  · rename_i hempty
    exact iff_of_true rfl (List.isEmpty_iff.mp hempty)
  · rename_i hne
    exact iff_of_false (List.cons_ne_nil _ _) fun h => hne (List.isEmpty_iff.mpr h)

/-- **No key results from points alone**, and from nothing else. -/
theorem outside_eq_nil_iff (name cs : List Char) :
    outside name cs = some [] ↔ name = [] ∧ ∀ c ∈ cs, c = '.' := by
  induction cs generalizing name with
  | nil =>
    rw [outside, Option.some.injEq, pending_eq_nil_iff]
    exact (and_iff_left (List.forall_mem_nil _)).symm
  | cons c cs ih =>
    rw [outside, List.forall_mem_cons]
    split
    · rename_i hpoint
      rw [and_iff_right hpoint, Option.map_eq_some_iff]
      constructor
      · rintro ⟨ks, hks, happend⟩
        obtain ⟨hname, rfl⟩ := List.append_eq_nil_iff.mp happend
        exact ⟨pending_eq_nil_iff.mp hname, ((ih []).mp hks).2⟩
      · rintro ⟨rfl, hall⟩
        exact ⟨[], (ih []).mpr ⟨rfl, hall⟩, rfl⟩
    · rename_i hpoint
      refine iff_of_false ?_ fun h => hpoint h.2.1
      split
      · intro h
        obtain ⟨ks, hks, happend⟩ := Option.map_eq_some_iff.mp h
        rw [(List.append_eq_nil_iff.mp happend).2] at hks
        exact inside_ne_nil [] cs hks
      · rw [ih]
        exact fun h => List.append_ne_nil_of_right_ne_nil name (List.cons_ne_nil c []) h.1

/-! ## 4. Pairs of brackets -/

/-- Digits have no bracket in them. -/
theorem WritesIndex.balanced (h : WritesIndex ds) : Balanced ds := by
  have hdigits := h.2.1
  clear h
  induction ds with
  | nil => exact .nil
  | cons d ds ih =>
    obtain ⟨hd, hds⟩ := List.forall_mem_cons.mp hdigits
    refine .other ?_ ?_ (ih hds) <;>
    · rintro rfl
      exact absurd hd (by decide)

/-- Before a closing bracket of a balanced text there is an opening one. -/
theorem Balanced.opening_mem (h : Balanced cs) : ∀ {before behind : List Char},
    cs = before ++ ']' :: behind → '[' ∈ before := by
  induction h with
  | nil =>
    intro before behind hcs
    exact absurd hcs.symm (List.append_ne_nil_of_right_ne_nil before (List.cons_ne_nil _ behind))
  | other hopen hclose _ ih =>
    rintro (_ | ⟨d, before⟩) behind hcs
    · exact absurd (List.cons.inj hcs).1 hclose
    · exact List.mem_cons_of_mem d (ih (List.cons.inj hcs).2)
  | pair _ _ _ _ =>
    rintro (_ | ⟨d, before⟩) behind hcs
    · exact absurd (List.cons.inj hcs).1 (by decide)
    · obtain ⟨rfl, -⟩ := List.cons.inj hcs
      exact List.mem_cons_self

/-- A pair of brackets that begins with an index and a closing bracket holds this index only. -/
theorem WritesIndex.of_pair {behind : List Char} (hindex : WritesIndex ds) (hinner : Balanced inner)
    (h : inner ++ ']' :: rest = ds ++ ']' :: behind) : WritesIndex inner := by
  rcases List.append_eq_append_iff.mp h with ⟨more, rfl, hmore⟩ | ⟨more, rfl, hmore⟩
  · cases more with
    | nil => rwa [List.append_nil] at hindex
    | cons c more =>
      obtain ⟨rfl, -⟩ := List.cons.inj hmore
      exact absurd (List.mem_append_right inner List.mem_cons_self) (hindex.not_mem (by decide))
  · cases more with
    | nil => rwa [List.append_nil]
    | cons c more =>
      obtain ⟨rfl, -⟩ := List.cons.inj hmore
      exact absurd (hinner.opening_mem rfl) (hindex.not_mem (by decide))

/-- An opening bracket without an index behind it is closed by none or holds something else. -/
theorem broken_iff : Broken cs ↔ Unclosed cs ∨ ∃ inner, Enclosed cs inner ∧ ¬ WritesIndex inner := by
  constructor
  · rintro ⟨before, behind, rfl, hindex⟩
    by_cases hclosed : ∃ inner rest, behind = inner ++ ']' :: rest ∧ Balanced inner
    · obtain ⟨inner, rest, rfl, hinner⟩ := hclosed
      refine .inr ⟨inner, ⟨before, rest, ?_, hinner⟩, fun hwrites => hindex ⟨inner, rest, rfl, hwrites⟩⟩
      rw [List.append_assoc, List.cons_append]
    · exact .inl ⟨before, behind, rfl, fun inner rest h hinner => hclosed ⟨inner, rest, h, hinner⟩⟩
  · rintro (⟨before, behind, rfl, hnone⟩ | ⟨inner, ⟨before, rest, rfl, hinner⟩, hwrites⟩)
    · refine ⟨before, behind, rfl, ?_⟩
      rintro ⟨ds, rest, rfl, hindex⟩
      exact hnone ds rest rfl hindex.balanced
    · refine ⟨before, inner ++ ']' :: rest, by rw [List.append_assoc, List.cons_append], ?_⟩
      rintro ⟨ds, behind, h, hindex⟩
      exact hwrites (hindex.of_pair hinner h)

end

/-! ## 5. Refused texts -/

/-- **Which texts are no paths.** A text is refused if and only if an opening bracket of it is closed by
    none, or a pair of brackets holds anything but digits that write an index, or the text has nothing but
    points. A closing bracket that closes nothing is a reason to refuse a text just as far as the text has
    one of these faults as well. -/
theorem parse?_eq_none_iff (s : String) :
    (parse? s = none ↔ Faulty s.toList) ∧
      ((parse? s = none ↔ Unopened s.toList ∨ Faulty s.toList) ↔
        (Unopened s.toList → Faulty s.toList)) := by
  have hnone : parse? s = none ↔ Faulty s.toList := by
    have hread : parse? s = none ↔ outside [] s.toList = none ∨ outside [] s.toList = some [] := by
      unfold parse?
      split
      · rename_i k ks h
        rw [h]
        exact iff_of_false nofun (by rintro (h | h) <;> cases h)
      · rename_i h
        refine iff_of_true rfl ?_
        cases houtside : outside [] s.toList with
        | none => exact .inl rfl
        | some ks =>
          cases ks with
          | nil => exact .inr rfl
          | cons k ks => exact absurd houtside (h k ks)
    rw [hread, outside_eq_none_iff, outside_eq_nil_iff, and_iff_right rfl, broken_iff, or_assoc]
    rfl
  refine ⟨hnone, ?_⟩
  rw [hnone]
  exact ⟨fun h hunopened => h.mpr (.inl hunopened), fun h => ⟨.inr, fun hf => hf.elim h id⟩⟩

/-- A closing bracket alone is part of a name. -/
theorem parse?_closing_alone :
    parse? "a]" = some [.name "a]"] ∧ Unopened "a]".toList ∧
      ¬ (parse? "a]" = none ↔ Unopened "a]".toList ∨ Faulty "a]".toList) := by
  have hread : parse? "a]" = some [.name "a]"] := by decide
  have hunopened : Unopened "a]".toList := by
    refine ⟨['a'], [], rfl, fun front inner h _ => ?_⟩
    have hmem : '[' ∈ ['a'] := h ▸ List.mem_append_right front List.mem_cons_self
    exact absurd hmem (by decide)
  refine ⟨hread, hunopened, fun h => ?_⟩
  rw [h.mpr (.inl hunopened)] at hread
  cases hread

end Trellis.Path
