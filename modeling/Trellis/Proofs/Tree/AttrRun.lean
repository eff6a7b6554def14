import Trellis.Proofs.Tree.Changes

/-!
# Attributes over runs of updates

`Attrs.carried` follows two lists of attributes through a run of updates: the one a node keeps and
the one that is shown. Both are changed by what differs between the kept list and the next one.

Name by name there are two ways this goes. Where a name stands at most once in the kept list, both
lists follow the updates (`carried_right`). Where it is repeated, a change sets its first value while
the difference is read off its last, which stays: the lists are right at the end exactly when the
name went away in between or never changed (`carried_repeated_iff`).
-/

namespace Trellis

namespace Attrs

open Value

/-! ## 1. One update -/

/-- What a run of updates makes of the list a node keeps and of the list that is shown. -/
def carried : List Attr → List Attr → List (List Attr) → List Attr × List Attr
  | kept, shown, [] => (kept, shown)
  | kept, shown, next :: rest =>
    carried (applyChanges kept (Diff.changes kept next)) (applyChanges shown (Diff.changes kept next))
      rest

/-- A name has the value that counts in a list: it is shown, and it is the last one that is kept. -/
def Right (state : List Attr × List Attr) (current : List Attr) (name : String) : Prop :=
  sameOption (get? state.2 name) (last? current name) ∧
    sameOption (last? state.1 name) (last? current name)

/-- **What an update does to one name**: nothing, take it away, or set its first value. -/
theorem values_step (kept shown next : List Attr) (name : String) :
    (sameOption (last? kept name) (last? next name) ∧
        valuesOf (applyChanges kept (Diff.changes kept next)) name = valuesOf kept name ∧
        valuesOf (applyChanges shown (Diff.changes kept next)) name = valuesOf shown name) ∨
      (last? next name = none ∧
        valuesOf (applyChanges kept (Diff.changes kept next)) name = [] ∧
        valuesOf (applyChanges shown (Diff.changes kept next)) name = []) ∨
      ∃ v w, last? next name = some v ∧ same w v = true ∧
        ¬ sameOption (last? kept name) (some v) ∧
        valuesOf (applyChanges kept (Diff.changes kept next)) name = w :: (valuesOf kept name).tail ∧
        valuesOf (applyChanges shown (Diff.changes kept next)) name = w :: (valuesOf shown name).tail := by
  have hnone := @Diff.changeFor_changes_eq_none_iff kept next name
  have hc := Diff.changeFor_changes kept next name
  rw [Diff.valuesOf_applyChanges_changes, Diff.valuesOf_applyChanges_changes]
  by_cases hsame : sameOption (last? kept name) (last? next name)
  · rw [hnone.mpr hsame]
    exact .inl ⟨hsame, rfl, rfl⟩
  · cases hnext : last? next name with
    | none =>
      rw [hnext] at hc hsame
      cases hkept : last? kept name with
      | none =>
        rw [hkept] at hsame
        exact absurd trivial hsame
      | some u =>
        simp only [hkept, Option.map_some] at hc
        rw [hc]
        exact .inr (.inl ⟨rfl, rfl, rfl⟩)
    | some v =>
      rw [hnext] at hc hsame
      have hval : ¬ Diff.hasValue (last? kept name) v = true := fun e => hsame (Diff.hasValue_iff.mp e)
      simp only [if_neg hval] at hc
      obtain ⟨w, hw, hc⟩ := hc
      rw [hc]
      exact .inr (.inr ⟨v, w, rfl, hw, hsame, rfl, rfl⟩)

/-! ## 2. Names that are not repeated -/

theorem right_of_values {kept shown current : List Attr} {name : String}
    (heq : valuesOf shown name = valuesOf kept name) (hle : (valuesOf kept name).length ≤ 1)
    (hlast : sameOption (last? kept name) (last? current name)) :
    Right (kept, shown) current name := by
  refine ⟨?_, hlast⟩
  rwa [get?_eq_head?, heq, ← get?_eq_head?, get?_eq_last? hle]

/-- **A name that is not repeated is right after every run.** -/
theorem carried_right {kept shown current : List Attr} {name : String} (rest : List (List Attr))
    (heq : valuesOf shown name = valuesOf kept name) (hle : (valuesOf kept name).length ≤ 1)
    (hlast : sameOption (last? kept name) (last? current name)) :
    Right (carried kept shown rest) (rest.getLastD current) name := by
  induction rest generalizing kept shown current with
  | nil => exact right_of_values heq hle hlast
  | cons next rest ih =>
    rw [carried, List.getLastD_cons]
    rcases values_step kept shown next name with ⟨hsame, hk, hs⟩ | ⟨hnext, hk, hs⟩ |
      ⟨v, w, hnext, hw, _, hk, hs⟩
    · refine ih (by rw [hk, hs, heq]) (by rwa [hk]) ?_
      rwa [last?_eq_getLast?, hk, ← last?_eq_getLast?]
    · refine ih (by rw [hk, hs]) (by rw [hk]; exact Nat.zero_le 1) ?_
      rw [last?_eq_getLast?, hk, hnext]
      trivial
    · have htail : (valuesOf kept name).tail = [] := by
        apply List.eq_nil_of_length_eq_zero
        rw [List.length_tail]
        omega
      rw [htail] at hk
      rw [heq, htail] at hs
      refine ih (by rw [hk, hs]) (by rw [hk]; exact Nat.le_refl 1) ?_
      rw [last?_eq_getLast?, hk, hnext]
      exact hw

/-! ## 3. Repeated names -/

/-- **A repeated name** is right after a run exactly when it went away in between, or was shown by
    its last value all along and no update changed that. -/
theorem carried_repeated_iff {kept shown current : List Attr} {name : String} {u v₀ : Value}
    (rest : List (List Attr)) (htwo : 2 ≤ (valuesOf kept name).length)
    (hlast : last? kept name = some v₀) (hshown : valuesOf shown name = [u])
    (hcurrent : same u v₀ = true → sameOption (last? current name) (some v₀)) :
    Right (carried kept shown rest) (rest.getLastD current) name ↔
      (∃ next ∈ rest, last? next name = none) ∨
        same u v₀ = true ∧ ∀ next ∈ rest, sameOption (last? next name) (some v₀) := by
  induction rest generalizing kept shown current u with
  | nil =>
    have hget : get? shown name = some u := by rw [get?_eq_head?, hshown, List.head?_cons]
    rw [carried, List.getLastD_nil, Right, hget, hlast]
    constructor
    · rintro ⟨hu, hv⟩
      exact .inr ⟨@sameOption_trans (some u) (last? current name) (some v₀) hu (sameOption_symm hv), nofun⟩
    · rintro (⟨_, hmem, _⟩ | ⟨hu, _⟩)
      · cases hmem
      · have hv := hcurrent hu
        exact ⟨@sameOption_trans (some u) (some v₀) _ hu (sameOption_symm hv), sameOption_symm hv⟩
  | cons next rest ih =>
    rw [carried, List.getLastD_cons]
    simp only [List.mem_cons, exists_eq_or_imp, forall_eq_or_imp]
    rcases values_step kept shown next name with ⟨hsame, hk, hs⟩ | ⟨hnext, hk, hs⟩ |
      ⟨v, w, hnext, hw, hne, hk, hs⟩
    · -- the update leaves the name alone: its last value is the one that is kept
      rw [hlast] at hsame
      rw [ih (by rwa [hk]) (by rwa [last?_eq_getLast?, hk, ← last?_eq_getLast?]) (by rwa [hs])
        fun _ => sameOption_symm hsame]
      have hsome : last? next name ≠ none := by
        intro e
        rw [e] at hsame
        exact hsame
      simp only [hsome, false_or, sameOption_symm hsame, true_and]
    · have hright := @carried_right _ _ next name rest (hs.trans hk.symm)
        (by rw [hk]; exact Nat.zero_le 1) (by rw [last?_eq_getLast?, hk, hnext]; trivial)
      exact iff_of_true hright (.inl (.inl hnext))
    · -- the first value becomes the new one, the last one stays what it was
      have htail : (valuesOf kept name).tail ≠ [] := by
        intro e
        have := congrArg List.length e
        rw [List.length_tail, List.length_nil] at this
        omega
      have hkept : last? kept name = (valuesOf kept name).tail.getLast? := by
        rw [last?_eq_getLast?, List.getLast?_tail, if_neg (by omega)]
      rw [hlast] at hne hkept
      have hwv : ¬ same w v₀ = true := fun e => hne (same_trans (same_symm e) hw)
      have hvv : ¬ sameOption (some v) (some v₀) := fun e => hne (same_symm e)
      have hlast' : last? (applyChanges kept (Diff.changes kept next)) name = some v₀ := by
        rw [last?_eq_getLast?, hk, List.getLast?_cons_of_ne_nil htail, ← hkept]
      rw [ih (by rw [hk, List.length_cons, List.length_tail]; omega) hlast'
        (by rw [hs, hshown]; rfl) fun e => absurd e hwv, hnext]
      simp only [hwv, hvv, false_and, and_false, or_false, reduceCtorEq, false_or]

/-! ## 4. All names -/

/-- A run of updates keeps a name right: it stands once at most at first, goes away in between, or
    never changes. -/
def Steady (first : List Attr) (rest : List (List Attr)) (name : String) : Prop :=
  (valuesOf first name).length ≤ 1 ∨ (∃ next ∈ rest, last? next name = none) ∨
    ∀ next ∈ rest, sameOption (last? next name) (last? first name)

/-- **When a name is right after a run** that starts with what setting the attributes leaves. -/
theorem carried_right_iff (first : List Attr) (rest : List (List Attr)) (name : String) :
    Right (carried first (settled first) rest) (rest.getLastD first) name ↔ Steady first rest name := by
  have hshown := valuesOf_settled first name
  rw [Steady]
  by_cases hle : (valuesOf first name).length ≤ 1
  · refine iff_of_true (carried_right rest ?_ hle (sameOption_refl _)) (.inl hle)
    exact (shown_settled first).values name hle
  · cases hlast : last? first name with
    | none =>
      rw [last?_eq_getLast?, List.getLast?_eq_none_iff] at hlast
      rw [hlast] at hle
      exact absurd (Nat.zero_le 1) hle
    | some v₀ =>
      rw [hlast] at hshown
      rw [carried_repeated_iff rest (by omega) hlast hshown fun _ => hlast ▸ sameOption_refl _]
      simp only [hle, same_refl, false_or, true_and]

end Attrs

end Trellis
