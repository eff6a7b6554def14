import Trellis.Proofs.Tree.Attrs

/-!
# Attribute changes

`Diff.attrs` compares two lists of attributes as maps in which the last value under a name counts. Its
changes name every attribute once, so what they do to the values under a name is decided by the one
change of that name (`valuesOf_applyChanges`), and `changeFor_changes` says which one that is.

Carried out on the old list the changes set the FIRST attribute with the name. So a name that stands
at most once in the changed list has the value of the new list (`sameOption_applyChanges`), and a
name that is repeated need not.
-/

namespace Trellis

namespace Attrs

/-! ## 1. Carrying changes out -/

/-- Carries one change out. -/
def applyChange (attrs : List Attr) (c : AttrChange) : List Attr :=
  match c.value with
  | some v => set attrs c.name v
  | none => remove attrs c.name

/-- Carries changes out one after the other. -/
def applyChanges (attrs : List Attr) (changes : List AttrChange) : List Attr :=
  changes.foldl applyChange attrs

/-- What a change of a name to a value, or away, does to the values under the name. -/
def changed (values : List Value) : Option Value → List Value
  | some v => v :: values.tail
  | none => []

theorem valuesOf_applyChange_self (attrs : List Attr) (c : AttrChange) :
    valuesOf (applyChange attrs c) c.name = changed (valuesOf attrs c.name) c.value := by
  unfold applyChange
  cases c.value with
  | some v => exact valuesOf_set_self attrs c.name v
  | none => exact valuesOf_remove_self attrs c.name

theorem valuesOf_applyChange_of_ne (attrs : List Attr) {c : AttrChange} {name : String}
    (h : c.name ≠ name) : valuesOf (applyChange attrs c) name = valuesOf attrs name := by
  unfold applyChange
  cases c.value with
  | some v => exact valuesOf_set_of_ne attrs v h
  | none => exact valuesOf_remove_of_ne attrs h

/-- The change of a name in a list of changes, if there is one. -/
def changeFor (changes : List AttrChange) (name : String) : Option (Option Value) :=
  (changes.find? fun c => c.name == name).map AttrChange.value

theorem changeFor_cons (c : AttrChange) (rest : List AttrChange) (name : String) :
    changeFor (c :: rest) name = if c.name = name then some c.value else changeFor rest name := by
  unfold changeFor
  by_cases h : c.name = name
  · rw [List.find?_cons_of_pos (by simpa using h), if_pos h]
    rfl
  · rw [List.find?_cons_of_neg (by simpa using h), if_neg h]

theorem changeFor_append (changes : List AttrChange) (c : AttrChange) (name : String) :
    changeFor (changes ++ [c]) name =
      (changeFor changes name).or (if c.name = name then some c.value else none) := by
  induction changes with
  | nil =>
    rw [List.nil_append, changeFor_cons]
    rfl
  | cons d rest ih =>
    rw [List.cons_append, changeFor_cons, changeFor_cons, ih]
    split <;> rfl

theorem changeFor_eq_none_iff {changes : List AttrChange} {name : String} :
    changeFor changes name = none ↔ name ∉ changes.map AttrChange.name := by
  unfold changeFor
  rw [Option.map_eq_none_iff, List.find?_eq_none, List.mem_map]
  simp

/-- **Changes of distinct names act on each name alone.** -/
theorem valuesOf_applyChanges (attrs : List Attr) {changes : List AttrChange}
    (h : (changes.map AttrChange.name).Nodup) (name : String) :
    valuesOf (applyChanges attrs changes) name =
      match changeFor changes name with
      | some c => changed (valuesOf attrs name) c
      | none => valuesOf attrs name := by
  induction changes generalizing attrs with
  | nil => rfl
  | cons c rest ih =>
    obtain ⟨hc, hrest⟩ := List.nodup_cons.mp h
    rw [applyChanges, List.foldl_cons, ← applyChanges, ih _ hrest, changeFor_cons]
    by_cases e : c.name = name
    · subst e
      rw [if_pos rfl, changeFor_eq_none_iff.mpr hc]
      exact valuesOf_applyChange_self attrs c
    · rw [if_neg e, valuesOf_applyChange_of_ne attrs e]

theorem Shown.applyChanges {attrs shown : List Attr} (h : Shown attrs shown)
    (changes : List AttrChange) : Shown (applyChanges attrs changes) (applyChanges shown changes) := by
  induction changes generalizing attrs shown with
  | nil => exact h
  | cons c rest ih =>
    refine ih ?_
    unfold applyChange
    cases c.value with
    | some v => exact h.set c.name v
    | none => exact h.remove c.name

theorem nodup_names_applyChanges {attrs : List Attr} (h : (names attrs).Nodup)
    (changes : List AttrChange) : (names (applyChanges attrs changes)).Nodup := by
  induction changes generalizing attrs with
  | nil => exact h
  | cons c rest ih =>
    refine ih ?_
    unfold applyChange
    cases c.value with
    | some v => exact nodup_names_set h c.name v
    | none => exact nodup_names_remove h c.name

end Attrs

/-! ## 2. The changes between two lists -/

namespace Diff

open Attrs

/-- The changes between two lists of attributes. -/
def changes (old new : List Attr) : List AttrChange := (attrs old new).getD []

theorem attrs_eq_none_iff {old new : List Attr} : attrs old new = none ↔ changes old new = [] := by
  unfold changes attrs
  simp only
  split
  · simp
  · rename_i h
    simpa using h

/-- What setting the attributes of the new list records for one of them: its value, if that is final
    and was not there before. -/
def settingOf (old new : List Attr) (a : Attr) : Option (Option Value) :=
  if hasValue (last? new a.name) a.value && !hasValue (last? old a.name) a.value then some (some a.value)
  else none

/-- What going through the old list records for one of its attributes. -/
def goneOf (new : List Attr) (a : Attr) : Option (Option Value) :=
  if (last? new a.name).isSome then none else some none

/-- Adding a change unless its name has one already. -/
theorem changeFor_of_guard {acc : List AttrChange} {c : AttrChange} (name : String)
    (h : changeFor acc c.name ≠ none) :
    (changeFor acc name).or (if c.name = name then some c.value else none) = changeFor acc name := by
  by_cases e : c.name = name
  · subst e
    cases hc : changeFor acc c.name with
    | none => exact absurd hc h
    | some _ => rfl
  · rw [if_neg e, Option.or_none]

theorem any_name_eq_true_iff {acc : List AttrChange} {name : String} :
    (acc.any fun c => c.name == name) = true ↔ changeFor acc name ≠ none := by
  rw [ne_eq, changeFor_eq_none_iff, not_not, List.any_eq_true, List.mem_map]
  simp

/-- Adds what an attribute notes, unless its name has a change already. -/
def noteOnce (note : Attr → Option (Option Value)) (acc : List AttrChange) (a : Attr) :
    List AttrChange :=
  match note a with
  | some v => if acc.any fun c => c.name == a.name then acc else acc ++ [⟨a.name, v⟩]
  | none => acc

theorem recordSet_eq (old new : List Attr) : recordSet old new = noteOnce (settingOf old new) := by
  funext acc a
  unfold recordSet noteOnce settingOf
  by_cases hfinal : hasValue (last? new a.name) a.value = true
  · by_cases hold : hasValue (last? old a.name) a.value = true
    · simp [hfinal, hold]
    · simp [hfinal, hold]
  · simp [hfinal]

theorem recordGone_eq (new : List Attr) : recordGone new = noteOnce (goneOf new) := by
  funext acc a
  unfold recordGone noteOnce goneOf
  by_cases hnew : (last? new a.name).isSome = true
  · simp [hnew]
  · simp [hnew]

/-- **The changes are two walks that note**: what is set along the new list, then what is gone along
    the old one. -/
theorem changes_eq (old new : List Attr) :
    changes old new =
      old.foldl (noteOnce (goneOf new)) (new.foldl (noteOnce (settingOf old new)) []) := by
  rw [← recordSet_eq, ← recordGone_eq]
  unfold changes attrs
  simp only
  split
  · rename_i h
    exact (List.isEmpty_iff.mp h).symm
  · rfl

theorem changeFor_noteOnce (note : Attr → Option (Option Value)) (acc : List AttrChange) (a : Attr)
    (name : String) :
    changeFor (noteOnce note acc a) name =
      (changeFor acc name).or (if a.name = name then note a else none) := by
  unfold noteOnce
  cases hnote : note a with
  | none => simp
  | some v =>
    by_cases hany : (acc.any fun c => c.name == a.name) = true
    · have := changeFor_of_guard (c := ⟨a.name, v⟩) name (any_name_eq_true_iff.mp hany)
      simp [hany, this]
    · simp [hany, changeFor_append]

/-- What the first attribute of a name with something to note notes. -/
def noteFor (note : Attr → Option (Option Value)) (attrs : List Attr) (name : String) :
    Option (Option Value) := attrs.findSome? fun a => if a.name = name then note a else none

/-- What a walk that notes has for a name. -/
theorem changeFor_foldl (note : Attr → Option (Option Value)) (attrs : List Attr)
    (acc : List AttrChange) (name : String) :
    changeFor (attrs.foldl (noteOnce note) acc) name =
      (changeFor acc name).or (noteFor note attrs name) := by
  induction attrs generalizing acc with
  | nil => simp [noteFor]
  | cons a rest ih =>
    rw [List.foldl_cons, ih, changeFor_noteOnce, noteFor, noteFor, List.findSome?_cons]
    cases changeFor acc name <;> cases (if a.name = name then note a else none) <;> rfl

theorem noteFor_eq_none {note : Attr → Option (Option Value)} {attrs : List Attr} {name : String}
    (h : ∀ a ∈ attrs, a.name = name → note a = none) : noteFor note attrs name = none := by
  rw [noteFor, List.findSome?_eq_none_iff]
  intro a ha
  split
  · exact h a ha ‹_›
  · rfl

theorem noteFor_ne_none {note : Attr → Option (Option Value)} {attrs : List Attr} {a : Attr}
    (ha : a ∈ attrs) (h : note a ≠ none) :
    ∃ b ∈ attrs, b.name = a.name ∧ note b ≠ none ∧ noteFor note attrs a.name = note b := by
  have hsome : noteFor note attrs a.name ≠ none := by
    intro e
    have := List.findSome?_eq_none_iff.mp e a ha
    rw [if_pos rfl] at this
    exact h this
  obtain ⟨c, hc⟩ := Option.ne_none_iff_exists'.mp hsome
  obtain ⟨b, hb, e⟩ := List.exists_of_findSome?_eq_some hc
  split at e
  · exact ⟨b, hb, ‹_›, fun e' => (by rw [e'] at e; cases e), hc.trans e.symm⟩
  · cases e

theorem nodup_names_append {acc : List AttrChange} {c : AttrChange}
    (h : (acc.map AttrChange.name).Nodup) (hc : ¬ (acc.any fun d => d.name == c.name) = true) :
    ((acc ++ [c]).map AttrChange.name).Nodup := by
  rw [any_name_eq_true_iff, ne_eq, not_not, changeFor_eq_none_iff] at hc
  rw [List.map_append, List.nodup_append]
  refine ⟨h, List.nodup_singleton _, fun x hx y hy e => ?_⟩
  rw [List.map_singleton, List.mem_singleton] at hy
  exact hc (hy ▸ e ▸ hx)

theorem nodup_foldl_noteOnce (note : Attr → Option (Option Value)) (attrs : List Attr)
    {acc : List AttrChange} (h : (acc.map AttrChange.name).Nodup) :
    ((attrs.foldl (noteOnce note) acc).map AttrChange.name).Nodup := by
  induction attrs generalizing acc with
  | nil => exact h
  | cons a rest ih =>
    refine ih ?_
    unfold noteOnce
    split
    · split
      · exact h
      · exact nodup_names_append h ‹_›
    · exact h

/-- **Every name changes at most once.** -/
theorem nodup_names_changes (old new : List Attr) :
    ((changes old new).map AttrChange.name).Nodup := by
  rw [changes_eq]
  exact nodup_foldl_noteOnce _ old (nodup_foldl_noteOnce _ new List.nodup_nil)

theorem hasValue_iff {current : Option Value} {v : Value} :
    hasValue current v = true ↔ Value.sameOption current (some v) := by
  cases current with
  | none => exact ⟨fun h => (by cases h), False.elim⟩
  | some w => exact Iff.rfl

theorem mem_names_of_last? {l : List Attr} {name : String} {v : Value} (h : last? l name = some v) :
    ∃ a ∈ l, a.name = name ∧ a.value = v := by
  rw [last?_eq_getLast?] at h
  have := List.mem_of_getLast? h
  obtain ⟨a, ha, e⟩ := List.mem_filterMap.mp this
  split at e
  · rename_i hn
    exact ⟨a, ha, hn, Option.some.inj e⟩
  · cases e

theorem settingOf_eq {old new : List Attr} {a : Attr} {v : Value} (h : last? new a.name = some v) :
    settingOf old new a =
      if Value.same v a.value && !hasValue (last? old a.name) a.value then some (some a.value)
      else none := by
  rw [settingOf, h]
  rfl

/-- A name whose last value was there before is not set. -/
theorem noteFor_settingOf_of_hasValue {old new : List Attr} {name : String} {v : Value}
    (hn : last? new name = some v) (ho : hasValue (last? old name) v = true) :
    noteFor (settingOf old new) new name = none := by
  refine noteFor_eq_none fun a _ e => ?_
  subst e
  rw [settingOf_eq hn, if_neg]
  rw [Bool.and_eq_true, Bool.not_eq_true', not_and, Bool.not_eq_false]
  intro hv
  exact hasValue_iff.mpr (Value.sameOption_trans (hasValue_iff.mp ho) hv)

/-- A name whose last value was not there before is set to it. -/
theorem noteFor_settingOf {old new : List Attr} {name : String} {v : Value}
    (hn : last? new name = some v) (ho : ¬ hasValue (last? old name) v = true) :
    ∃ w, Value.same w v = true ∧ noteFor (settingOf old new) new name = some (some w) := by
  obtain ⟨a, ha, rfl, rfl⟩ := mem_names_of_last? hn
  have hset : settingOf old new a ≠ none := by
    rw [settingOf_eq hn, if_pos]
    · exact Option.some_ne_none _
    · rw [Bool.and_eq_true, Bool.not_eq_true', Bool.eq_false_iff]
      exact ⟨Value.same_refl _, ho⟩
  obtain ⟨b, _, hname, hb, e⟩ := noteFor_ne_none ha hset
  rw [settingOf_eq (hname ▸ hn)] at hb e
  split at hb
  · rename_i h
    rw [if_pos h] at e
    rw [Bool.and_eq_true] at h
    exact ⟨b.value, Value.same_symm h.1, e⟩
  · exact absurd rfl hb

/-- A name goes away when only the old list has it. -/
theorem noteFor_goneOf {old new : List Attr} {name : String} (hn : last? new name = none) :
    noteFor (goneOf new) old name = (last? old name).map fun _ => none := by
  have hgone : ∀ a : Attr, a.name = name → goneOf new a = some none := by
    intro a e
    rw [goneOf, e, hn]
    rfl
  cases ho : last? old name with
  | none =>
    refine noteFor_eq_none fun a ha e => ?_
    exact absurd (e ▸ List.mem_map_of_mem ha) (last?_eq_none_iff.mp ho)
  | some u =>
    obtain ⟨a, ha, rfl, rfl⟩ := mem_names_of_last? ho
    obtain ⟨b, _, hname, _, e⟩ := @noteFor_ne_none (goneOf new) _ a ha
      (by rw [hgone a rfl]; exact Option.some_ne_none _)
    rw [e, hgone b hname]
    rfl

/-- **The change of a name**: to the last value of the new list where the old one has another or none,
    away where only the old list has the name. -/
theorem changeFor_changes (old new : List Attr) (name : String) :
    match last? new name with
    | some v =>
      if hasValue (last? old name) v then changeFor (changes old new) name = none
      else ∃ w, Value.same w v = true ∧ changeFor (changes old new) name = some (some w)
    | none => changeFor (changes old new) name = (last? old name).map fun _ => none := by
  have hall : changeFor (changes old new) name =
      (noteFor (settingOf old new) new name).or (noteFor (goneOf new) old name) := by
    rw [changes_eq, changeFor_foldl, changeFor_foldl]
    rfl
  cases hn : last? new name with
  | some v =>
    have hkept : noteFor (goneOf new) old name = none := by
      refine noteFor_eq_none fun a _ e => ?_
      rw [goneOf, e, hn]
      rfl
    rw [hkept, Option.or_none] at hall
    simp only [hall]
    split
    · exact noteFor_settingOf_of_hasValue hn ‹_›
    · exact noteFor_settingOf hn ‹_›
  | none =>
    have hset : noteFor (settingOf old new) new name = none :=
      noteFor_eq_none fun a ha e => absurd (e ▸ List.mem_map_of_mem ha) (last?_eq_none_iff.mp hn)
    rw [hset, Option.none_or] at hall
    simp only [hall]
    exact noteFor_goneOf hn

/-- A name has no change exactly when its last values are the same. -/
theorem changeFor_changes_eq_none_iff {old new : List Attr} {name : String} :
    changeFor (changes old new) name = none ↔ Value.sameOption (last? old name) (last? new name) := by
  have h := changeFor_changes old new name
  cases hn : last? new name with
  | none =>
    simp only [hn] at h
    rw [h, Option.map_eq_none_iff]
    cases last? old name with
    | none => exact ⟨fun _ => trivial, fun _ => rfl⟩
    | some u => exact ⟨fun e => (by cases e), False.elim⟩
  | some v =>
    simp only [hn] at h
    rw [← hasValue_iff]
    split at h
    · exact ⟨fun _ => ‹_›, fun _ => h⟩
    · obtain ⟨w, _, e⟩ := h
      rw [e]
      exact ⟨fun e => (by cases e), fun e => absurd e ‹_›⟩

/-- **There is nothing to change when every name has the same last value in both lists.** -/
theorem changes_eq_nil_iff {old new : List Attr} :
    changes old new = [] ↔ ∀ name, Value.sameOption (last? old name) (last? new name) := by
  simp only [← changeFor_changes_eq_none_iff, changeFor_eq_none_iff]
  constructor
  · intro h name
    rw [h]
    exact List.not_mem_nil
  · intro h
    rw [← List.map_eq_nil_iff (f := AttrChange.name)]
    exact List.eq_nil_iff_forall_not_mem.mpr h

/-- What the changes make of the values under a name. -/
theorem valuesOf_applyChanges_changes (attrs old new : List Attr) (name : String) :
    valuesOf (applyChanges attrs (changes old new)) name =
      match changeFor (changes old new) name with
      | some c => changed (valuesOf attrs name) c
      | none => valuesOf attrs name :=
  valuesOf_applyChanges attrs (nodup_names_changes old new) name

/-- **What the changes make of the old list**: a name that stands at most once has the value of the
    new list. -/
theorem sameOption_applyChanges (old new : List Attr) {name : String}
    (h : (valuesOf (applyChanges old (changes old new)) name).length ≤ 1) :
    Value.sameOption (last? (applyChanges old (changes old new)) name) (last? new name) := by
  rw [valuesOf_applyChanges_changes] at h
  rw [last?_eq_getLast?, valuesOf_applyChanges_changes]
  have hc := changeFor_changes old new name
  cases e : changeFor (changes old new) name with
  | none =>
    simp only
    rw [← last?_eq_getLast?]
    exact changeFor_changes_eq_none_iff.mp e
  | some c =>
    simp only [e] at h hc ⊢
    cases hn : last? new name with
    | none =>
      simp only [hn] at hc
      obtain ⟨_, _, rfl⟩ := Option.map_eq_some_iff.mp hc.symm
      trivial
    | some v =>
      simp only [hn] at hc
      split at hc
      · cases hc
      · obtain ⟨w, hw, e'⟩ := hc
        obtain rfl := Option.some.inj e'
        rw [changed, List.length_cons] at h
        have htail : (valuesOf old name).tail = [] := List.length_eq_zero_iff.mp (by omega)
        rw [changed, htail]
        exact hw

end Diff

end Trellis
