import Mathlib.Data.List.Induction
import Mathlib.Logic.Function.Basic
import Trellis.Proofs.Tree.Changes

/-!
# The difference of two attribute lists

Two lists of attributes are compared as maps from names to last values. `Diff.IsDifference` says what
a list of changes owes to that comparison: it names every name once, turns the one map into the
other, does nothing that was done before, and stands in a fixed order. `Diff.attrs_difference` shows
it of the changes between any two lists.

The order comes from walks that note each name once. A walk notes a name where it first finds
something to note for it (`Noted.first`), so the notes stand in the order of those places
(`Noted.ordered`); for what is set these are the places of final values, for what is gone the places
where the names first stand.
-/

namespace Trellis

namespace Diff

open Attrs

/-! ## 1. Where a walk notes names -/

section

variable {note : Attr → Option (Option Value)} {attrs : List Attr} {acc noted : List AttrChange}
  {name : String}

/-- Where the first attribute with a name stands that has something to note. -/
def notedAt (note : Attr → Option (Option Value)) (attrs : List Attr) (name : String) : Nat :=
  attrs.findIdx fun a => a.name == name && (note a).isSome

/-- What a walk through attributes adds to what was noted before. -/
structure Noted (note : Attr → Option (Option Value)) (attrs : List Attr)
    (acc noted : List AttrChange) : Prop where
  walk : attrs.foldl (noteOnce note) acc = acc ++ noted
  /-- A note is that of the first attribute with the name that has one. -/
  first : ∀ c ∈ noted, ∃ a : Attr,
    attrs[notedAt note attrs c.name]? = some a ∧ a.name = c.name ∧ note a = some c.value
  /-- Notes stand in the order of those attributes. -/
  ordered : noted.Pairwise fun c d => notedAt note attrs c.name < notedAt note attrs d.name

theorem Noted.notedAt_lt (h : Noted note attrs acc noted) {c : AttrChange} (hc : c ∈ noted) :
    notedAt note attrs c.name < attrs.length := by
  obtain ⟨a, ha, _⟩ := h.first c hc
  exact (List.getElem?_eq_some_iff.mp ha).1

/-- A place that was found stays the same when more attributes follow. -/
theorem notedAt_append_of_lt (h : notedAt note attrs name < attrs.length) (more : List Attr) :
    notedAt note (attrs ++ more) name = notedAt note attrs name := by
  unfold notedAt at h ⊢
  rw [List.findIdx_append, if_pos h]

/-- A name with nothing noted so far is found behind. -/
theorem notedAt_concat {a : Attr} {v : Option Value} (h : noteFor note attrs a.name = none)
    (ha : note a = some v) : notedAt note (attrs ++ [a]) a.name = attrs.length := by
  have hbefore : attrs.findIdx (fun b => b.name == a.name && (note b).isSome) = attrs.length := by
    rw [List.findIdx_eq_length]
    intro b hb
    have hnote := List.findSome?_eq_none_iff.mp h b hb
    by_cases e : b.name = a.name
    · rw [if_pos e] at hnote
      simp [hnote]
    · simp [e]
  rw [notedAt, List.findIdx_append, hbefore, if_neg (Nat.lt_irrefl _), List.findIdx_cons]
  simp [ha]

/-- An attribute that adds no note. -/
theorem Noted.skip (h : Noted note attrs acc noted) {a : Attr}
    (ha : noteOnce note (acc ++ noted) a = acc ++ noted) : Noted note (attrs ++ [a]) acc noted where
  walk := by rw [List.foldl_concat, h.walk, ha]
  first c hc := by
    rw [notedAt_append_of_lt (h.notedAt_lt hc), List.getElem?_append_left (h.notedAt_lt hc)]
    exact h.first c hc
  ordered := by
    refine h.ordered.imp_of_mem fun {c d} hc hd hlt => ?_
    rwa [notedAt_append_of_lt (h.notedAt_lt hc), notedAt_append_of_lt (h.notedAt_lt hd)]

/-- An attribute that adds one. -/
theorem Noted.add (h : Noted note attrs acc noted) {a : Attr} {v : Option Value} (ha : note a = some v)
    (hnew : changeFor (acc ++ noted) a.name = none) :
    Noted note (attrs ++ [a]) acc (noted ++ [⟨a.name, v⟩]) := by
  have hany : ¬ ((acc ++ noted).any fun c => c.name == a.name) = true := fun h =>
    any_name_eq_true_iff.mp h hnew
  have hfor : noteFor note attrs a.name = none := by
    rw [← h.walk, changeFor_foldl] at hnew
    exact (Option.or_eq_none_iff.mp hnew).2
  have hat : notedAt note (attrs ++ [a]) a.name = attrs.length := notedAt_concat hfor ha
  have hskip : ∀ c ∈ noted, notedAt note (attrs ++ [a]) c.name = notedAt note attrs c.name :=
    fun c hc => notedAt_append_of_lt (h.notedAt_lt hc) [a]
  refine ⟨?_, fun c hc => ?_, ?_⟩
  · rw [List.foldl_concat, h.walk, noteOnce, ha]
    simp only
    rw [if_neg hany, List.append_assoc]
  · rcases List.mem_append.mp hc with hc | hc
    · rw [hskip c hc, List.getElem?_append_left (h.notedAt_lt hc)]
      exact h.first c hc
    · obtain rfl := List.mem_singleton.mp hc
      exact ⟨a, by rw [hat, List.getElem?_concat_length], rfl, ha⟩
  · refine List.pairwise_append.mpr ⟨?_, List.pairwise_singleton _ _, fun c hc d hd => ?_⟩
    · refine h.ordered.imp_of_mem fun {c d} hc hd hlt => ?_
      rwa [hskip c hc, hskip d hd]
    · obtain rfl := List.mem_singleton.mp hd
      rw [hskip c hc, hat]
      exact h.notedAt_lt hc

/-- **A walk notes each name at the first attribute that has something to note for it.** -/
theorem exists_noted (note : Attr → Option (Option Value)) (attrs : List Attr)
    (acc : List AttrChange) : ∃ noted, Noted note attrs acc noted := by
  induction attrs using List.reverseRecOn with
  | nil => exact ⟨[], (List.append_nil acc).symm, fun _ h => (List.not_mem_nil h).elim, .nil⟩
  | append_singleton attrs a ih =>
    obtain ⟨noted, h⟩ := ih
    cases hnote : note a with
    | none => exact ⟨noted, h.skip (by rw [noteOnce, hnote])⟩
    | some v =>
      by_cases hnew : changeFor (acc ++ noted) a.name = none
      · exact ⟨_, h.add hnote hnew⟩
      · refine ⟨noted, h.skip ?_⟩
        rw [noteOnce, hnote]
        simp only
        rw [if_pos (any_name_eq_true_iff.mpr hnew)]

end

/-! ## 2. Maps of last values -/

/-- A map from names to values after changes that set names and unset them, one after the other. -/
def updated (m : String → Option Value) (changes : List AttrChange) : String → Option Value :=
  changes.foldl (fun m c => Function.update m c.name c.value) m

/-- Changes of distinct names give each name the value of its own change. -/
theorem updated_eq (m : String → Option Value) {changes : List AttrChange}
    (h : (changes.map AttrChange.name).Nodup) (name : String) :
    updated m changes name = (changeFor changes name).getD (m name) := by
  induction changes generalizing m with
  | nil => rfl
  | cons c rest ih =>
    obtain ⟨hc, hrest⟩ := List.nodup_cons.mp h
    rw [updated, List.foldl_cons, ← updated, ih _ hrest, changeFor_cons]
    by_cases e : c.name = name
    · subst e
      rw [changeFor_eq_none_iff.mpr hc, if_pos rfl]
      exact Function.update_self ..
    · rw [if_neg e, Function.update_of_ne (Ne.symm e)]

theorem changeFor_of_mem {changes : List AttrChange} (h : (changes.map AttrChange.name).Nodup)
    {c : AttrChange} (hc : c ∈ changes) : changeFor changes c.name = some c.value := by
  induction changes with
  | nil => cases hc
  | cons d rest ih =>
    obtain ⟨hd, hrest⟩ := List.nodup_cons.mp h
    rw [changeFor_cons]
    rcases List.mem_cons.mp hc with rfl | hc
    · exact if_pos rfl
    · have hne : d.name ≠ c.name := fun e => hd (e ▸ List.mem_map_of_mem hc)
      rw [if_neg hne]
      exact ih hrest hc

/-- Where the first attribute with a name stands that carries the last value under the name. -/
def finalAt (attrs : List Attr) (name : String) : Nat :=
  attrs.findIdx fun a => a.name == name && hasValue (last? attrs name) a.value

/-- What a list of changes owes to the maps of last values of two attribute lists. -/
structure IsDifference (old new : List Attr) (changes : List AttrChange) : Prop where
  /-- No name changes twice. -/
  once : (changes.map AttrChange.name).Nodup
  /-- The changes turn the old map into the new one. -/
  turns : ∀ name, Value.sameOption (updated (last? old) changes name) (last? new name)
  /-- No name is set to the value it had, and none is unset that had no value. -/
  needed : ∀ c ∈ changes, ¬ Value.sameOption (last? old c.name) c.value
  /-- Names that are set come first, where the new list first has their final values; then come names
      that are unset, where the old list first has them. -/
  ordered : ∃ set unset, changes = set ++ unset ∧
    (∀ c ∈ set, ∃ v, c.value = some v ∧ new[finalAt new c.name]? = some ⟨c.name, v⟩) ∧
    (set.Pairwise fun c d => finalAt new c.name < finalAt new d.name) ∧
    (∀ c ∈ unset, c.value = none) ∧
    unset.Pairwise fun c d => (names old).idxOf c.name < (names old).idxOf d.name

/-! ## 3. The changes between two lists -/

section

variable {old new : List Attr}

/-- The changes turn the one map into the other. -/
theorem updated_changes (old new : List Attr) (name : String) :
    Value.sameOption (updated (last? old) (changes old new) name) (last? new name) := by
  rw [updated_eq _ (nodup_names_changes old new)]
  have h := changeFor_changes old new name
  cases hc : changeFor (changes old new) name with
  | none => exact changeFor_changes_eq_none_iff.mp hc
  | some value =>
    rw [hc] at h
    cases hn : last? new name with
    | none =>
      simp only [hn] at h
      obtain ⟨_, _, rfl⟩ := Option.map_eq_some_iff.mp h.symm
      exact Value.sameOption_refl none
    | some v =>
      simp only [hn] at h
      split at h
      · cases h
      · obtain ⟨w, hw, e⟩ := h
        obtain rfl := Option.some.inj e
        exact hw

/-- A change does not repeat what the old list has. -/
theorem not_sameOption_of_mem_changes {c : AttrChange} (hc : c ∈ changes old new) :
    ¬ Value.sameOption (last? old c.name) c.value := by
  intro hsame
  have hfor : changeFor (changes old new) c.name = some c.value :=
    changeFor_of_mem (nodup_names_changes old new) hc
  have hnew : Value.sameOption c.value (last? new c.name) := by
    have h := updated_changes old new c.name
    rwa [updated_eq _ (nodup_names_changes old new), hfor] at h
  rw [changeFor_changes_eq_none_iff.mpr (Value.sameOption_trans hsame hnew)] at hfor
  cases hfor

theorem settingOf_eq_some {a : Attr} {value : Option Value} (h : settingOf old new a = some value) :
    value = some a.value ∧ hasValue (last? new a.name) a.value = true ∧
      ¬ hasValue (last? old a.name) a.value = true := by
  unfold settingOf at h
  split at h
  · rename_i hboth
    rw [Bool.and_eq_true, Bool.not_eq_true'] at hboth
    exact ⟨(Option.some.inj h).symm, hboth.1, by simp [hboth.2]⟩
  · cases h

/-- A name that is set is noted where its final value first stands: the old list has none of the
    attributes with the final value. -/
theorem notedAt_settingOf {a : Attr} {value : Option Value} (h : settingOf old new a = some value) :
    notedAt (settingOf old new) new a.name = finalAt new a.name := by
  obtain ⟨-, hfinal, hold⟩ := settingOf_eq_some h
  unfold notedAt finalAt
  congr 1
  funext b
  by_cases e : b.name = a.name
  · rw [beq_iff_eq.mpr e, Bool.true_and, Bool.true_and, settingOf, e]
    by_cases hb : hasValue (last? new a.name) b.value = true
    · have hsame : Value.same b.value a.value = true :=
        Value.sameOption_trans (Value.sameOption_symm (hasValue_iff.mp hb)) (hasValue_iff.mp hfinal)
      have hno : ¬ hasValue (last? old a.name) b.value = true := fun hb' =>
        hold (hasValue_iff.mpr (Value.sameOption_trans (hasValue_iff.mp hb') hsame))
      simp [hb, hno]
    · simp [hb]
  · rw [beq_eq_false_iff_ne.mpr e, Bool.false_and, Bool.false_and]

/-- A name that is unset is noted where the old list first has it. -/
theorem notedAt_goneOf {a : Attr} {value : Option Value} (h : goneOf new a = some value) :
    value = none ∧ notedAt (goneOf new) old a.name = (names old).idxOf a.name := by
  unfold goneOf at h
  split at h
  · cases h
  · rename_i hnew
    refine ⟨(Option.some.inj h).symm, ?_⟩
    rw [notedAt, names, List.idxOf, List.findIdx_map]
    congr 1
    funext b
    by_cases e : b.name = a.name
    · simp [goneOf, e, hnew]
    · simp [e]

/-- **The changes between two attribute lists are the difference of their maps**, and there are none
    exactly when the maps are the same. -/
theorem attrs_difference (old new : List Attr) :
    IsDifference old new ((attrs old new).getD []) ∧
      (attrs old new = none ↔ ∀ name, Value.sameOption (last? old name) (last? new name)) := by
  refine ⟨⟨nodup_names_changes old new, updated_changes old new,
    fun _ => not_sameOption_of_mem_changes, ?_⟩, attrs_eq_none_iff.trans changes_eq_nil_iff⟩
  obtain ⟨set, hset⟩ := exists_noted (settingOf old new) new []
  obtain ⟨unset, hunset⟩ := exists_noted (goneOf new) old set
  have hsetAt : ∀ c ∈ set, notedAt (settingOf old new) new c.name = finalAt new c.name := by
    intro c hc
    obtain ⟨a, _, hname, hnote⟩ := hset.first c hc
    exact hname ▸ notedAt_settingOf hnote
  have hunsetAt : ∀ c ∈ unset,
      c.value = none ∧ notedAt (goneOf new) old c.name = (names old).idxOf c.name := by
    intro c hc
    obtain ⟨a, _, hname, hnote⟩ := hunset.first c hc
    exact hname ▸ notedAt_goneOf hnote
  refine ⟨set, unset, ?_, fun c hc => ?_, ?_, fun c hc => (hunsetAt c hc).1, ?_⟩
  · rw [← changes, changes_eq, hset.walk, List.nil_append, hunset.walk]
  · obtain ⟨a, ha, hname, hnote⟩ := hset.first c hc
    rw [hsetAt c hc] at ha
    refine ⟨a.value, (settingOf_eq_some hnote).1, ?_⟩
    rw [ha, ← hname]
  · refine hset.ordered.imp_of_mem fun {c d} hc hd hlt => ?_
    rwa [hsetAt c hc, hsetAt d hd] at hlt
  · refine hunset.ordered.imp_of_mem fun {c d} hc hd hlt => ?_
    rwa [(hunsetAt c hc).2, (hunsetAt d hd).2] at hlt

/-- Names that stand more than once: the set ones come by their final values. -/
example : attrs [⟨"a", .string "1"⟩, ⟨"b", .string "2"⟩, ⟨"c", .string "3"⟩]
    [⟨"d", .string "4"⟩, ⟨"b", .string "5"⟩, ⟨"d", .string "6"⟩, ⟨"c", .string "3"⟩,
      ⟨"b", .string "5"⟩] =
    some [⟨"b", some (.string "5")⟩, ⟨"d", some (.string "6")⟩, ⟨"a", none⟩] := by rfl

end

end Diff

end Trellis
