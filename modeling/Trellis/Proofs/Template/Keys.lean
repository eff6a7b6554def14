import Trellis.Proofs.Tree.Pairing
import Trellis.Template.Generate

/-!
# Repeated keys

`clearRepeats` goes through siblings with the set of the keys so far. What it makes of one of them
depends only on whether that one leads with its key, in the sense of an alignment of siblings
(`getElem?_clearRepeats`). So afterwards no key stands twice (`distinct_clearRepeats`).
-/

namespace Trellis

/-- A node as it is left when its key is cleared. -/
def VNode.unkeyed (v : VNode) : VNode := { v with key := "" }

theorem VNode.unkeyed_of_key {v : VNode} (h : v.key = "") : v.unkeyed = v := by
  obtain ⟨kind, tag, component, content, key, attrs, events, children, host⟩ := v
  subst h
  rfl

/-- The walk over siblings. The set holds the keys of `seen`. -/
theorem foldl_clearRepeats (vs : List VNode) {keys : Std.HashSet String} {seen : List String}
    (h : ∀ k, keys.contains k = seen.contains k) (acc : List VNode) :
    (vs.foldl clearRepeats.step (keys, acc)).2.reverse =
      acc.reverse ++ vs.zipWith (fun v mark => if mark = none then v.unkeyed else v)
        (Align.marksFrom seen (vs.map VNode.key)) := by
  induction vs generalizing keys seen acc with
  | nil => simp
  | cons v vs ih =>
    rw [List.foldl_cons, List.map_cons, clearRepeats.step, Align.marksFrom]
    by_cases hempty : v.key.isEmpty = true
    · have hkey : v.key = "" := String.isEmpty_iff.mp hempty
      rw [if_pos hempty, if_pos (by rw [hempty]; rfl), ih h]
      simp [VNode.unkeyed_of_key hkey]
    · rw [if_neg hempty]
      by_cases hseen : keys.contains v.key = true
      · have hmark : (v.key.isEmpty || seen.contains v.key) = true := by
          rw [← h, hseen, Bool.or_true]
        rw [if_pos hseen, if_pos hmark, ih h]
        simp [VNode.unkeyed]
      · have hmark : ¬ (v.key.isEmpty || seen.contains v.key) = true := by
          rw [← h, Bool.or_eq_true]
          exact not_or.mpr ⟨hempty, hseen⟩
        have hinsert : ∀ k, (keys.insert v.key).contains k = (v.key :: seen).contains k := by
          intro k
          rw [Std.HashSet.contains_insert, List.contains_cons, h, Bool.beq_comm]
        rw [if_neg hseen, if_neg hmark, ih hinsert]
        simp

/-- **A node keeps its key exactly when it is the first of its siblings that has it.** -/
theorem getElem?_clearRepeats (vs : List VNode) (i : Nat) :
    (clearRepeats vs)[i]? = vs[i]?.map fun v =>
      if Align.leads (vs.map VNode.key) i then v else v.unkeyed := by
  have hnone : ∀ k, (∅ : Std.HashSet String).contains k = ([] : List String).contains k := by simp
  rw [clearRepeats, foldl_clearRepeats vs hnone, List.reverse_nil, List.nil_append,
    List.getElem?_zipWith]
  have hmark := Align.getElem?_marks (vs.map VNode.key) i
  rw [Align.marks, List.getElem?_map] at hmark
  rw [hmark]
  cases vs[i]? with
  | none => rfl
  | some v => cases Align.leads (vs.map VNode.key) i <;> simp

theorem length_clearRepeats (vs : List VNode) : (clearRepeats vs).length = vs.length := by
  have hnone (i : Nat) : (clearRepeats vs)[i]? = none ↔ vs[i]? = none := by
    rw [getElem?_clearRepeats, Option.map_eq_none_iff]
  simp only [List.getElem?_eq_none_iff] at hnone
  exact Nat.le_antisymm ((hnone _).mpr (Nat.le_refl _)) ((hnone _).mp (Nat.le_refl _))

/-- Clearing keys leaves every node as it was or without its key. -/
theorem mem_clearRepeats {vs : List VNode} {v : VNode} (h : v ∈ clearRepeats vs) :
    ∃ w ∈ vs, v = w ∨ v = { w with key := "" } := by
  obtain ⟨i, hi⟩ := List.getElem?_of_mem h
  rw [getElem?_clearRepeats, Option.map_eq_some_iff] at hi
  obtain ⟨w, hw, rfl⟩ := hi
  refine ⟨w, List.mem_of_getElem? hw, ?_⟩
  split
  · exact .inl rfl
  · exact .inr rfl

/-- Nodes without keys keep what they have. -/
theorem clearRepeats_of_unkeyed {vs : List VNode} (h : ∀ v ∈ vs, v.key = "") :
    clearRepeats vs = vs := by
  apply List.ext_getElem?
  intro i
  rw [getElem?_clearRepeats]
  cases hi : vs[i]? with
  | none => rfl
  | some v =>
    rw [Option.map_some, VNode.unkeyed_of_key (h v (List.mem_of_getElem? hi)), ite_self]

/-- **Behind the walk no key stands twice.** -/
theorem distinct_clearRepeats (vs : List VNode) :
    Align.Distinct ((clearRepeats vs).map VNode.key) := by
  unfold Align.Distinct
  rw [List.pairwise_iff_getElem]
  intro i j hi hj hij hsame
  by_contra hne
  -- two nodes that kept one key would both be the first with it
  have hlead : ∀ n (hn : n < ((clearRepeats vs).map VNode.key).length),
      ((clearRepeats vs).map VNode.key)[n] ≠ "" →
        (vs.map VNode.key).idxOf? ((clearRepeats vs).map VNode.key)[n] = some n := by
    intro n hn hkey
    have hget := List.getElem?_eq_getElem hn
    rw [List.getElem?_map, getElem?_clearRepeats, Option.map_map, Option.map_eq_some_iff] at hget
    obtain ⟨v, hv, hval⟩ := hget
    rw [← hval] at hkey ⊢
    simp only [Function.comp_apply] at hkey ⊢
    split at hkey
    · rename_i hleads
      obtain ⟨k, _, hk⟩ := Align.leads_iff.mp hleads
      obtain ⟨hlt, hkn⟩ := Align.idxOf?_lt hk
      have hvn := List.getElem?_eq_getElem hlt
      rw [List.getElem?_map, hv, Option.map_some, hkn, Option.some.injEq] at hvn
      rw [if_pos hleads, hvn, hk]
    · exact absurd rfl hkey
  have hi' := hlead i hi hne
  have hj' := hlead j hj (hsame ▸ hne)
  rw [hsame, hj', Option.some.injEq] at hi'
  omega

end Trellis
