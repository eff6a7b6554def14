import Mathlib.Data.List.ReduceOption
import Mathlib.Data.List.Sort
import Trellis.Proofs.Tree.Difference

/-!
# Which items move

The moves of an alignment go through the new positions and keep the old items that have not come up yet
in line. So the items that come up without a move are the front of that line
(`Align.prefix_reduceOption`), and nothing but fresh items is inserted exactly when all of them come up
in old order (`Align.exists_moved_iff`).

* Where nothing moves at all, every item is its own counterpart (`Align.eq_range_of_isEmpty`).
* With distinct keys a replay ends with the keys of the new list (`Align.map_replay_align`), so that a
  second alignment has nothing to move.
-/

namespace Trellis

namespace Align

/-! ## 1. Insertions that are moves -/

/-- Whether an insertion takes an item from its old place. -/
def IsMove (ins : Insert) : Prop := ins.oldIndex ≠ none

/-- **Items that come up without a move are first in line, one after the other.** -/
theorem prefix_reduceOption {waiting : List Nat} {index : Nat} {sources : List (Option Nat)}
    (h : ∀ ins ∈ insertsFrom waiting index sources, ¬ IsMove ins) :
    sources.reduceOption <+: waiting := by
  fun_induction insertsFrom waiting index sources with
  | case1 waiting index => exact List.nil_prefix
  | case2 waiting index rest ih =>
    rw [List.reduceOption_cons_of_none]
    exact ih fun ins hins => h ins (List.mem_cons_of_mem _ hins)
  | case3 waiting index o rest hfirst ih =>
    obtain ⟨waiting, rfl⟩ := List.head?_eq_some_iff.mp hfirst
    rw [List.reduceOption_cons_of_some, List.prefix_cons_inj]
    exact ih h
  | case4 waiting index o rest hnot ih =>
    have hmove := h ⟨some o, index⟩ List.mem_cons_self
    exact absurd (Option.some_ne_none o) hmove

/-- Items that come up in the order of the line are not moved. -/
theorem not_isMove_of_reduceOption_eq {waiting : List Nat} {index : Nat} {sources : List (Option Nat)}
    (h : sources.reduceOption = waiting) :
    ∀ ins ∈ insertsFrom waiting index sources, ¬ IsMove ins := by
  subst h
  induction sources generalizing index with
  | nil => simp [insertsFrom]
  | cons s rest ih =>
    cases s with
    | none =>
      intro ins hins
      rw [List.reduceOption_cons_of_none, insertsFrom] at hins
      rcases List.mem_cons.mp hins with rfl | hins
      · simp [IsMove]
      · exact ih ins hins
    | some o =>
      intro ins hins
      rw [List.reduceOption_cons_of_some, insertsFrom, if_pos List.head?_cons, List.tail_cons] at hins
      exact ih ins hins

/-- The kept items come up in old order exactly when the counterparts of an earlier item stand
    earlier. -/
theorem Pairing.pairwise_reduceOption_iff {old new : List String} {children : List (Option Nat)}
    (h : Pairing old new children) :
    (sources children new.length).reduceOption.Pairwise (· < ·) ↔
      ∀ i j k l : Nat, i < j → children[i]? = some (some k) → children[j]? = some (some l) → k < l := by
  rw [List.reduceOption, List.pairwise_filterMap, sources, List.pairwise_map,
    List.pairwise_iff_getElem]
  simp only [List.length_range, List.getElem_range, id_eq, h.idxOf?_eq_some]
  constructor
  · intro hup i j k l hij hi hj
    rcases Nat.lt_trichotomy k l with hlt | rfl | hlt
    · exact hlt
    · exact absurd (h.injective hi hj) (Nat.ne_of_lt hij)
    · have := hup l k (h.lt_length hj) (h.lt_length hi) hlt j hj i hi
      omega
  · intro hup k l _ _ hkl i hi j hj
    rcases Nat.lt_trichotomy i j with hlt | rfl | hlt
    · exact hlt
    · have := Option.some.inj (Option.some.inj (hi.symm.trans hj))
      omega
    · have := hup j i l k hlt hj hi
      omega

/-- Kept items that come up in old order come up as they stand in line. -/
theorem Pairing.reduceOption_eq {old new : List String} {children : List (Option Nat)}
    (h : Pairing old new children)
    (hup : (sources children new.length).reduceOption.Pairwise (· < ·)) :
    (sources children new.length).reduceOption = keptFrom 0 children := by
  refine List.Perm.eq_of_pairwise' hup (pairwise_keptFrom 0 children) ?_
  refine (List.perm_ext_iff_of_nodup (hup.imp Nat.ne_of_lt)
    ((pairwise_keptFrom 0 children).imp Nat.ne_of_lt)).mpr fun o => ?_
  rw [List.reduceOption_mem_iff, h.mem_sources]

/-- **An item is moved exactly when some two kept items change their order.** -/
theorem exists_moved_iff (old new : List String) :
    (∃ ins ∈ (align old new).moves.inserts, IsMove ins) ↔
      ∃ i j k l : Nat, i < j ∧ l < k ∧ (align old new).children[i]? = some (some k) ∧
        (align old new).children[j]? = some (some l) := by
  have hp : Pairing old new (align old new).children := pairing_counterparts old new
  have hstill : (∀ ins ∈ (align old new).moves.inserts, ¬ IsMove ins) ↔
      (sources (align old new).children new.length).reduceOption.Pairwise (· < ·) := by
    constructor
    · intro h
      exact (pairwise_keptFrom 0 _).sublist (prefix_reduceOption h).sublist
    · intro h
      exact not_isMove_of_reduceOption_eq (hp.reduceOption_eq h)
  rw [hp.pairwise_reduceOption_iff] at hstill
  rw [← not_iff_not]
  refine Iff.trans ?_ (hstill.trans ?_)
  · simp only [not_exists, not_and]
  · constructor
    · rintro h ⟨i, j, k, l, hij, hlk, hi, hj⟩
      exact Nat.lt_asymm hlk (h i j k l hij hi hj)
    · intro h i j k l hij hi hj
      by_contra hkl
      have hne : k ≠ l := by
        rintro rfl
        exact Nat.ne_of_lt hij (hp.injective hi hj)
      exact h ⟨i, j, k, l, hij, by omega, hi, hj⟩

/-! ## 2. Nothing to do -/

/-- A replay without moves leaves every item where it stands. -/
theorem traced_of_isEmpty {m : Moves} (h : m.isEmpty = true) (old : List String) (fresh : Nat → String) :
    m.traced old fresh = Moves.start old := by
  unfold Moves.isEmpty at h
  rw [Bool.and_eq_true, List.isEmpty_iff, List.isEmpty_iff] at h
  obtain ⟨hremoves, hinserts⟩ := h
  rw [Moves.traced, hremoves, hinserts]
  rfl

/-- Without moves every item is its own counterpart. -/
theorem eq_range_of_isEmpty {old new : List String} (h : (align old new).moves.isEmpty = true) :
    old.length = new.length ∧ (align old new).children = (List.range new.length).map some := by
  have hp := pairing_counterparts old new
  have hlength := length_traced_align old new rfl fun _ => ""
  rw [traced_of_isEmpty h, Moves.start, List.length_map, List.length_zipIdx] at hlength
  refine ⟨hlength, ?_⟩
  apply List.ext_getElem?
  intro k
  by_cases hk : k < new.length
  · have htraced := getElem?_traced_align old new rfl (fun _ => "") hk
    rw [traced_of_isEmpty h, Moves.start, List.getElem?_map, List.getElem?_zipIdx,
      List.getElem?_eq_getElem (hlength ▸ hk)] at htraced
    have hchild : (counterparts old new)[k]? = some (some k) := by
      cases hidx : (counterparts old new).idxOf? (some k) with
      | none =>
        rw [hidx] at htraced
        simp at htraced
      | some i =>
        have hi := hp.idxOf?_eq_some.mp hidx
        have hlt : i < old.length := hp.length ▸ (List.getElem?_eq_some_iff.mp hi).1
        rw [hidx] at htraced
        simp only [List.getElem?_eq_getElem hlt, Option.map_some, Option.some.injEq, Prod.mk.injEq,
          Nat.zero_add] at htraced
        obtain ⟨rfl, -⟩ := htraced
        exact hi
    rw [List.getElem?_map, List.getElem?_range hk]
    exact hchild
  · have hle : new.length ≤ k := Nat.le_of_not_lt hk
    have hchildren : (align old new).children.length = new.length := hp.length.trans hlength
    rw [List.getElem?_eq_none (hchildren ▸ hle), List.getElem?_eq_none]
    rw [List.length_map, List.length_range]
    exact hle

/-! ## 3. A second alignment -/

universe u
variable {α : Type u}

/-- **With distinct keys a replay ends with the keys of the new list.** -/
theorem map_replay_align {key : α → String} {old new : List α} (hold : Distinct (old.map key))
    (hnew : Distinct (new.map key)) {fresh : Nat → α}
    (hfresh : ∀ (k : Nat) (a : α), new[k]? = some a → fresh k = a) :
    ((align (old.map key) (new.map key)).moves.replay old fresh).map key = new.map key := by
  have hlen : old.length = (old.map key).length := (List.length_map key).symm
  have hlength := length_replay_align _ (new.map key) hlen fresh
  have hp := pairing_counterparts (old.map key) (new.map key)
  apply List.ext_getElem?
  intro k
  by_cases hk : k < (new.map key).length
  · have hreplay := getElem?_replay_align _ (new.map key) hlen fresh hk
    rw [List.getElem?_map, hreplay]
    cases hidx : (counterparts (old.map key) (new.map key)).idxOf? (some k) with
    | none =>
      have hget := List.getElem?_eq_getElem (List.length_map key ▸ hk)
      simp only [List.getElem?_map, hget, hfresh k _ hget, Option.map_some]
    | some i =>
      obtain ⟨name, hi, hkey, _⟩ := (hp.getElem?_iff hold hnew).mp (hp.idxOf?_eq_some.mp hidx)
      rw [List.getElem?_map] at hi
      rw [hkey]
      exact hi
  · rw [Nat.not_lt] at hk
    rw [List.getElem?_eq_none hk, List.getElem?_eq_none]
    rw [List.length_map, hlength]
    exact hk

/-- **An alignment moves nothing that keeps its place.** An item is moved exactly when some two kept
    items change their order; lists with the same keys pair up position by position and nothing moves;
    and where no key stands twice, the list that the moves lead to has nothing more to move. -/
theorem align_moves_disordered (key : α → String) (old new : List α) :
    let a := align (old.map key) (new.map key)
    ((∃ ins ∈ a.moves.inserts, ins.oldIndex ≠ none) ↔
      ∃ i j k l : Nat, i < j ∧ l < k ∧ a.children[i]? = some (some k) ∧
        a.children[j]? = some (some l)) ∧
    (old.map key = new.map key →
      a.children = (List.range old.length).map some ∧ a.moves.isEmpty = true) ∧
    (Distinct (old.map key) → Distinct (new.map key) →
      ∀ fresh : Nat → α, (∀ (k : Nat) (x : α), new[k]? = some x → fresh k = x) →
        (align ((a.moves.replay old fresh).map key) (new.map key)).moves.isEmpty = true) := by
  intro a
  refine ⟨exists_moved_iff _ _, ?_, ?_⟩
  · intro hkeys
    have hself := align_self (old.map key)
    rw [List.length_map] at hself
    have ha : a = align (old.map key) (old.map key) := congrArg (align (old.map key)) hkeys.symm
    rw [ha]
    exact hself
  · intro hold hnew fresh hfresh
    rw [map_replay_align hold hnew hfresh]
    exact (align_self _).2

/-- A list in which two items change their order, one goes and one is new, and lists that differ in
    what is not a key. -/
theorem moves_rotated_and_renamed :
    let old := ["a", "", "b", "c"]
    let new := ["c", "a", "d", ""]
    (∃ ins ∈ (align old new).moves.inserts, ins.oldIndex ≠ none) ∧
      (align ((align old new).moves.replay old fun k => new.getD k "") new).moves.isEmpty = true ∧
      (align ([("", 1), ("a", 2), ("a", 3)].map Prod.fst)
        ([("", 4), ("a", 5), ("a", 6)].map Prod.fst)).moves.isEmpty = true := by
  have hrotated := align_moves_disordered id ["a", "", "b", "c"] ["c", "a", "d", ""]
  have hrenamed := align_moves_disordered Prod.fst [("", 1), ("a", 2), ("a", 3)]
    [("", 4), ("a", 5), ("a", 6)]
  simp only [List.map_id_fun, id_eq] at hrotated
  refine ⟨hrotated.1.mpr ⟨0, 3, 1, 0, by decide⟩, ?_, (hrenamed.2.1 rfl).2⟩
  refine hrotated.2.2 (by unfold Distinct; decide) (by unfold Distinct; decide) _ fun k x hk => ?_
  rw [List.getD_eq_getElem?_getD, hk, Option.getD_some]

end Align

end Trellis
