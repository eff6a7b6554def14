import Mathlib.Data.List.Nodup
import Trellis.Tree.Align

/-!
# Which siblings pair up

`Align.counterparts` walks through the old keys once. `Pairing` says what comes of it, without the walk:

* an item LEADS with a key when it is the first one of its list that has this key; leads of one key
  pair up, and a lead whose key the other list does not have stays alone (`Pairing.byKey`);
* all other items -- no key, or a key that stood before -- pair up in order, the first with the
  first, until one side has none left (`Pairing.inOrder`).

From these two everything else about the pairs follows; `Pairing.injective` is such a consequence. Where
no key stands twice (`Distinct`), the pairs are those with the same key, and those without a key that
stand behind as many others (`Pairing.getElem?_iff`).
-/

namespace Trellis.Align

/-! ## 1. Leads and the others -/

/-- Whether the item at a position is the first one with its key. -/
def leads (keys : List String) (i : Nat) : Bool :=
  match keys[i]? with
  | some k => !k.isEmpty && !(keys.take i).contains k
  | none => false

/-- The positions of the items that lead with no key, in order. -/
def others (keys : List String) : List Nat := (List.range keys.length).filter fun i => !leads keys i

/-- **What it means to pair up two lists of siblings**, given by their keys. -/
structure Pairing (old new : List String) (children : List (Option Nat)) : Prop where
  length : children.length = old.length
  byKey : ∀ (k : String) (i : Nat), k ≠ "" → old.idxOf? k = some i → children[i]? = some (new.idxOf? k)
  inOrder : ∀ j i : Nat, (others old)[j]? = some i → children[i]? = some (others new)[j]?

theorem idxOf?_lt {l : List String} {k : String} {i : Nat} (h : l.idxOf? k = some i) :
    ∃ hi : i < l.length, l[i] = k := by
  obtain ⟨hi, e, _⟩ := List.idxOf?_eq_some_iff.mp h
  exact ⟨hi, by simpa using e⟩

/-- A lead is where the search for its key ends. -/
theorem leads_iff {keys : List String} {i : Nat} :
    leads keys i = true ↔ ∃ k, k ≠ "" ∧ keys.idxOf? k = some i := by
  unfold leads
  cases hk : keys[i]? with
  | none =>
    refine ⟨fun h => absurd h Bool.false_ne_true, fun ⟨k, _, h⟩ => ?_⟩
    obtain ⟨hi, _⟩ := idxOf?_lt h
    rw [List.getElem?_eq_none_iff] at hk
    omega
  | some k =>
    obtain ⟨hi, rfl⟩ := List.getElem?_eq_some_iff.mp hk
    have hbefore : (keys.take i).contains keys[i] = false ↔ ∀ j (hj : j < i), keys[j] ≠ keys[i] := by
      rw [← Bool.not_eq_true, List.contains_iff_mem]
      simp only [List.mem_take_iff_getElem, not_exists]
      exact ⟨fun h j hj => h j (by omega), fun h j hj => h j (by omega)⟩
    have hempty : keys[i].isEmpty = false ↔ keys[i] ≠ "" := by
      rw [← Bool.not_eq_true, String.isEmpty_iff]
    rw [Bool.and_eq_true, Bool.not_eq_true', Bool.not_eq_true', hempty, hbefore]
    constructor
    · rintro ⟨hne, hb⟩
      exact ⟨keys[i], hne, List.idxOf?_eq_some_iff.mpr ⟨hi, rfl, fun j hj => by simpa using hb j hj⟩⟩
    · rintro ⟨k, hne, h⟩
      obtain ⟨_, rfl⟩ := idxOf?_lt h
      obtain ⟨_, _, hb⟩ := List.idxOf?_eq_some_iff.mp h
      exact ⟨hne, fun j hj => by simpa using hb j hj⟩

theorem mem_others {keys : List String} {i : Nat} :
    i ∈ others keys ↔ i < keys.length ∧ leads keys i = false := by
  rw [others, List.mem_filter, List.mem_range]
  simp

theorem nodup_others (keys : List String) : (others keys).Nodup :=
  List.Nodup.filter _ List.nodup_range

/-- Every item leads with a key or is among the others. -/
theorem lead_or_other {keys : List String} {i : Nat} (hi : i < keys.length) :
    (∃ k, k ≠ "" ∧ keys.idxOf? k = some i) ∨ ∃ j : Nat, (others keys)[j]? = some i := by
  cases h : leads keys i with
  | true => exact .inl (leads_iff.mp h)
  | false => exact .inr (List.getElem?_of_mem (mem_others.mpr ⟨hi, h⟩))

namespace Pairing

variable {old new : List String} {children : List (Option Nat)}

/-- A counterpart is found by the key of a lead or by the order of the others. -/
theorem cases_of_some (h : Pairing old new children) {i n : Nat} (hc : children[i]? = some (some n)) :
    (∃ k, k ≠ "" ∧ old.idxOf? k = some i ∧ new.idxOf? k = some n) ∨
      ∃ j : Nat, (others old)[j]? = some i ∧ (others new)[j]? = some n := by
  have hi : i < old.length := h.length ▸ (List.getElem?_eq_some_iff.mp hc).1
  rcases lead_or_other hi with ⟨k, hk, e⟩ | ⟨j, e⟩
  · have := (h.byKey k i hk e).symm.trans hc
    exact .inl ⟨k, hk, e, Option.some.inj this⟩
  · have := (h.inOrder j i e).symm.trans hc
    exact .inr ⟨j, e, Option.some.inj this⟩

/-- A counterpart is a position of the new list. -/
theorem lt_length (h : Pairing old new children) {i n : Nat} (hc : children[i]? = some (some n)) :
    n < new.length := by
  rcases h.cases_of_some hc with ⟨k, _, _, e⟩ | ⟨j, _, e⟩
  · exact (idxOf?_lt e).1
  · exact (mem_others.mp (List.mem_of_getElem? e)).1

/-- **No two items have the same counterpart.** -/
theorem injective (h : Pairing old new children) {i i' n : Nat} (hc : children[i]? = some (some n))
    (hc' : children[i']? = some (some n)) : i = i' := by
  have other_not_lead : ∀ {k : String} {j : Nat}, k ≠ "" → new.idxOf? k = some n →
      (others new)[j]? = some n → False := by
    intro k j hk e e'
    have hl := (mem_others.mp (List.mem_of_getElem? e')).2
    rw [leads_iff.mpr ⟨k, hk, e⟩] at hl
    cases hl
  rcases h.cases_of_some hc with ⟨k, hk, ei, en⟩ | ⟨j, ei, en⟩ <;>
    rcases h.cases_of_some hc' with ⟨k', hk', ei', en'⟩ | ⟨j', ei', en'⟩
  · obtain ⟨_, rfl⟩ := idxOf?_lt en
    obtain ⟨_, rfl⟩ := idxOf?_lt en'
    exact Option.some.inj (ei.symm.trans ei')
  · exact (other_not_lead hk en en').elim
  · exact (other_not_lead hk' en' en).elim
  · have hj : j = j' := by
      obtain ⟨hlt, e⟩ := List.getElem?_eq_some_iff.mp en
      obtain ⟨hlt', e'⟩ := List.getElem?_eq_some_iff.mp en'
      exact (nodup_others new).getElem_inj_iff.mp (e.trans e'.symm)
    subst hj
    exact Option.some.inj (ei.symm.trans ei')

end Pairing

/-! ## 2. The walk through the old keys -/

theorem length_marksFrom (seen keys : List String) : (marksFrom seen keys).length = keys.length := by
  induction keys generalizing seen with
  | nil => rfl
  | cons k rest ih =>
    rw [marksFrom]
    split <;> simp [ih]

theorem getElem?_marksFrom (seen keys : List String) (i : Nat) :
    (marksFrom seen keys)[i]? = keys[i]?.map fun k =>
      if k.isEmpty || seen.contains k || (keys.take i).contains k then none else some k := by
  induction keys generalizing seen i with
  | nil => rfl
  | cons k rest ih =>
    cases i with
    | zero =>
      rw [marksFrom]
      split <;> simp_all
    | succ i =>
      rw [marksFrom]
      split
      · rename_i h
        rw [List.getElem?_cons_succ, List.getElem?_cons_succ, ih]
        congr 1
        funext k'
        -- a key that is empty or was seen is not new to the walk
        have hk : (k'.isEmpty || seen.contains k' || (rest.take i).contains k')
            = (k'.isEmpty || seen.contains k' || (k :: rest.take i).contains k') := by
          by_cases e : k' = k
          · rw [e, h, Bool.true_or, Bool.true_or]
          · simp [e]
        rw [List.take_succ_cons, hk]
      · rw [List.getElem?_cons_succ, List.getElem?_cons_succ, ih]
        congr 1
        funext k'
        have hk : (k'.isEmpty || (k :: seen).contains k' || (rest.take i).contains k')
            = (k'.isEmpty || seen.contains k' || (k :: rest.take i).contains k') := by
          by_cases e : k' = k <;> simp [e]
        rw [List.take_succ_cons, hk]

/-- The mark of an item is its key if it leads with it. -/
theorem getElem?_marks (keys : List String) (i : Nat) :
    (marks keys)[i]? = keys[i]?.map fun k => if leads keys i then some k else none := by
  rw [marks, getElem?_marksFrom, leads]
  cases hk : keys[i]? with
  | none => rfl
  | some k =>
    simp only [Option.map_some]
    split <;> split <;> simp_all

theorem getElem?_marks_eq_some {keys : List String} {k : String} {i : Nat} :
    (marks keys)[i]? = some (some k) ↔ k ≠ "" ∧ keys.idxOf? k = some i := by
  rw [getElem?_marks]
  constructor
  · intro h
    obtain ⟨k', hk', e⟩ := Option.map_eq_some_iff.mp h
    split at e
    · rename_i hl
      obtain rfl := Option.some.inj e
      obtain ⟨k'', hne, hi⟩ := leads_iff.mp hl
      obtain ⟨hlt, rfl⟩ := idxOf?_lt hi
      obtain ⟨_, rfl⟩ := List.getElem?_eq_some_iff.mp hk'
      exact ⟨hne, hi⟩
    · cases e
  · rintro ⟨hne, hi⟩
    obtain ⟨hlt, rfl⟩ := idxOf?_lt hi
    rw [List.getElem?_eq_getElem hlt, Option.map_some, if_pos (leads_iff.mpr ⟨_, hne, hi⟩)]

theorem getElem?_marks_eq_none {keys : List String} {i : Nat} :
    (marks keys)[i]? = some none ↔ i < keys.length ∧ leads keys i = false := by
  rw [getElem?_marks]
  constructor
  · intro h
    obtain ⟨k, hk, e⟩ := Option.map_eq_some_iff.mp h
    refine ⟨(List.getElem?_eq_some_iff.mp hk).1, ?_⟩
    split at e
    · cases e
    · rename_i hl
      simpa using hl
  · rintro ⟨hi, hl⟩
    rw [List.getElem?_eq_getElem hi, Option.map_some, hl]
    rfl

/-- The position of a mark is the first position of the key. -/
theorem idxOf?_marks {keys : List String} {k : String} (hk : k ≠ "") :
    (marks keys).idxOf? (some k) = keys.idxOf? k := by
  cases h : keys.idxOf? k with
  | none =>
    rw [List.idxOf?_eq_none_iff] at h ⊢
    intro hm
    obtain ⟨i, hi⟩ := List.getElem?_of_mem hm
    obtain ⟨hlt, e⟩ := idxOf?_lt (getElem?_marks_eq_some.mp hi).2
    exact h (e ▸ List.getElem_mem hlt)
  | some i =>
    obtain ⟨hlt, e⟩ := List.getElem?_eq_some_iff.mp (getElem?_marks_eq_some.mpr ⟨hk, h⟩)
    refine List.idxOf?_eq_some_iff.mpr ⟨hlt, by simpa using e, fun j hj => ?_⟩
    intro ej
    have hj' : (marks keys)[j]? = some (some k) :=
      List.getElem?_eq_some_iff.mpr ⟨by omega, by simpa using ej⟩
    have := (getElem?_marks_eq_some.mp hj').2.symm.trans h
    rw [Option.some.injEq] at this
    omega

theorem freeFrom_eq (a : Nat) (ms : List (Option String)) :
    freeFrom a ms = ((List.range ms.length).filter fun i => ms[i]? == some none).map (a + ·) := by
  induction ms generalizing a with
  | nil => rfl
  | cons m rest ih =>
    have hshift : ((List.range rest.length).map Nat.succ).filter
        (fun i => (m :: rest)[i]? == some none) =
        ((List.range rest.length).filter fun i => rest[i]? == some none).map Nat.succ := by
      rw [List.filter_map]
      rfl
    rw [List.length_cons, List.range_succ_eq_map, List.filter_cons, hshift]
    cases m with
    | none =>
      rw [freeFrom, ih]
      simp [Function.comp_def, Nat.add_right_comm, Nat.add_assoc]
    | some k =>
      rw [freeFrom, ih]
      simp [Function.comp_def, Nat.add_right_comm, Nat.add_assoc]

/-- The free positions are those of the items that lead with no key. -/
theorem freeFrom_marks (keys : List String) : freeFrom 0 (marks keys) = others keys := by
  rw [freeFrom_eq, others, marks, length_marksFrom]
  simp only [Nat.zero_add, List.map_id']
  refine List.filter_congr fun i hi => ?_
  have h := @getElem?_marks_eq_none keys i
  rw [marks] at h
  rw [Bool.eq_iff_iff, beq_iff_eq, h, Bool.not_eq_true']
  exact and_iff_right (List.mem_range.mp hi)

theorem length_pair (position : String → Option Nat) (ms : List (Option String)) (free : List Nat) :
    (pair position ms free).length = ms.length := by
  fun_induction pair position ms free <;> simp_all

theorem getElem?_pair_some (position : String → Option Nat) {ms : List (Option String)}
    (free : List Nat) {i : Nat} {k : String} (h : ms[i]? = some (some k)) :
    (pair position ms free)[i]? = some (position k) := by
  induction ms generalizing i free with
  | nil => cases h
  | cons m rest ih =>
    cases i with
    | zero =>
      obtain rfl : m = some k := Option.some.inj h
      rfl
    | succ i =>
      rw [List.getElem?_cons_succ] at h
      cases m with
      | some _ => exact ih free h
      | none =>
        cases free with
        | nil => exact ih [] h
        | cons n free => exact ih free h

/-- The walk hands the free new positions out in order. -/
theorem getElem?_pair_none (position : String → Option Nat) {ms : List (Option String)}
    (free : List Nat) {a i j : Nat} (h : (freeFrom a ms)[j]? = some i) :
    a ≤ i ∧ (pair position ms free)[i - a]? = some free[j]? := by
  induction ms generalizing a j free with
  | nil => cases h
  | cons m rest ih =>
    cases m with
    | some k =>
      rw [freeFrom] at h
      obtain ⟨hle, e⟩ := ih free h
      refine ⟨by omega, ?_⟩
      rw [pair, show i - a = (i - (a + 1)) + 1 by omega, List.getElem?_cons_succ, e]
    | none =>
      rw [freeFrom] at h
      cases j with
      | zero =>
        obtain rfl : a = i := Option.some.inj h
        cases free <;> simp [pair]
      | succ j =>
        rw [List.getElem?_cons_succ] at h
        obtain ⟨hle, e⟩ := ih free.tail h
        refine ⟨by omega, ?_⟩
        rw [show i - a = (i - (a + 1)) + 1 by omega]
        cases free with
        | nil => rw [pair, List.getElem?_cons_succ]; exact e
        | cons n free => rw [pair, List.getElem?_cons_succ]; exact e

/-- **The walk pairs the two lists up.** -/
theorem pairing_counterparts (old new : List String) : Pairing old new (counterparts old new) where
  length := by rw [counterparts, length_pair, marks, length_marksFrom]
  byKey k i hk hi := by
    rw [counterparts, getElem?_pair_some _ _ (getElem?_marks_eq_some.mpr ⟨hk, hi⟩), idxOf?_marks hk]
  inOrder j i hj := by
    rw [← freeFrom_marks] at hj
    have := (getElem?_pair_none (fun k => (marks new).idxOf? (some k)) (freeFrom 0 (marks new)) hj).2
    rw [freeFrom_marks, Nat.sub_zero] at this
    rw [counterparts, freeFrom_marks]
    exact this

/-! ## 3. Distinct keys -/

/-- No key stands twice; any number of items have none. -/
def Distinct (keys : List String) : Prop := keys.Pairwise fun a b => a = b → a = ""

theorem Distinct.idxOf?_eq {keys : List String} (h : Distinct keys) {i : Nat} {k : String}
    (hi : keys[i]? = some k) (hk : k ≠ "") : keys.idxOf? k = some i := by
  obtain ⟨hlt, e⟩ := List.getElem?_eq_some_iff.mp hi
  refine List.idxOf?_eq_some_iff.mpr ⟨hlt, e, fun j hj ej => ?_⟩
  exact hk (ej ▸ List.pairwise_iff_getElem.mp h j i _ hlt hj (ej.trans e.symm))

/-- With distinct keys the items that lead are those with a key. -/
theorem Distinct.leads_eq_false_iff {keys : List String} (h : Distinct keys) {i : Nat} {k : String}
    (hi : keys[i]? = some k) : leads keys i = false ↔ k = "" := by
  rw [← Bool.not_eq_true, leads_iff, not_exists]
  constructor
  · intro hall
    by_contra hk
    exact hall k ⟨hk, h.idxOf?_eq hi hk⟩
  · rintro rfl k ⟨hk, hidx⟩
    obtain ⟨hlt, e⟩ := idxOf?_lt hidx
    rw [List.getElem?_eq_getElem hlt, Option.some.injEq] at hi
    exact hk (e.symm.trans hi)

/-- As many of the others stand before a position as items without a key. -/
theorem Distinct.length_others_before {keys : List String} (h : Distinct keys) {i : Nat}
    (hi : i ≤ keys.length) :
    ((List.range i).filter fun n => !leads keys n).length = (keys.take i).count "" := by
  induction i with
  | zero => rfl
  | succ i ih =>
    have hget := List.getElem?_eq_getElem hi
    rw [List.range_succ, List.filter_append, List.length_append, ih (Nat.le_of_succ_le hi),
      List.take_add_one, List.count_append, hget]
    congr 1
    by_cases hk : keys[i] = ""
    · rw [List.filter_singleton, (h.leads_eq_false_iff hget).mpr hk, hk]
      rfl
    · have hlead : leads keys i = true := by
        rw [← Bool.not_eq_false, h.leads_eq_false_iff hget]
        exact hk
      simp [hlead, hk]

/-- Where an item without a key stands among the others. -/
theorem Distinct.getElem?_others {keys : List String} (h : Distinct keys) {i : Nat}
    (hi : keys[i]? = some "") : (others keys)[(keys.take i).count ""]? = some i := by
  have hlt := (List.getElem?_eq_some_iff.mp hi).1
  obtain ⟨n, hn⟩ := Nat.exists_eq_add_of_lt hlt
  have hrange : List.range keys.length = List.range i ++ (List.range (n + 1)).map (i + ·) := by
    rw [hn, Nat.add_assoc, List.range_add]
  have hkeep : (!leads keys (i + 0)) = true := by
    rw [Nat.add_zero, (h.leads_eq_false_iff hi).mpr rfl]
    rfl
  rw [others, hrange, List.filter_append, ← h.length_others_before (Nat.le_of_lt hlt),
    List.getElem?_append_right (Nat.le_refl _), Nat.sub_self, List.range_succ_eq_map, List.map_cons,
    List.filter_cons, if_pos hkeep, List.getElem?_cons_zero, Nat.add_zero]

/-- **With distinct keys, items pair up that have the same key, and those without a key in order.** -/
theorem Pairing.getElem?_iff {old new : List String} {children : List (Option Nat)}
    (h : Pairing old new children) (hold : Distinct old) (hnew : Distinct new) {i j : Nat} :
    children[i]? = some (some j) ↔
      ∃ k, old[i]? = some k ∧ new[j]? = some k ∧
        (k = "" → (old.take i).count "" = (new.take j).count "") := by
  constructor
  · intro hc
    have hi : i < old.length := h.length ▸ (List.getElem?_eq_some_iff.mp hc).1
    have hk := List.getElem?_eq_getElem hi
    by_cases hne : old[i] = ""
    · rw [hne] at hk
      have hpair := (h.inOrder _ i (hold.getElem?_others hk)).symm.trans hc
      have hj := Option.some.inj hpair
      obtain ⟨hlt, hlead⟩ := mem_others.mp (List.mem_of_getElem? hj)
      have hnone := (hnew.leads_eq_false_iff (List.getElem?_eq_getElem hlt)).mp hlead
      have hk' : new[j]? = some "" := hnone ▸ List.getElem?_eq_getElem hlt
      refine ⟨"", hk, hk', fun _ => ?_⟩
      exact (List.getElem?_inj (List.getElem?_eq_some_iff.mp hj).1 (nodup_others new)).mp
        (hj.trans (hnew.getElem?_others hk').symm)
    · have hpair := (h.byKey _ i hne (hold.idxOf?_eq hk hne)).symm.trans hc
      obtain ⟨hlt, e⟩ := idxOf?_lt (Option.some.inj hpair)
      exact ⟨_, hk, e ▸ List.getElem?_eq_getElem hlt, fun e => absurd e hne⟩
  · rintro ⟨k, hk, hk', hcount⟩
    by_cases hne : k = ""
    · subst hne
      rw [h.inOrder _ i (hold.getElem?_others hk), hcount rfl, hnew.getElem?_others hk']
    · rw [h.byKey k i hne (hold.idxOf?_eq hk hne), hnew.idxOf?_eq hk' hne]

end Trellis.Align
