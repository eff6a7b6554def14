import Trellis.Proofs.Tree.Pairing

/-!
# What the moves of an alignment make of the old list

`Moves.replay` takes away and puts in one item at a time, each at a position of the list as it stands by
then. For the moves of an alignment the list has, all the time, two parts:

* in front the items of the new list up to the position at hand, in their final order;
* behind them the old items that have not come up yet, in OLD order (`foldl_insertsFrom`).

So an item that is first in line is in its place without a move, and in the end the second part is
empty.
-/

namespace Trellis

namespace Moves

universe u
variable {α : Type u} {fresh : Nat → α}

/-! ## 1. One step of a replay -/

/-- What the moves make of a list, each item with the old position that it comes from. -/
def traced (m : Moves) (old : List α) (fresh : Nat → α) : Live α :=
  m.inserts.foldl (insertStep fresh) (m.removes.foldl removeAt (start old))

theorem replay_eq (m : Moves) (old : List α) (fresh : Nat → α) :
    m.replay old fresh = (m.traced old fresh).map Prod.snd := rfl

theorem putAt_length (front back : Live α) (item : Option Nat × α) :
    putAt (front ++ back) front.length item = front ++ item :: back := by
  have h : min front.length (front ++ back).length = front.length := by
    rw [List.length_append]
    omega
  rw [putAt, h]
  clear h
  induction front with
  | nil => rfl
  | cons p front ih => exact congrArg (p :: ·) ih

theorem find?_append {front : Live α} {old : Nat} (h : ∀ p ∈ front, p.1 ≠ some old) (a : α)
    (back : Live α) : find? (front ++ (some old, a) :: back) old = some front.length := by
  rw [find?, List.findIdx?_append, List.findIdx?_eq_none_iff.mpr (by simpa using h),
    List.findIdx?_cons]
  simp

/-- Moving an item takes it out where it stands and puts it in at the position. -/
theorem insertStep_moved {front : Live α} {old : Nat} (h : ∀ p ∈ front, p.1 ≠ some old) (a : α)
    (back : Live α) (index : Nat) :
    insertStep fresh (front ++ (some old, a) :: back) ⟨some old, index⟩ =
      putAt (front ++ back) index (some old, a) := by
  have herase : (front ++ (some old, a) :: back).eraseIdx front.length = front ++ back := by
    rw [List.eraseIdx_append_of_length_le (Nat.le_refl _), Nat.sub_self]
    rfl
  simp [insertStep, find?_append h, herase]

end Moves

namespace Align

universe u
variable {α : Type u}

/-! ## 2. Removals -/

theorem keptFrom_eq (a : Nat) (children : List (Option Nat)) :
    keptFrom a children = ((children.zipIdx a).filter fun p => p.1.isSome).map Prod.snd := by
  induction children generalizing a with
  | nil => rfl
  | cons c rest ih => cases c <;> simp [keptFrom, ih]

theorem droppedFrom_eq (a : Nat) (children : List (Option Nat)) :
    droppedFrom a children = ((children.zipIdx a).filter fun p => p.1.isNone).map Prod.snd := by
  induction children generalizing a with
  | nil => rfl
  | cons c rest ih => cases c <;> simp [droppedFrom, ih]

theorem mem_keptFrom {i : Nat} {children : List (Option Nat)} :
    i ∈ keptFrom 0 children ↔ ∃ n, children[i]? = some (some n) := by
  rw [keptFrom_eq]
  simp [List.mem_zipIdx_iff_getElem?, Option.isSome_iff_exists]

theorem mem_droppedFrom {i : Nat} {children : List (Option Nat)} :
    i ∈ droppedFrom 0 children ↔ children[i]? = some none := by
  rw [droppedFrom_eq]
  simp [List.mem_zipIdx_iff_getElem?]

theorem pairwise_filter_zipIdx (p : Option Nat × Nat → Bool) (a : Nat) (children : List (Option Nat)) :
    (((children.zipIdx a).filter p).map Prod.snd).Pairwise (· < ·) := by
  have h : ((children.zipIdx a).map Prod.snd).Pairwise (· < ·) := by
    rw [List.zipIdx_map_snd]
    exact List.pairwise_lt_range'
  exact h.sublist (List.filter_sublist.map _)

theorem pairwise_keptFrom (a : Nat) (children : List (Option Nat)) :
    (keptFrom a children).Pairwise (· < ·) :=
  keptFrom_eq a children ▸ pairwise_filter_zipIdx _ a children

theorem pairwise_droppedFrom (a : Nat) (children : List (Option Nat)) :
    (droppedFrom a children).Pairwise (· < ·) :=
  droppedFrom_eq a children ▸ pairwise_filter_zipIdx _ a children

/-- Removing from the highest position down leaves the items that have a counterpart. -/
theorem foldl_removeAt (entry : Nat → Option Nat × α) (children : List (Option Nat))
    (front : Moves.Live α) :
    (droppedFrom front.length children).reverse.foldl Moves.removeAt
        (front ++ (List.range' front.length children.length).map entry) =
      front ++ (keptFrom front.length children).map entry := by
  induction children generalizing front with
  | nil => rfl
  | cons c rest ih =>
    have hih := ih (front ++ [entry front.length])
    rw [List.length_append, List.length_singleton] at hih
    have hlist : front ++ (List.range' front.length (c :: rest).length).map entry =
        front ++ [entry front.length] ++ (List.range' (front.length + 1) rest.length).map entry := by
      rw [List.length_cons, List.range'_succ, List.map_cons, List.append_assoc]
      rfl
    rw [hlist]
    cases c with
    | some n =>
      rw [droppedFrom, keptFrom, hih, List.append_assoc]
      rfl
    | none =>
      rw [droppedFrom, keptFrom, List.reverse_cons, List.foldl_append, hih, List.append_assoc]
      show (front ++ _).eraseIdx front.length = _
      rw [List.eraseIdx_append_of_length_le (Nat.le_refl _), Nat.sub_self]
      rfl

/-! ## 3. Insertions -/

/-- The entry of the replayed list at a new position, given the old position that it is the
    counterpart of. -/
def entryAt (item fresh : Nat → α) (k : Nat) : Option Nat → Option Nat × α
  | some o => (some o, item o)
  | none => (none, fresh k)

/-- **The invariant of the insertions.** `front` is the new list so far, `waiting` are the kept old
    positions that come up among `sources`, each once. -/
structure Waits (waiting : List Nat) (sources : List (Option Nat)) (front : Moves.Live α) :
    Prop where
  nodup : waiting.Nodup
  mem : ∀ o, o ∈ waiting ↔ some o ∈ sources
  once : sources.Pairwise fun s t => s = none ∨ s ≠ t
  apart : ∀ o ∈ waiting, ∀ p ∈ front, p.1 ≠ some o

section

variable {waiting before after : List Nat} {rest : List (Option Nat)} {front : Moves.Live α} {o : Nat}

/-- A new item comes up. -/
theorem Waits.fresh (h : Waits waiting (none :: rest) front) (a : α) :
    Waits waiting rest (front ++ [(none, a)]) := by
  refine ⟨h.nodup, fun o => ?_, (List.pairwise_cons.mp h.once).2, fun o ho p hp => ?_⟩
  · rw [h.mem o, List.mem_cons]
    simp
  · rcases List.mem_append.mp hp with hp | hp
    · exact h.apart o ho p hp
    · rw [List.mem_singleton.mp hp]
      simp

/-- A kept item comes up: its position is no longer waited for. -/
theorem Waits.kept (h : Waits (before ++ o :: after) (some o :: rest) front)
    (hbefore : o ∉ before) (a : α) : Waits (before ++ after) rest (front ++ [(some o, a)]) := by
  obtain ⟨hhead, hlater⟩ := List.pairwise_cons.mp h.once
  have hrest : some o ∉ rest := fun hmem => (hhead _ hmem).elim (nomatch ·) (· rfl)
  have hafter : o ∉ after :=
    (List.nodup_cons.mp (List.nodup_append.mp h.nodup).2.1).1
  refine ⟨h.nodup.sublist (by simp), fun o' => ?_, hlater, fun o' ho' p hp => ?_⟩
  · have hmem := h.mem o'
    by_cases e : o' = o
    · subst e
      simp [hbefore, hafter, hrest]
    · simpa [e] using hmem
  · rcases List.mem_append.mp hp with hp | hp
    · exact h.apart o' (by simp at ho' ⊢; tauto) p hp
    · rw [List.mem_singleton.mp hp]
      rintro e
      obtain rfl := Option.some.inj e
      exact (List.mem_append.mp ho').elim hbefore hafter

end

/-- The insertions put behind each other what comes up, in its order. -/
theorem foldl_insertsFrom (item fresh : Nat → α) {sources : List (Option Nat)} {waiting : List Nat}
    {front : Moves.Live α} (h : Waits waiting sources front) :
    (insertsFrom waiting front.length sources).foldl (Moves.insertStep fresh)
        (front ++ waiting.map fun o => (some o, item o)) =
      front ++ (sources.zipIdx front.length).map fun (s, k) => entryAt item fresh k s := by
  induction sources generalizing waiting front with
  | nil =>
    obtain rfl : waiting = [] := List.eq_nil_iff_forall_not_mem.mpr fun o ho =>
      absurd ((h.mem o).mp ho) List.not_mem_nil
    rfl
  | cons s rest ih =>
    cases s with
    | none =>
      have hih := ih (h.fresh (fresh front.length))
      rw [List.length_append, List.length_singleton, List.append_assoc, List.append_assoc] at hih
      rw [insertsFrom, List.foldl_cons]
      show List.foldl _ (Moves.putAt (front ++ _) front.length (none, fresh front.length)) _ = _
      rw [Moves.putAt_length]
      exact hih
    | some o =>
      obtain ⟨before, after, rfl, hbefore⟩ :=
        List.eq_append_cons_of_mem ((h.mem o).mpr List.mem_cons_self)
      have hih := ih (h.kept hbefore (item o))
      rw [List.length_append, List.length_singleton, List.append_assoc, List.append_assoc] at hih
      cases before with
      | nil =>
        -- the item stands in its place already
        rw [insertsFrom, List.nil_append, List.head?_cons, if_pos rfl]
        exact hih
      | cons b before =>
        have hb : ¬ (b :: before ++ o :: after).head? = some o := by
          intro e
          rw [← Option.some.inj e] at hbefore
          exact hbefore List.mem_cons_self
        have hlive : front ++ ((b :: before) ++ o :: after).map (fun o => (some o, item o)) =
            front ++ (b :: before).map (fun o => (some o, item o)) ++
              (some o, item o) :: after.map fun o => (some o, item o) := by simp
        have hsrc : ∀ p ∈ front ++ (b :: before).map (fun o => (some o, item o)), p.1 ≠ some o := by
          intro p hp
          rcases List.mem_append.mp hp with hp | hp
          · exact h.apart o (by simp) p hp
          · obtain ⟨o', ho', rfl⟩ := List.mem_map.mp hp
            exact fun e => hbefore (Option.some.inj e ▸ ho')
        rw [insertsFrom, if_neg hb, List.foldl_cons, hlive, Moves.insertStep_moved hsrc,
          List.append_assoc, Moves.putAt_length, List.erase_append_right _ hbefore,
          List.erase_cons_head, ← List.map_append]
        exact hih

/-! ## 4. The whole replay -/

theorem insertsFrom_index_le (sources : List (Option Nat)) (waiting : List Nat) (index : Nat) :
    ∀ ins ∈ insertsFrom waiting index sources, index ≤ ins.index := by
  fun_induction insertsFrom waiting index sources with
  | case1 => simp
  | case2 waiting index rest ih =>
    intro ins h
    rcases List.mem_cons.mp h with rfl | h
    · exact Nat.le_refl _
    · exact Nat.le_of_succ_le (ih ins h)
  | case3 waiting index o rest hw ih => exact fun ins h => Nat.le_of_succ_le (ih ins h)
  | case4 waiting index o rest hw ih =>
    intro ins h
    rcases List.mem_cons.mp h with rfl | h
    · exact Nat.le_refl _
    · exact Nat.le_of_succ_le (ih ins h)

theorem pairwise_insertsFrom (sources : List (Option Nat)) (waiting : List Nat) (index : Nat) :
    (insertsFrom waiting index sources).Pairwise fun a b => a.index < b.index := by
  fun_induction insertsFrom waiting index sources with
  | case1 => exact .nil
  | case2 waiting index rest ih =>
    exact .cons (fun ins h => insertsFrom_index_le rest waiting (index + 1) ins h) ih
  | case3 waiting index o rest hw ih => exact ih
  | case4 waiting index o rest hw ih =>
    exact .cons (fun ins h => insertsFrom_index_le rest _ (index + 1) ins h) ih

theorem length_sources (children : List (Option Nat)) (count : Nat) :
    (sources children count).length = count := by
  rw [sources, List.length_map, List.length_range]

theorem getElem?_sources {children : List (Option Nat)} {count k : Nat} (hk : k < count) :
    (sources children count)[k]? = some (children.idxOf? (some k)) := by
  rw [sources, List.getElem?_map, List.getElem?_range hk, Option.map_some]

/-- The search among the counterparts goes back along a pair. -/
theorem Pairing.idxOf?_eq_some {old new : List String} {children : List (Option Nat)}
    (h : Pairing old new children) {i k : Nat} :
    children.idxOf? (some k) = some i ↔ children[i]? = some (some k) := by
  constructor
  · intro e
    obtain ⟨hi, e, _⟩ := List.idxOf?_eq_some_iff.mp e
    exact List.getElem?_eq_some_iff.mpr ⟨hi, by simpa using e⟩
  · intro e
    obtain ⟨hi, e'⟩ := List.getElem?_eq_some_iff.mp e
    refine List.idxOf?_eq_some_iff.mpr ⟨hi, by simpa using e', fun j hj ej => ?_⟩
    have hj' : children[j]? = some (some k) := List.getElem?_eq_some_iff.mpr ⟨by omega, by simpa using ej⟩
    have := h.injective e hj'
    omega

theorem Pairing.mem_sources {old new : List String} {children : List (Option Nat)}
    (h : Pairing old new children) {o : Nat} :
    some o ∈ sources children new.length ↔ o ∈ keptFrom 0 children := by
  rw [mem_keptFrom, sources, List.mem_map]
  constructor
  · rintro ⟨k, _, e⟩
    exact ⟨k, h.idxOf?_eq_some.mp e⟩
  · rintro ⟨k, e⟩
    exact ⟨k, List.mem_range.mpr (h.lt_length e), h.idxOf?_eq_some.mpr e⟩

theorem Pairing.pairwise_sources {old new : List String} {children : List (Option Nat)}
    (h : Pairing old new children) (count : Nat) :
    (sources children count).Pairwise fun s t => s = none ∨ s ≠ t := by
  rw [sources, List.pairwise_map]
  refine List.pairwise_lt_range.imp fun {k k'} hlt => ?_
  cases e : children.idxOf? (some k) with
  | none => exact .inl rfl
  | some o =>
    refine .inr fun e' => ?_
    have := (h.idxOf?_eq_some.mp e).symm.trans (h.idxOf?_eq_some.mp e'.symm)
    rw [Option.some.injEq, Option.some.injEq] at this
    omega

/-- The moves put behind each other, for every new position, the item that is its counterpart or a
    fresh one. -/
theorem traced_align (old new : List String) {items : List α} (hlen : items.length = old.length)
    (fresh : Nat → α) :
    (align old new).moves.traced items fresh =
      ((sources (counterparts old new) new.length).zipIdx).map fun (s, k) =>
        entryAt (fun i => items.getD i (fresh 0)) fresh k s := by
  have hp := pairing_counterparts old new
  have hstart : Moves.start items = [] ++ (List.range' ([] : Moves.Live α).length
      (counterparts old new).length).map fun i => (some i, items.getD i (fresh 0)) := by
    rw [hp.length, ← hlen]
    apply List.ext_getElem?
    intro i
    by_cases hi : i < items.length
    · simp [Moves.start, hi]
    · simp [Moves.start, hi]
  have hwaits : Waits (keptFrom 0 (counterparts old new))
      (sources (counterparts old new) new.length) ([] : Moves.Live α) :=
    ⟨(pairwise_keptFrom 0 _).imp Nat.ne_of_lt, fun o => hp.mem_sources.symm, hp.pairwise_sources _,
      fun _ _ _ hmem => absurd hmem List.not_mem_nil⟩
  have hinserts := foldl_insertsFrom (fun i => items.getD i (fresh 0)) fresh hwaits
  have hremoves := foldl_removeAt (fun i => (some i, items.getD i (fresh 0))) (counterparts old new) []
  show (insertsFrom (keptFrom 0 (counterparts old new)) 0
      (sources (counterparts old new) new.length)).foldl (Moves.insertStep fresh)
        ((droppedFrom 0 (counterparts old new)).reverse.foldl Moves.removeAt (Moves.start items)) = _
  rw [List.length_nil] at hstart hremoves hinserts
  rw [hstart, hremoves, hinserts, List.nil_append]

/-- What stands at a new position, with the old position that it comes from. -/
theorem getElem?_traced_align (old new : List String) {items : List α}
    (hlen : items.length = old.length) (fresh : Nat → α) {k : Nat} (hk : k < new.length) :
    ((align old new).moves.traced items fresh)[k]? =
      match (counterparts old new).idxOf? (some k) with
      | some i => items[i]?.map fun a => (some i, a)
      | none => some (none, fresh k) := by
  have hp := pairing_counterparts old new
  rw [traced_align old new hlen, List.getElem?_map, List.getElem?_zipIdx, getElem?_sources hk]
  cases e : (counterparts old new).idxOf? (some k) with
  | none => simp [entryAt]
  | some i =>
    have hi : i < items.length := by
      rw [hlen, ← hp.length]
      exact (List.getElem?_eq_some_iff.mp (hp.idxOf?_eq_some.mp e)).1
    simp [entryAt, hi]

theorem length_traced_align (old new : List String) {items : List α}
    (hlen : items.length = old.length) (fresh : Nat → α) :
    ((align old new).moves.traced items fresh).length = new.length := by
  rw [traced_align old new hlen, List.length_map, List.length_zipIdx, length_sources]

theorem getElem?_replay_align (old new : List String) {items : List α}
    (hlen : items.length = old.length) (fresh : Nat → α) {k : Nat} (hk : k < new.length) :
    ((align old new).moves.replay items fresh)[k]? =
      match (counterparts old new).idxOf? (some k) with
      | some i => items[i]?
      | none => some (fresh k) := by
  rw [Moves.replay_eq, List.getElem?_map, getElem?_traced_align old new hlen fresh hk]
  cases (counterparts old new).idxOf? (some k) with
  | none => rfl
  | some i => simp [Function.comp_def]

theorem length_replay_align (old new : List String) {items : List α}
    (hlen : items.length = old.length) (fresh : Nat → α) :
    ((align old new).moves.replay items fresh).length = new.length := by
  rw [Moves.replay_eq, List.length_map, length_traced_align old new hlen]

/-- **The alignment of two lists of siblings**: it pairs them up, it removes what has no counterpart,
    and its moves turn the old list into the new one. -/
theorem align_replays (key : α → String) (old new : List α) (fresh : Nat → α) :
    let a := align (old.map key) (new.map key)
    Pairing (old.map key) (new.map key) a.children ∧
    (∀ i k : Nat, a.children[i]? = some (some k) → k < new.length) ∧
    (∀ i j k : Nat, a.children[i]? = some (some k) → a.children[j]? = some (some k) → i = j) ∧
    (∀ i : Nat, i ∈ a.moves.removes ↔ a.children[i]? = some none) ∧
    a.moves.removes.Pairwise (· > ·) ∧
    a.moves.inserts.Pairwise (fun x y => x.index < y.index) ∧
    (a.moves.replay old fresh).length = new.length ∧
    (∀ i k : Nat, a.children[i]? = some (some k) → (a.moves.replay old fresh)[k]? = old[i]?) ∧
    ∀ k : Nat, k < new.length → (∀ i : Nat, a.children[i]? ≠ some (some k)) →
      (a.moves.replay old fresh)[k]? = some (fresh k) := by
  intro a
  have hp : Pairing (old.map key) (new.map key) a.children := pairing_counterparts _ _
  have hlen : old.length = (old.map key).length := (List.length_map key).symm
  have hnew : new.length = (new.map key).length := (List.length_map key).symm
  refine ⟨hp, fun i k h => hnew ▸ hp.lt_length h, fun i j k h h' => hp.injective h h', ?_, ?_, ?_, ?_, ?_, ?_⟩
  · intro i
    rw [← mem_droppedFrom]
    exact List.mem_reverse
  · exact List.pairwise_reverse.mpr (pairwise_droppedFrom 0 _)
  · exact pairwise_insertsFrom _ _ 0
  · rw [hnew]
    exact length_replay_align _ _ hlen fresh
  · intro i k h
    have hk : k < (new.map key).length := hp.lt_length h
    have hsome : (counterparts (old.map key) (new.map key)).idxOf? (some k) = some i :=
      hp.idxOf?_eq_some.mpr h
    have := getElem?_replay_align _ _ hlen fresh hk
    rwa [hsome] at this
  · intro k hk h
    have := getElem?_replay_align _ _ hlen fresh (hnew ▸ hk)
    have hnone : (counterparts (old.map key) (new.map key)).idxOf? (some k) = none :=
      Option.eq_none_iff_forall_ne_some.mpr fun i e => h i (hp.idxOf?_eq_some.mp e)
    rwa [hnone] at this

end Align

end Trellis
