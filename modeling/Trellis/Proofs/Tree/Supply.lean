import Mathlib.Data.List.InsertIdx
import Trellis.Proofs.Tree.Replay

/-!
# Replays with an item for each insertion

`Moves.replay` is given fresh items by position. Moves of any kind may put several fresh items in at
one position, and these need not be the same. `Moves.replayEach` is given an item for each insertion,
which counts where the insertion asks for a fresh one; where it is right to give items by position the
two agree (`replayEach_eq_replay`).

What stands in a list has no part in where it goes, so a replay commutes with every change of the
items (`map_replayEach`), and an insertion loses nothing (`mem_insertItem_of_mem`).
-/

namespace Trellis

namespace Moves

universe u v
variable {α : Type u} {β : Type v}

/-! ## 1. Live lists -/

/-- Putting an item at a position cuts the list there. -/
theorem putAt_eq (live : Live α) (i : Nat) (item : Option Nat × α) :
    putAt live i item =
      live.take (min i live.length) ++ item :: live.drop (min i live.length) := by
  have hlen : (live.take (min i live.length)).length = min i live.length := by
    rw [List.length_take]
    omega
  have h := putAt_length (live.take (min i live.length)) (live.drop (min i live.length)) item
  rw [List.take_append_drop, hlen] at h
  rw [← h, putAt, putAt, Nat.min_eq_left (Nat.min_le_right i live.length)]

/-- A list cut at one of its items. -/
theorem eq_take_cons_drop {l : List α} {i : Nat} {a : α} (hi : l[i]? = some a) :
    l = l.take i ++ a :: l.drop (i + 1) := by
  obtain ⟨hlt, rfl⟩ := List.getElem?_eq_some_iff.mp hi
  rw [List.getElem_cons_drop, List.take_append_drop]

theorem mem_start {old : List α} {p : Option Nat × α} :
    p ∈ start old ↔ ∃ i, p.1 = some i ∧ old[i]? = some p.2 := by
  obtain ⟨o, a⟩ := p
  simp only [start, List.mem_map, Prod.mk.injEq, Prod.exists, List.mem_zipIdx_iff_getElem?]
  constructor
  · rintro ⟨b, i, hb, rfl, rfl⟩
    exact ⟨i, rfl, hb⟩
  · rintro ⟨i, rfl, hb⟩
    exact ⟨a, i, hb, rfl, rfl⟩

theorem foldl_removeAt_sublist (removes : List Nat) (live : Live α) :
    List.Sublist (removes.foldl removeAt live) live := by
  induction removes generalizing live with
  | nil => exact List.Sublist.refl live
  | cons i removes ih => exact (ih _).trans (List.eraseIdx_sublist live i)

/-- The old positions whose items no removal takes out. -/
def leftOver (removes : List Nat) (old : List α) : List (Option Nat) :=
  (removes.foldl removeAt (start old)).map Prod.fst

/-- An item whose old position is left over is in the list still. -/
theorem mem_of_mem_leftOver {removes : List Nat} {old : List α} {i : Nat} {a : α}
    (hi : some i ∈ leftOver removes old) (ha : old[i]? = some a) :
    (some i, a) ∈ removes.foldl removeAt (start old) := by
  obtain ⟨⟨o, b⟩, hmem, rfl⟩ := List.mem_map.mp hi
  obtain ⟨j, hj, hb⟩ := mem_start.mp ((foldl_removeAt_sublist removes _).subset hmem)
  obtain rfl := Option.some.inj hj
  obtain rfl := Option.some.inj (hb.symm.trans ha)
  exact hmem

/-- The live list in which every item has been changed. -/
def mapItems (f : α → β) (live : Live α) : Live β := live.map fun p => (p.1, f p.2)

section

variable (f : α → β) (live : Live α)

theorem mapItems_start (old : List α) : mapItems f (start old) = start (old.map f) := by
  rw [start, start, mapItems, List.zipIdx_map, List.map_map, List.map_map]
  rfl

theorem mapItems_eraseIdx (i : Nat) :
    mapItems f (live.eraseIdx i) = (mapItems f live).eraseIdx i :=
  (List.eraseIdx_map _ live i).symm

theorem mapItems_foldl_removeAt (removes : List Nat) :
    mapItems f (removes.foldl removeAt live) = removes.foldl removeAt (mapItems f live) := by
  induction removes generalizing live with
  | nil => rfl
  | cons i removes ih => rw [List.foldl_cons, List.foldl_cons, ih, removeAt, mapItems_eraseIdx]; rfl

theorem mapItems_putAt (i : Nat) (item : Option Nat × α) :
    mapItems f (putAt live i item) = putAt (mapItems f live) i (item.1, f item.2) := by
  rw [putAt, mapItems, List.map_insertIdx, putAt, mapItems, List.length_map]

theorem find?_mapItems (old : Nat) : find? (mapItems f live) old = find? live old := by
  rw [find?, find?, mapItems, List.findIdx?_map]
  rfl

theorem getElem?_mapItems (i : Nat) :
    (mapItems f live)[i]? = live[i]?.map fun p => (p.1, f p.2) := List.getElem?_map

end

/-! ## 2. One insertion -/

/-- One insertion, with the item that it puts in when it asks for a fresh one. -/
def insertItem (live : Live α) (p : Insert × α) : Live α := insertStep (fun _ => p.2) live p.1

theorem insertItem_eq_insertStep {fresh : Nat → α} {p : Insert × α}
    (h : p.1.oldIndex = none → fresh p.1.index = p.2) (live : Live α) :
    insertItem live p = insertStep fresh live p.1 := by
  obtain ⟨⟨old, index⟩, a⟩ := p
  cases old with
  | none =>
    obtain rfl : fresh index = a := h rfl
    rfl
  | some old => rfl

theorem mapItems_insertItem (f : α → β) (live : Live α) (p : Insert × α) :
    mapItems f (insertItem live p) = insertItem (mapItems f live) (p.1, f p.2) := by
  obtain ⟨⟨old, index⟩, a⟩ := p
  cases old with
  | none => exact mapItems_putAt f live index (none, a)
  | some old =>
    simp only [insertItem, insertStep, find?_mapItems]
    cases find? live old with
    | none => rfl
    | some i =>
      dsimp only
      rw [getElem?_mapItems]
      cases live[i]? with
      | none => rfl
      | some item =>
        dsimp only [Option.map_some]
        rw [mapItems_putAt, mapItems_eraseIdx]

theorem mem_putAt_iff {live : Live α} {i : Nat} {item q : Option Nat × α} :
    q ∈ putAt live i item ↔ q = item ∨ q ∈ live := List.mem_insertIdx (Nat.min_le_right i _)

/-- **An insertion loses nothing.** -/
theorem mem_insertItem_of_mem {live : Live α} {q : Option Nat × α} (hq : q ∈ live)
    (p : Insert × α) : q ∈ insertItem live p := by
  obtain ⟨⟨old, index⟩, a⟩ := p
  cases old with
  | none => exact mem_putAt_iff.mpr (.inr hq)
  | some old =>
    simp only [insertItem, insertStep]
    split
    · exact hq
    · split
      · exact hq
      · rename_i i _ item hitem
        rw [eq_take_cons_drop hitem, List.mem_append, List.mem_cons] at hq
        rw [mem_putAt_iff, List.eraseIdx_eq_take_drop_succ, List.mem_append]
        tauto

/-! ## 3. Replays -/

/-- What the moves make of a list, given an item for each insertion. -/
def replayEach (m : Moves) (old fresh : List α) : List α :=
  ((m.inserts.zip fresh).foldl insertItem (m.removes.foldl removeAt (start old))).map Prod.snd

theorem foldl_insertItem_eq {fresh : Nat → α} {ps : List (Insert × α)}
    (h : ∀ p ∈ ps, p.1.oldIndex = none → fresh p.1.index = p.2) (live : Live α) :
    ps.foldl insertItem live = (ps.map Prod.fst).foldl (insertStep fresh) live := by
  induction ps generalizing live with
  | nil => rfl
  | cons p ps ih =>
    rw [List.foldl_cons, List.map_cons, List.foldl_cons,
      insertItem_eq_insertStep (h p List.mem_cons_self)]
    exact ih (fun q hq => h q (List.mem_cons_of_mem _ hq)) _

/-- Items that are given by position. -/
theorem replayEach_eq_replay {m : Moves} {items : List α} {fresh : Nat → α}
    (hlength : items.length = m.inserts.length)
    (h : ∀ p ∈ m.inserts.zip items, p.1.oldIndex = none → fresh p.1.index = p.2) (old : List α) :
    m.replayEach old items = m.replay old fresh := by
  have hfst : (m.inserts.zip items).map Prod.fst = m.inserts :=
    List.map_fst_zip (Nat.le_of_eq hlength.symm)
  rw [replayEach, replay, foldl_insertItem_eq h, hfst]

theorem mapItems_foldl_insertItem (f : α → β) (ps : List (Insert × α)) (live : Live α) :
    mapItems f (ps.foldl insertItem live) =
      (ps.map fun p => (p.1, f p.2)).foldl insertItem (mapItems f live) := by
  induction ps generalizing live with
  | nil => rfl
  | cons p ps ih => rw [List.foldl_cons, ih, List.map_cons, List.foldl_cons, mapItems_insertItem]

/-- Insertions lose nothing. -/
theorem mem_foldl_insertItem {live : Live α} {q : Option Nat × α} (hq : q ∈ live)
    (ps : List (Insert × α)) : q ∈ ps.foldl insertItem live := by
  induction ps generalizing live with
  | nil => exact hq
  | cons p ps ih => exact ih (mem_insertItem_of_mem hq p)

/-- **Where items go does not depend on what they are.** -/
theorem map_replayEach (f : α → β) (m : Moves) (old items : List α) :
    (m.replayEach old items).map f = m.replayEach (old.map f) (items.map f) := by
  have hsnd : ∀ live : Live α, (live.map Prod.snd).map f = (mapItems f live).map Prod.snd := by
    intro live
    rw [mapItems, List.map_map, List.map_map]
    rfl
  have hzip : (m.inserts.zip items).map (fun p => (p.1, f p.2)) = m.inserts.zip (items.map f) :=
    List.zip_map_right.symm
  rw [replayEach, replayEach, hsnd, mapItems_foldl_insertItem, mapItems_foldl_removeAt, mapItems_start,
    hzip]

end Moves

end Trellis
