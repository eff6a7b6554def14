import Mathlib.Data.String.Basic
import Trellis.Proofs.Value.Writing

/-!
# Writes that do not see each other

A write changes what stands under its first key and hands the rest of the path on (`update`,
`setPath_cons`). Two changes under one key are one change (`update_update`). Two changes under keys
that never mean the same slot can be made in either order (`update_comm`): no object and no array sees
which of the two came first. An array takes part in this with its length. A position that it does not
have and may not get stays out of reach, since no write brings the end of an array that far.

From the two, by induction on what the paths share, writes at independent paths commute
(`setPath_comm`).
-/

namespace Trellis

/-! ## 1. Maps -/

namespace Dict

variable {α : Type} {a b : String}

/-- Of two insertions under one name the second one counts. -/
theorem insert_insert_self (d : Dict α) (a : String) (x y : α) :
    insert (insert d a x) a y = insert d a y := by
  induction d with
  | nil => simp [insert]
  | cons p d ih =>
    obtain ⟨k, v⟩ := p
    by_cases hk : k = a
    · simp [insert, hk]
    · by_cases hlt : k < a
      · simp [insert, hk, hlt, ih]
      · simp [insert, hk, hlt]

/-- Insertions under two names, the smaller one first or last. -/
theorem insert_comm_of_lt (h : a < b) (d : Dict α) (x y : α) :
    insert (insert d a x) b y = insert (insert d b y) a x := by
  have hab : a ≠ b := ne_of_lt h
  induction d with
  | nil => simp [insert, h, hab, hab.symm, not_lt_of_gt h]
  | cons p d ih =>
    obtain ⟨k, v⟩ := p
    rcases lt_trichotomy k a with hk | rfl | hk
    · have hkb : k < b := hk.trans h
      simp [insert, hk, hkb, ne_of_lt hk, ne_of_lt hkb, ih]
    · simp [insert, h, hab]
    · rcases lt_trichotomy k b with hkb | rfl | hkb
      · simp [insert, h, hab, hkb, ne_of_lt hkb, ne_of_gt hk, not_lt_of_gt hk]
      · simp [insert, h, hab, hab.symm, not_lt_of_gt h]
      · simp [insert, h, hab, hab.symm, not_lt_of_gt h, ne_of_gt hk, not_lt_of_gt hk, ne_of_gt hkb,
          not_lt_of_gt hkb]

/-- **Insertions under different names commute.** -/
theorem insert_comm (h : a ≠ b) (d : Dict α) (x y : α) :
    insert (insert d a x) b y = insert (insert d b y) a x := by
  rcases lt_or_gt_of_ne h with hlt | hgt
  · exact insert_comm_of_lt hlt d x y
  · exact (insert_comm_of_lt hgt d y x).symm

end Dict

namespace Value

/-! ## 2. Arrays -/

section

variable {items : List Value} {i j : Nat}

theorem length_padded (items : List Value) (i : Nat) :
    (padded items i).length = max items.length (i + 1) := by
  rw [padded, List.length_append, List.length_replicate]
  omega

theorem padded_of_lt (h : i < items.length) : padded items i = items := by
  have hnone : i + 1 - items.length = 0 := by omega
  rw [padded, hnone, List.replicate_zero, List.append_nil]

/-- Filling up to one position and then up to another is filling up to the farther one. -/
theorem padded_padded (items : List Value) (i j : Nat) :
    padded (padded items i) j = padded items (max i j) := by
  have hcount : i + 1 - items.length + (j + 1 - (padded items i).length) =
      max i j + 1 - items.length := by
    rw [length_padded]
    omega
  calc padded (padded items i) j
      = items ++ (List.replicate (i + 1 - items.length) .undefined ++
          List.replicate (j + 1 - (padded items i).length) .undefined) := List.append_assoc ..
    _ = padded items (max i j) := by rw [List.replicate_append_replicate, hcount, padded]

theorem padded_modify (h : i < items.length) (f : Value → Value) (j : Nat) :
    padded (items.modify i f) j = (padded items j).modify i f := by
  rw [padded, padded, List.length_modify, List.modify_eq_set, List.modify_eq_set,
    List.set_append_left _ _ h, List.getElem?_append_left h]

/-- The items with a change at position `i`, unless it lies behind the end and too far out. -/
def changeAt (items : List Value) (i : Nat) (f : Value → Value) : List Value :=
  if items.length ≤ i ∧ maxArrayIndex < i then items else (padded items i).modify i f

theorem changeAt_of_beyond (h : items.length ≤ i ∧ maxArrayIndex < i) (f : Value → Value) :
    changeAt items i f = items := if_pos h

theorem changeAt_of_not_beyond (h : ¬ (items.length ≤ i ∧ maxArrayIndex < i)) (f : Value → Value) :
    changeAt items i f = (padded items i).modify i f := if_neg h

/-- A change brings no position into reach and none out of it. -/
theorem beyond_changeAt (items : List Value) (i j : Nat) (f : Value → Value) :
    ((changeAt items i f).length ≤ j ∧ maxArrayIndex < j) ↔
      (items.length ≤ j ∧ maxArrayIndex < j) := by
  rw [changeAt]
  split
  · rfl
  · rw [List.length_modify, length_padded]
    omega

theorem lt_length_padded (items : List Value) (i : Nat) : i < (padded items i).length := by
  rw [length_padded]
  omega

/-- Two changes at one position are one change. -/
theorem changeAt_changeAt (items : List Value) (i : Nat) (f g : Value → Value) :
    changeAt (changeAt items i f) i g = changeAt items i (g ∘ f) := by
  have hbeyond := beyond_changeAt items i i f
  by_cases hi : items.length ≤ i ∧ maxArrayIndex < i
  · rw [changeAt_of_beyond (hbeyond.mpr hi), changeAt_of_beyond hi, changeAt_of_beyond hi]
  · have hlt : i < ((padded items i).modify i f).length := by
      rw [List.length_modify]
      exact lt_length_padded items i
    rw [changeAt_of_not_beyond (mt hbeyond.mp hi), changeAt_of_not_beyond hi,
      changeAt_of_not_beyond hi, padded_of_lt hlt, List.modify_modify_eq]

/-- **Changes at two positions commute.** -/
theorem changeAt_comm (h : i ≠ j) (items : List Value) (f g : Value → Value) :
    changeAt (changeAt items i f) j g = changeAt (changeAt items j g) i f := by
  have hij := beyond_changeAt items i j f
  have hji := beyond_changeAt items j i g
  by_cases hi : items.length ≤ i ∧ maxArrayIndex < i
  · rw [changeAt_of_beyond hi, changeAt_of_beyond (hji.mpr hi)]
  · by_cases hj : items.length ≤ j ∧ maxArrayIndex < j
    · rw [changeAt_of_beyond hj, changeAt_of_beyond (hij.mpr hj)]
    · rw [changeAt_of_not_beyond (mt hij.mp hj), changeAt_of_not_beyond (mt hji.mp hi),
        changeAt_of_not_beyond hi, changeAt_of_not_beyond hj, padded_modify (lt_length_padded items i),
        padded_modify (lt_length_padded items j), padded_padded, padded_padded, Nat.max_comm,
        List.modify_modify_ne _ _ _ h]

end

/-! ## 3. One step -/

/-- Changes what stands under a key of a value, or of the container that takes its place. -/
def update (v : Value) (k : Key) (f : Value → Value) : Value :=
  match v.container k with
  | .array items => .array (k.asIndex?.elim items fun i => changeAt items i f)
  | .object fields =>
    .object (Dict.insert fields k.asName (f ((Dict.get? fields k.asName).getD .undefined)))
  | other => other

/-- A write changes what stands under its first key by the rest of the write. -/
theorem setPath_cons (v : Value) (k : Key) (ks : List Key) (x : Value) :
    v.setPath (k :: ks) x = v.update k fun slot => slot.setPath ks x := by
  rw [setPath, update]
  rcases container_cases v k with ⟨fields, hw⟩ | ⟨items, hw⟩
  · rw [hw]
  · rw [hw]
    dsimp only
    cases k.asIndex? with
    | none => rfl
    | some i =>
      dsimp only [Option.elim]
      rw [changeAt]
      split <;> rfl

section

variable {v : Value} {k k' : Key}

theorem update_object {fields : Dict Value} (h : v.container k = .object fields) (f : Value → Value) :
    v.update k f =
      .object (Dict.insert fields k.asName (f ((Dict.get? fields k.asName).getD .undefined))) := by
  rw [update, h]

theorem update_array {items : List Value} (h : v.container k = .array items) (f : Value → Value) :
    v.update k f = .array (k.asIndex?.elim items fun i => changeAt items i f) := by
  rw [update, h]

/-- All that a change sees is what stands under its key. -/
theorem update_congr {f g : Value → Value}
    (h : f ((v.child? k).getD .undefined) = g ((v.child? k).getD .undefined)) :
    v.update k f = v.update k g := by
  rw [← child?_container] at h
  rcases container_cases v k with ⟨fields, hw⟩ | ⟨items, hw⟩
  · rw [hw] at h
    rw [update_object hw, update_object hw]
    exact congrArg (fun w => Value.object (Dict.insert fields k.asName w)) h
  · rw [hw, child?] at h
    rw [update_array hw, update_array hw]
    cases hi : k.asIndex? with
    | none => rfl
    | some i =>
      rw [hi, Option.bind_some] at h
      refine congrArg Value.array ?_
      rw [Option.elim, Option.elim, changeAt, changeAt, List.modify_eq_set, List.modify_eq_set,
        getElem?_padded_self, Option.getD_some, h]

/-- **Two changes under one key are one change.** -/
theorem update_update (v : Value) (k : Key) (f g : Value → Value) :
    (v.update k f).update k g = v.update k (g ∘ f) := by
  rcases container_cases v k with ⟨fields, hw⟩ | ⟨items, hw⟩
  · rw [update_object hw, update_object hw, update_object rfl, Dict.get?_insert_self,
      Dict.insert_insert_self]
    rfl
  · rw [update_array hw, update_array hw, update_array rfl]
    cases k.asIndex? with
    | none => rfl
    | some i => exact congrArg Value.array (changeAt_changeAt items i f g)

end

end Value

/-- Two keys that mean different slots of whatever container they meet, and ask for the same kind of
    container where there is none: two positions, or two names that are not spellings of one
    position. -/
def Key.Independent : Key → Key → Prop
  | .index i, .index j => i ≠ j
  | .name n, .name m =>
    n ≠ m ∧ ¬ ∃ i, (Key.name n).asIndex? = some i ∧ (Key.name m).asIndex? = some i
  | _, _ => False

namespace Key.Independent

variable {k k' : Key}

theorem asName_ne (h : k.Independent k') : k.asName ≠ k'.asName := by
  cases k with
  | name n =>
    cases k' with
    | name m => exact h.1
    | index j => exact h.elim
  | index i =>
    cases k' with
    | name m => exact h.elim
    | index j =>
      have hread : ∀ n : Nat, Nat.ofDigitChars 10 n.repr.toList 0 = n := fun n => by
        rw [Nat.toList_repr, Nat.ofDigitChars_ten_toDigits]
      intro hij
      have hij' : i.repr = j.repr := hij
      exact h (by rw [← hread i, ← hread j, hij'])

theorem asIndex?_ne {i j : Nat} (h : k.Independent k') (hi : k.asIndex? = some i)
    (hj : k'.asIndex? = some j) : i ≠ j := by
  rintro rfl
  cases k with
  | name n =>
    cases k' with
    | name m => exact h.2 ⟨i, hi, hj⟩
    | index j => exact h
  | index i =>
    cases k' with
    | name m => exact h
    | index j => exact h (Option.some.inj (hi.trans hj.symm))

theorem container_eq (h : k.Independent k') (v : Value) : v.container k = v.container k' := by
  cases v with
  | object fields => rfl
  | array items => rfl
  | _ =>
    cases k with
    | name n =>
      cases k' with
      | name m => rfl
      | index j => exact h.elim
    | index i =>
      cases k' with
      | name m => exact h.elim
      | index j => rfl

end Key.Independent

namespace Value

/-- **Changes under independent keys commute**, in a container and where there is none yet. -/
theorem update_comm {k k' : Key} (h : k.Independent k') (v : Value) (f g : Value → Value) :
    (v.update k f).update k' g = (v.update k' g).update k f := by
  rcases container_cases v k with ⟨fields, hw⟩ | ⟨items, hw⟩
  · have hw' : v.container k' = .object fields := (h.container_eq v).symm.trans hw
    rw [update_object hw, update_object hw', update_object rfl, update_object rfl,
      Dict.get?_insert_of_ne _ _ h.asName_ne, Dict.get?_insert_of_ne _ _ h.asName_ne.symm,
      Dict.insert_comm h.asName_ne]
  · have hw' : v.container k' = .array items := (h.container_eq v).symm.trans hw
    rw [update_array hw, update_array hw', update_array rfl, update_array rfl]
    cases hi : k.asIndex? with
    | none => rfl
    | some i =>
      cases hj : k'.asIndex? with
      | none => rfl
      | some j => exact congrArg Value.array (changeAt_comm (h.asIndex?_ne hi hj) items f g)

/-! ## 4. Whole paths -/

/-- **Independent writes commute.** Two paths share the keys `pre`; then one goes on with `k`, the other
    one with `k'`, an independent key. Writing `x` at the one and `y` at the other gives the same value
    in either order, dropped writes included. By induction on what the paths share, whose keys both
    writes take one by one. -/
theorem setPath_comm {k k' : Key} (h : k.Independent k') (v x y : Value) (pre post post' : List Key) :
    (v.setPath (pre ++ k :: post) x).setPath (pre ++ k' :: post') y =
      (v.setPath (pre ++ k' :: post') y).setPath (pre ++ k :: post) x := by
  induction pre generalizing v with
  | nil =>
    rw [List.nil_append, List.nil_append, setPath_cons, setPath_cons, setPath_cons, setPath_cons]
    exact update_comm h v _ _
  | cons k₀ pre ih =>
    rw [List.cons_append, List.cons_append, setPath_cons, setPath_cons, setPath_cons, setPath_cons,
      update_update, update_update]
    exact congrArg (v.update k₀) (funext ih)

/-- A write below a position out of reach of a list, and one that makes the list longer: in either order
    the first one is dropped and the list ends at position 2. -/
theorem setPath_comm_outOfReach :
    let v := Value.object [("list", .array [.null])]
    let far := [Key.name "list", .index 65537, .name "a"]
    let near := [Key.name "list", .index 2]
    (Key.index 65537).Independent (.index 2) ∧
      (v.setPath far .null).setPath near (.bool true) = (v.setPath near (.bool true)).setPath far .null ∧
      (v.setPath far .null).setPath near (.bool true) =
        .object [("list", .array [.null, .undefined, .bool true])] := by
  intro v far near
  have hapart : (Key.index 65537).Independent (.index 2) := by
    change 65537 ≠ 2
    decide
  exact ⟨hapart, setPath_comm hapart v .null (.bool true) [.name "list"] [.name "a"] [], rfl⟩

end Value

end Trellis
