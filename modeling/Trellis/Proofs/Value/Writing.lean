import Trellis.Value.Path

/-!
# Reading what was written below a value

A write goes down its path one key at a time, through the values that are there or through new
containers. It is read back when every container on the way takes its key, and whether it takes
effect or not it leaves alone what lies elsewhere.
- `step_setPath_self`, `step_setPath_apart`: what one step sees of a write, on the way and beside it,
- `getPath_setPath_self`, `getPath_setPath_apart`: the same for whole paths, by induction on the path,
- `setPath_laws`: the two laws together.
-/

namespace Trellis.Value

/-! ## 1. Containers -/

/-- An object or an array. -/
def isContainer : Value → Bool
  | .object _ | .array _ => true
  | _ => false

/-- Writing can go on below `k`: what is written into, the value itself or the container that takes
    its place, is an object, or it is an array and `k` is a position that it has or may get. -/
def Takes (v : Value) (k : Key) : Prop :=
  match v.container k with
  | .array items => ∃ i, k.asIndex? = some i ∧ (i < items.length ∨ i ≤ maxArrayIndex)
  | _ => True

/-- In the container `v`, `k'` is not what `k` addresses: another name in an object, another position
    in an array, of which the length is no part. A key that is no position of an array addresses
    nothing there. -/
def Apart (v : Value) (k k' : Key) : Prop :=
  match v with
  | .object _ => k.asName ≠ k'.asName
  | .array _ => k.asIndex? = none ∨ (k.asIndex? ≠ k'.asIndex? ∧ k' ≠ .name "length")
  | _ => False

section

variable {v : Value} {k k' : Key} {x : Value}

/-- What a value answers without storing it is no container. -/
theorem isContainer_derived (v : Value) (k : Key) : (v.derived k).isContainer = false := by
  cases v with
  | array items =>
    cases k with
    | name n =>
      rw [derived]
      split <;> rfl
    | index i => rfl
  | string s =>
    rw [derived]
    split
    · rfl
    · split <;> rfl
  | _ => rfl

theorem child?_of_not_isContainer (h : v.isContainer = false) (k : Key) : v.child? k = none := by
  cases v with
  | object fields => cases h
  | array items => cases h
  | _ => rfl

/-- Nothing that is no container has a container below it. -/
theorem isContainer_getPath (h : v.isContainer = false) (ks : List Key) :
    (v.getPath ks).isContainer = false := by
  induction ks generalizing v with
  | nil => exact h
  | cons k ks ih =>
    refine ih ?_
    rw [step, child?_of_not_isContainer h]
    exact isContainer_derived v k

/-- Writes do not see what they replace. -/
theorem setPath_of_not_isContainer (h : v.isContainer = false) (ks : List Key) (x : Value) :
    v.setPath ks x = setPath .undefined ks x := by
  cases ks with
  | nil => rfl
  | cons k ks =>
    have hnew : v.container k = container .undefined k := by
      cases v with
      | object fields => cases h
      | array items => cases h
      | _ => cases k <;> rfl
    rw [setPath, setPath, hnew]

/-- Below what is stored or only answered, a write does the same. -/
theorem setPath_child? (v : Value) (k : Key) (ks : List Key) (x : Value) :
    ((v.child? k).getD .undefined).setPath ks x = (v.step k).setPath ks x := by
  rw [step]
  cases v.child? k with
  | some w => rfl
  | none => exact (setPath_of_not_isContainer (isContainer_derived v k) ks x).symm

end

/-! ## 2. One step -/

section

variable {v : Value} {k k' : Key} {items : List Value} {i : Nat}

/-- What is put up to a position changes nothing that can be read. -/
theorem getElem?_padded_getD (items : List Value) (i j : Nat) :
    ((padded items i)[j]?).getD .undefined = (items[j]?).getD .undefined := by
  rw [padded, List.getElem?_append]
  split
  · rfl
  · rename_i hj
    rw [List.getElem?_eq_none (Nat.le_of_not_lt hj), List.getElem?_replicate]
    split <;> rfl

/-- There is something at the position up to which an array was filled. -/
theorem getElem?_padded_self (items : List Value) (i : Nat) :
    (padded items i)[i]? = some ((items[i]?).getD .undefined) := by
  have hlt : i < (padded items i).length := by
    rw [padded, List.length_append, List.length_replicate]
    omega
  rw [← getElem?_padded_getD items i i, List.getElem?_eq_getElem hlt]
  rfl

theorem child?_container (v : Value) (k : Key) : (v.container k).child? k = v.child? k := by
  cases v with
  | object fields => rfl
  | array items => rfl
  | _ =>
    cases k with
    | name n => rfl
    | index i => simp [container, child?, Key.asIndex?]

theorem derived_array (hk : k ≠ .name "length") : (array items).derived k = .undefined := by
  cases k with
  | name n =>
    have hn : n ≠ "length" := fun h => hk (h ▸ rfl)
    rw [derived, if_neg hn]
  | index i => rfl

/-- The container that is written into is an object or an array. -/
theorem container_cases (v : Value) (k : Key) :
    (∃ fields, v.container k = .object fields) ∨ ∃ items, v.container k = .array items := by
  cases v with
  | object fields => exact .inl ⟨fields, rfl⟩
  | array items => exact .inr ⟨items, rfl⟩
  | _ =>
    cases k with
    | name n => exact .inl ⟨[], rfl⟩
    | index i => exact .inr ⟨[], rfl⟩

/-- **One step down the path of a write**: below a container that takes the key stands what the rest
    of the write makes of what stood there. -/
theorem step_setPath_self (h : v.Takes k) (ks : List Key) (x : Value) :
    (v.setPath (k :: ks) x).step k = (v.step k).setPath ks x := by
  rw [← setPath_child?, ← child?_container, setPath]
  unfold Takes at h
  rcases container_cases v k with ⟨fields, hw⟩ | ⟨items, hw⟩
  · rw [hw]
    dsimp only
    rw [step, child?, Dict.get?_insert_self]
    rfl
  · rw [hw] at h ⊢
    obtain ⟨i, hi, hbound⟩ := h
    have hfits : ¬ (items.length ≤ i ∧ maxArrayIndex < i) := by omega
    dsimp only
    rw [hi]
    dsimp only
    rw [if_neg hfits, step, child?, child?, hi, Option.bind_some, Option.bind_some,
      List.getElem?_modify_eq, getElem?_padded_self]
    rfl

/-- **One step beside the path of a write**: there stands what stood there before. -/
theorem step_setPath_apart (h : v.Apart k k') (ks : List Key) (x : Value) :
    (v.setPath (k :: ks) x).step k' = v.step k' := by
  cases v with
  | object fields =>
    rw [setPath, container]
    dsimp only
    rw [step, child?, Dict.get?_insert_of_ne _ _ h]
    rfl
  | array items =>
    rw [setPath, container]
    dsimp only
    cases hi : k.asIndex? with
    | none => rfl
    | some i =>
      obtain ⟨hne, hlength⟩ := h.resolve_left (by rw [hi]; nofun)
      dsimp only
      split
      · rfl
      · rw [step, step, derived_array hlength, derived_array hlength, child?, child?]
        cases hj : k'.asIndex? with
        | none => rfl
        | some j =>
          have hij : i ≠ j := fun e => hne (by rw [hi, hj, e])
          rw [Option.bind_some, Option.bind_some, List.getElem?_modify_ne _ _ hij,
            getElem?_padded_getD]
  | _ => cases h

end

/-! ## 3. Whole paths -/

section

variable {v : Value} {pre post : List Key} {k k' : Key}

/-- A container that stands below a value is reached through containers that take the keys. -/
theorem takes_of_isContainer (h : (v.getPath (k :: pre)).isContainer = true) : v.Takes k := by
  cases hchild : v.child? k with
  | none =>
    have hnone : (v.step k).isContainer = false := by
      rw [step, hchild]
      exact isContainer_derived v k
    rw [getPath, isContainer_getPath hnone pre] at h
    cases h
  | some w =>
    cases v with
    | object fields => exact trivial
    | array items =>
      obtain ⟨i, hi, hw⟩ := Option.bind_eq_some_iff.mp hchild
      exact ⟨i, hi, .inl (List.getElem?_eq_some_iff.mp hw).1⟩
    | _ => cases hchild

/-- **What is written is read back**, by induction on the path: each step of the read sees the rest of
    the write. -/
theorem getPath_setPath_self {p : List Key}
    (h : ∀ pre k post, p = pre ++ k :: post → (v.getPath pre).Takes k) (x : Value) :
    (v.setPath p x).getPath p = x := by
  induction p generalizing v with
  | nil => rfl
  | cons k ks ih =>
    have hk : v.Takes k := h [] k ks rfl
    rw [getPath, step_setPath_self hk]
    refine ih fun pre k' post hks => ?_
    exact h (k :: pre) k' post (by rw [hks, List.cons_append])

/-- **What lies beside the path of a write is as it was**, by induction on what the two paths share. -/
theorem getPath_setPath_apart (h : (v.getPath pre).Apart k k') (post post' : List Key) (x : Value) :
    (v.setPath (pre ++ k :: post) x).getPath (pre ++ k' :: post') =
      v.getPath (pre ++ k' :: post') := by
  induction pre generalizing v with
  | nil =>
    have hk : v.Apart k k' := h
    rw [List.nil_append, List.nil_append, getPath, getPath, step_setPath_apart hk]
  | cons k₀ pre ih =>
    have hcontainer : (v.getPath (k₀ :: pre)).isContainer = true := by
      cases hw : v.getPath (k₀ :: pre) with
      | object fields => rfl
      | array items => rfl
      | _ => rw [hw] at h; cases h
    rw [List.cons_append, List.cons_append, getPath, getPath,
      step_setPath_self (takes_of_isContainer hcontainer)]
    exact ih h

end

/-- **The laws of writing below a value.** Let `v'` be `v` after writing `x` at `p`.
    1. `v'` has `x` at `p`, unless an array along `p`, be it one that was there or one that the write
       made, is addressed by a key that is no position or by a position beyond its end that a write may
       not add. What stands at a part of `p` in `v` decides this: where it is no container, the next
       key makes one.
    2. Whatever became of the write, `v'` has what `v` has at every path that goes with `p` up to an
       object or an array of `v` and leaves it there. -/
theorem setPath_laws (v : Value) (p : List Key) (x : Value) :
    ((∀ pre k post, p = pre ++ k :: post → (v.getPath pre).Takes k) →
      (v.setPath p x).getPath p = x) ∧
    ∀ pre k post k' post', p = pre ++ k :: post → (v.getPath pre).Apart k k' →
      (v.setPath p x).getPath (pre ++ k' :: post') = v.getPath (pre ++ k' :: post') := by
  refine ⟨fun h => getPath_setPath_self h x, fun pre k post k' post' hp h => ?_⟩
  rw [hp]
  exact getPath_setPath_apart h post post' x

/-- A list of one item beside a text. -/
def listAndNote : Value :=
  .object [("list", .array [.object [("a", .string "first")]]), ("note", .string "kept")]

/-- A write makes the list longer and an object in it; the item that was there stays, and so does a
    character of the text. -/
theorem setPath_laws_longerList :
    let path := [Key.name "list", .index 2, .name "b"]
    let written := listAndNote.setPath path (.string "x")
    (∀ pre k post, path = pre ++ k :: post → (listAndNote.getPath pre).Takes k) ∧
      written.getPath path = .string "x" ∧
      (listAndNote.getPath [.name "list"]).Apart (.index 2) (.name "+0") ∧
      written.getPath [.name "list", .name "+0", .name "a"] = .string "first" ∧
      (listAndNote.getPath []).Apart (.name "list") (.name "note") ∧
      written.getPath [.name "note", .index 1] = .string "e" := by
  intro path written
  have htakes : ∀ pre k post, path = pre ++ k :: post → (listAndNote.getPath pre).Takes k := by
    rintro (_ | ⟨k₁, _ | ⟨k₂, _ | ⟨k₃, pre⟩⟩⟩) k post h
    · trivial
    · obtain ⟨rfl, rfl, -⟩ : Key.name "list" = k₁ ∧ Key.index 2 = k ∧ _ := by simpa [path] using h
      exact ⟨2, rfl, .inr (by decide)⟩
    · obtain ⟨rfl, rfl, rfl, -⟩ :
          Key.name "list" = k₁ ∧ Key.index 2 = k₂ ∧ Key.name "b" = k ∧ _ := by simpa [path] using h
      trivial
    · simp [path] at h
  have hitem : (listAndNote.getPath [.name "list"]).Apart (.index 2) (.name "+0") :=
    .inr ⟨by decide, by decide⟩
  have hnote : (listAndNote.getPath []).Apart (.name "list") (.name "note") := by
    change "list" ≠ "note"
    decide
  obtain ⟨hread, hframe⟩ := setPath_laws listAndNote path (.string "x")
  exact ⟨htakes, hread htakes, hitem,
    hframe [.name "list"] _ [.name "b"] (.name "+0") [.name "a"] rfl hitem, hnote,
    hframe [] _ [.index 2, .name "b"] (.name "note") [.index 1] rfl hnote⟩

end Trellis.Value
