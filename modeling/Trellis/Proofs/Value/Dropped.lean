import Trellis.Proofs.Value.Independent

/-!
# Writes that are dropped

A write is dropped when an array on its way does not take the key that comes next (`Dropped`): then
what was to be written is nowhere (`dropped_iff`). By the time that it is dropped it has gone part of
its way, and every value there that was no container has become one.
- A null, a boolean, a number, a text or a function that stands on the way of a write is lost, whether
  the write takes effect or not (`endsAtLength_of_isScalar_setPath`).
- Where none stands on the way, a dropped write keeps all of them (`getPath_setPath_dropped`).

So a dropped write destroys nothing exactly when nothing stands on its way that could be destroyed
(`dropped_keeps_iff`). The length of an array is computed and counts for nothing in this; a dropped
write may still make an array longer by empty places.
-/

namespace Trellis.Value

/-! ## 1. What a value holds -/

/-- Something stands there, and it is no container. -/
def isScalar : Value → Bool
  | .null | .bool _ | .number _ | .string _ | .function .. => true
  | .undefined | .array _ | .object _ => false

/-- The path ends at the length of an array. -/
def EndsAtLength (v : Value) (q : List Key) : Prop :=
  ∃ pre items, q = pre ++ [.name "length"] ∧ v.getPath pre = .array items

/-- A scalar can be read at a path, array lengths aside. -/
def Holds (v : Value) (q : List Key) : Prop := (v.getPath q).isScalar = true ∧ ¬ v.EndsAtLength q

section

variable {v : Value} {k : Key} {q : List Key}

theorem endsAtLength_cons (h : (v.step k).EndsAtLength q) : v.EndsAtLength (k :: q) := by
  obtain ⟨pre, items, rfl, hitems⟩ := h
  exact ⟨k :: pre, items, rfl, hitems⟩

theorem endsAtLength_length (items : List Value) : (array items).EndsAtLength [.name "length"] :=
  ⟨[], items, rfl, rfl⟩

theorem Holds.tail (h : v.Holds (k :: q)) : (v.step k).Holds q := ⟨h.1, mt endsAtLength_cons h.2⟩

/-- Nothing can be read below nothing. -/
theorem isScalar_getPath_undefined (q : List Key) : (getPath .undefined q).isScalar = false := by
  induction q with
  | nil => rfl
  | cons k q ih => exact ih

/-- Nothing can be read below the length of an array. -/
theorem eq_nil_of_isScalar_getPath_number {n : Float} (h : (getPath (.number n) q).isScalar = true) :
    q = [] := by
  cases q with
  | nil => rfl
  | cons k q =>
    have hnone : (getPath (.number n) (k :: q)).isScalar = false := isScalar_getPath_undefined q
    rw [hnone] at h
    cases h

end

/-! ## 2. Where a write is dropped -/

/-- On the way of a write stands an array, or is made, that does not take the next key: a name that is
    no position, or a position behind its end that is too far out. -/
def Dropped (v : Value) (p : List Key) : Prop :=
  ∃ pre k post, p = pre ++ k :: post ∧ ¬ (v.getPath pre).Takes k

section

variable {v : Value} {k : Key} {ks p : List Key}

theorem not_dropped_nil (v : Value) : ¬ v.Dropped [] := by
  rintro ⟨pre, k, post, h, -⟩
  exact List.append_ne_nil_of_right_ne_nil pre (List.cons_ne_nil k post) h.symm

/-- A write is dropped at its first key or below. -/
theorem dropped_cons : v.Dropped (k :: ks) ↔ ¬ v.Takes k ∨ (v.step k).Dropped ks := by
  constructor
  · rintro ⟨_ | ⟨k₀, pre⟩, k₁, post, h, htakes⟩
    · obtain ⟨rfl, rfl⟩ := List.cons.inj h
      exact .inl htakes
    · obtain ⟨rfl, rfl⟩ := List.cons.inj h
      exact .inr ⟨pre, k₁, post, rfl, htakes⟩
  · rintro (htakes | ⟨pre, k₁, post, rfl, htakes⟩)
    · exact ⟨[], k, ks, rfl, htakes⟩
    · exact ⟨k :: pre, k₁, post, rfl, htakes⟩

/-- A key that is not taken leaves the array that does not take it, and is no position of it. -/
theorem setPath_of_not_takes (h : ¬ v.Takes k) (ks : List Key) (x : Value) :
    ∃ items, v.container k = .array items ∧ v.setPath (k :: ks) x = .array items ∧
      (array items).child? k = none := by
  unfold Takes at h
  rcases container_cases v k with ⟨fields, hw⟩ | ⟨items, hw⟩
  · rw [hw] at h
    exact absurd trivial h
  · rw [hw] at h
    refine ⟨items, hw, ?_, ?_⟩
    · rw [setPath, hw]
      dsimp only
      cases hi : k.asIndex? with
      | none => rfl
      | some i =>
        dsimp only
        rw [if_pos]
        by_contra hfits
        exact h ⟨i, hi, by omega⟩
    · rw [child?]
      cases hi : k.asIndex? with
      | none => rfl
      | some i =>
        rw [Option.bind_some, List.getElem?_eq_none_iff]
        by_contra hlt
        exact h ⟨i, hi, .inl (Nat.lt_of_not_le hlt)⟩

/-- **A write is dropped exactly when it does not matter what was to be written.** -/
theorem dropped_iff : v.Dropped p ↔ ∀ x y, v.setPath p x = v.setPath p y := by
  constructor
  · intro h x y
    induction p generalizing v with
    | nil => exact absurd h (not_dropped_nil v)
    | cons k ks ih =>
      by_cases htakes : v.Takes k
      · rw [setPath_cons, setPath_cons]
        refine update_congr ?_
        rw [setPath_child?, setPath_child?]
        exact ih ((dropped_cons.mp h).resolve_left (not_not_intro htakes))
      · obtain ⟨items, hw, hx, -⟩ := setPath_of_not_takes htakes ks x
        obtain ⟨items', hw', hy, -⟩ := setPath_of_not_takes htakes ks y
        rw [hx, hy, ← hw, ← hw']
  · intro h
    by_contra hkept
    have hread : ∀ x, (v.setPath p x).getPath p = x := by
      refine fun x => getPath_setPath_self (fun pre k post hp => ?_) x
      by_contra htakes
      exact hkept ⟨pre, k, post, hp, htakes⟩
    have hsame : Value.null = .undefined := by rw [← hread .null, h .null .undefined, hread]
    cases hsame

end

/-! ## 3. What stands on the way -/

section

variable {v : Value} {pre : List Key}

/-- **Nothing that stands on the way of a write outlives it**: what is read there afterwards is a
    container, nothing, or the length of an array. By induction on the part of the way that leads there;
    behind an array that does not take its key there is nothing but the length of that array. -/
theorem endsAtLength_of_isScalar_setPath {k : Key} {post : List Key} {x : Value}
    (h : ((v.setPath (pre ++ k :: post) x).getPath pre).isScalar = true) : v.EndsAtLength pre := by
  induction pre generalizing v with
  | nil =>
    have hcontainer : (v.setPath (k :: post) x).isScalar = false := by
      rw [setPath_cons]
      rcases container_cases v k with ⟨fields, hw⟩ | ⟨items, hw⟩
      · rw [update_object hw]
        rfl
      · rw [update_array hw]
        rfl
    exact absurd h (by rw [List.nil_append, getPath, hcontainer]; exact Bool.false_ne_true)
  | cons k₀ pre ih =>
    rw [List.cons_append, getPath] at h
    by_cases htakes : v.Takes k₀
    · rw [step_setPath_self htakes] at h
      exact endsAtLength_cons (ih h)
    · obtain ⟨items, hw, hwritten, hnone⟩ := setPath_of_not_takes htakes (pre ++ k :: post) x
      rw [hwritten, step, hnone, Option.getD_none] at h
      by_cases hlength : k₀ = .name "length"
      · subst hlength
        have hv : v = .array items := by
          cases v with
          | array items' => exact hw
          | _ => cases hw
        obtain rfl := eq_nil_of_isScalar_getPath_number h
        rw [hv]
        exact endsAtLength_length items
      · rw [derived_array hlength, isScalar_getPath_undefined] at h
        cases h

/-- In the container `v`, the two keys address the same slot. -/
def Meets (v : Value) (k k' : Key) : Prop :=
  match v with
  | .object _ => k.asName = k'.asName
  | .array _ => ∃ i, k.asIndex? = some i ∧ k'.asIndex? = some i
  | _ => False

theorem ne_length_of_asIndex? {k : Key} {i : Nat} (h : k.asIndex? = some i) : k ≠ .name "length" := by
  rintro rfl
  cases h

/-- What is held below a key that is taken is held by the whole value. -/
theorem Holds.cons {k : Key} {q : List Key} (h : (v.step k).Holds q) (htakes : v.Takes k) :
    v.Holds (k :: q) := by
  refine ⟨h.1, ?_⟩
  rintro ⟨_ | ⟨k₀, pre⟩, items, hq, hitems⟩
  · obtain ⟨rfl, -⟩ := List.cons.inj hq
    obtain rfl : v = .array items := hitems
    obtain ⟨i, hi, -⟩ := htakes
    exact ne_length_of_asIndex? hi rfl
  · obtain ⟨rfl, rfl⟩ := List.cons.inj hq
    exact h.2 ⟨pre, items, rfl, hitems⟩

theorem step_of_meets {k k' : Key} (h : v.Meets k k') : v.step k' = v.step k := by
  cases v with
  | object fields =>
    have hname : k.asName = k'.asName := h
    rw [step, step, child?, child?, hname]
    rfl
  | array items =>
    obtain ⟨i, hi, hi'⟩ := h
    rw [step, step, child?, child?, hi, hi', derived_array (ne_length_of_asIndex? hi),
      derived_array (ne_length_of_asIndex? hi')]
  | _ => cases h

/-- Keys that address the same slot do so after a write, too. -/
theorem meets_setPath {k k' : Key} (h : v.Meets k k') (ks : List Key) (x : Value) :
    (v.setPath (k :: ks) x).Meets k k' := by
  rw [setPath_cons]
  cases v with
  | object fields =>
    rw [update_object rfl]
    exact h
  | array items =>
    rw [update_array rfl]
    exact h
  | _ => cases h

/-- What a container holds below a key `k'` is held apart from another key or below the same slot. -/
theorem Holds.apart_or_meets {k' : Key} {q : List Key} (h : v.Holds (k' :: q))
    (hv : v.isContainer = true) (k : Key) : v.Apart k k' ∨ v.Meets k k' := by
  cases v with
  | object fields => exact (ne_or_eq k.asName k'.asName)
  | array items =>
    by_cases hlength : k' = .name "length"
    · subst hlength
      obtain rfl := eq_nil_of_isScalar_getPath_number h.1
      exact absurd (endsAtLength_length items) h.2
    · cases hi : k.asIndex? with
      | none => exact .inl (.inl hi)
      | some i =>
        by_cases hi' : k'.asIndex? = some i
        · exact .inr ⟨i, hi, hi'⟩
        · exact .inl (.inr ⟨fun heq => hi' (heq ▸ hi), hlength⟩)
  | _ => cases hv

/-- **A dropped write that meets nothing on its way keeps what is held**, by induction on the way: what
    is held elsewhere is left alone, what is held further down the way is kept there. -/
theorem getPath_setPath_dropped {p q : List Key} (hdropped : v.Dropped p)
    (hway : ∀ pre k post, p = pre ++ k :: post → ¬ v.Holds pre) (hq : v.Holds q) (x : Value) :
    (v.setPath p x).getPath q = v.getPath q := by
  induction p generalizing v q with
  | nil => exact absurd hdropped (not_dropped_nil v)
  | cons k ks ih =>
    have hscalar : v.isScalar = false := by
      have hnil := hway [] k ks rfl
      by_contra hv
      refine hnil ⟨Bool.eq_true_of_not_eq_false hv, ?_⟩
      rintro ⟨pre, items, hpre, -⟩
      exact List.append_ne_nil_of_right_ne_nil pre (List.cons_ne_nil _ _) hpre.symm
    have hcontainer : v.isContainer = true := by
      cases v with
      | object fields => rfl
      | array items => rfl
      | undefined => exact absurd hq.1 (by rw [isScalar_getPath_undefined]; nofun)
      | _ => cases hscalar
    cases q with
    | nil =>
      have hnone : (v.getPath []).isScalar = false := hscalar
      exact absurd hq.1 (by rw [hnone]; nofun)
    | cons k' q =>
      rw [getPath, getPath]
      by_cases htakes : v.Takes k
      · rcases hq.apart_or_meets hcontainer k with hapart | hmeets
        · rw [step_setPath_apart hapart]
        · rw [step_of_meets (meets_setPath hmeets ks x), step_setPath_self htakes, step_of_meets hmeets]
          have hbelow : (v.step k).Holds q := by
            rw [← step_of_meets hmeets]
            exact hq.tail
          refine ih ((dropped_cons.mp hdropped).resolve_left (not_not_intro htakes)) ?_ hbelow
          rintro pre k₁ post rfl hpre
          exact hway (k :: pre) k₁ post rfl (hpre.cons htakes)
      · obtain ⟨items, hw, hwritten, -⟩ := setPath_of_not_takes htakes ks x
        have hv : v = .array items := by
          cases v with
          | array items' => exact hw
          | object fields => cases hw
          | _ => cases hcontainer
        rw [hwritten, hv]

/-- **When a dropped write destroys nothing.** Let a write be dropped. Every null, boolean, number, text
    and function that can be read in the value, array lengths aside, is still read at its path afterwards
    if and only if none of them stands on the way of the write, at a part of its path that has a next
    key. -/
theorem dropped_keeps_iff {p : List Key} (h : v.Dropped p) (x : Value) :
    (∀ q, v.Holds q → (v.setPath p x).getPath q = v.getPath q) ↔
      ∀ pre k post, p = pre ++ k :: post → ¬ v.Holds pre := by
  refine ⟨fun hkeeps pre k post hp hpre => ?_, fun hway q hq => getPath_setPath_dropped h hway hq x⟩
  have hread := hkeeps pre hpre
  subst hp
  exact hpre.2 (endsAtLength_of_isScalar_setPath (hread ▸ hpre.1))

/-- A write far below a text is dropped, and yet the text is lost. -/
theorem dropped_loses_text :
    let v := Value.object [("a", .string "text")]
    let p := [Key.name "a", .index 65537]
    v.Dropped p ∧ v.Holds [.name "a"] ∧
      ¬ ∀ q, v.Holds q → (v.setPath p (.bool true)).getPath q = v.getPath q := by
  intro v p
  have hdropped : v.Dropped p := by
    refine ⟨[.name "a"], .index 65537, [], rfl, ?_⟩
    rintro ⟨i, hi, hbound⟩
    obtain rfl := Option.some.inj hi
    revert hbound
    decide
  have htext : v.Holds [.name "a"] := by
    refine ⟨rfl, ?_⟩
    rintro ⟨_ | ⟨k, pre⟩, items, hq, -⟩
    · exact absurd hq (by decide)
    · exact absurd (congrArg List.length hq) (by simp)
  exact ⟨hdropped, htext, fun hkeeps =>
    (dropped_keeps_iff hdropped (.bool true)).mp hkeeps [.name "a"] (.index 65537) [] rfl htext⟩

end

end Trellis.Value
