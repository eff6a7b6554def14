import Mathlib.Data.List.Nodup
import Trellis.Proofs.Value.Same
import Trellis.Tree.Diff

/-!
# Attribute lists, name by name

A list of attributes is read here through `Attrs.valuesOf`: the values under one name, in order. The
first of them is `get?`, the last is `last?`, and a change of one name moves the values of that name
only (`valuesOf_set_of_ne`, `valuesOf_remove_of_ne`).

A host holds one attribute for each name, so a list with repeated names is not shown as it stands.
`Attrs.Shown` says what can be relied on all the same; it lasts through changes, and for distinct
names it is equality (`Shown.eq_of_nodup`).
-/

namespace Trellis

/-- The same value on both sides, or none on either. -/
def Value.sameOption : Option Value → Option Value → Prop
  | some v, some w => Value.same v w = true
  | none, none => True
  | _, _ => False

namespace Value

theorem sameOption_refl (v? : Option Value) : sameOption v? v? := by
  cases v? with
  | none => trivial
  | some v => exact same_refl v

theorem sameOption_symm {v? w? : Option Value} (h : sameOption v? w?) : sameOption w? v? := by
  cases v? with
  | none => cases w? with
    | none => trivial
    | some _ => exact h
  | some v => cases w? with
    | none => exact h
    | some w => exact same_symm h

theorem sameOption_trans {u? v? w? : Option Value} (h : sameOption u? v?) (h' : sameOption v? w?) :
    sameOption u? w? := by
  cases u? <;> cases v? <;> cases w? <;> first | trivial | exact h.elim | exact h'.elim | skip
  exact same_trans h h'

end Value

namespace Attrs

/-! ## 1. The values under a name -/

/-- The names of attributes, in order. -/
def names (attrs : List Attr) : List String := attrs.map Attr.name

/-- The values under a name, in order. -/
def valuesOf (attrs : List Attr) (name : String) : List Value :=
  attrs.filterMap fun a => if a.name = name then some a.value else none

theorem valuesOf_cons (a : Attr) (rest : List Attr) (name : String) :
    valuesOf (a :: rest) name =
      if a.name = name then a.value :: valuesOf rest name else valuesOf rest name := by
  rw [valuesOf, List.filterMap_cons]
  split <;> split at * <;> simp_all [valuesOf]

theorem get?_eq_head? (attrs : List Attr) (name : String) :
    get? attrs name = (valuesOf attrs name).head? := by
  induction attrs with
  | nil => rfl
  | cons a rest ih =>
    rw [get?, valuesOf_cons]
    split
    · rfl
    · exact ih

theorem last?_eq_getLast? (attrs : List Attr) (name : String) :
    last? attrs name = (valuesOf attrs name).getLast? := by
  induction attrs with
  | nil => rfl
  | cons a rest ih =>
    rw [last?, valuesOf_cons, ih]
    split
    · cases valuesOf rest name <;> simp [List.getLast?_cons]
    · simp

theorem length_valuesOf (attrs : List Attr) (name : String) :
    (valuesOf attrs name).length = (names attrs).count name := by
  induction attrs with
  | nil => rfl
  | cons a rest ih =>
    rw [valuesOf_cons, names, List.map_cons, List.count_cons, ← names, ← ih]
    by_cases h : a.name = name <;> simp [h]

/-- Names are distinct when there is at most one value under each. -/
theorem length_valuesOf_le_one {attrs : List Attr} (h : (names attrs).Nodup) (name : String) :
    (valuesOf attrs name).length ≤ 1 := by
  rw [length_valuesOf]
  exact List.nodup_iff_count_le_one.mp h name

theorem valuesOf_eq_nil_iff {attrs : List Attr} {name : String} :
    valuesOf attrs name = [] ↔ name ∉ names attrs := by
  rw [← List.length_eq_zero_iff, length_valuesOf, List.count_eq_zero]

theorem last?_eq_none_iff {attrs : List Attr} {name : String} :
    last? attrs name = none ↔ name ∉ names attrs := by
  rw [last?_eq_getLast?, List.getLast?_eq_none_iff, valuesOf_eq_nil_iff]

/-- Where a name stands at most once, its first value is its last. -/
theorem get?_eq_last? {attrs : List Attr} {name : String} (h : (valuesOf attrs name).length ≤ 1) :
    get? attrs name = last? attrs name := by
  rw [get?_eq_head?, last?_eq_getLast?]
  match valuesOf attrs name, h with
  | [], _ => rfl
  | [_], _ => rfl

/-! ## 2. Setting and removing -/

theorem valuesOf_set_self (attrs : List Attr) (name : String) (v : Value) :
    valuesOf (set attrs name v) name = v :: (valuesOf attrs name).tail := by
  induction attrs with
  | nil => simp [set, valuesOf]
  | cons a rest ih =>
    rw [set]
    split
    · rename_i h
      simp [valuesOf_cons, h]
    · rename_i h
      simp [valuesOf_cons, h, ih]

theorem valuesOf_set_of_ne (attrs : List Attr) {name other : String} (v : Value) (h : name ≠ other) :
    valuesOf (set attrs name v) other = valuesOf attrs other := by
  induction attrs with
  | nil => simp [set, valuesOf, h]
  | cons a rest ih =>
    rw [set]
    split
    · rename_i e
      simp [valuesOf_cons, e, h]
    · rw [valuesOf_cons, valuesOf_cons, ih]

theorem valuesOf_remove_self (attrs : List Attr) (name : String) :
    valuesOf (remove attrs name) name = [] := by
  rw [valuesOf_eq_nil_iff, names, remove]
  intro h
  obtain ⟨a, ha, e⟩ := List.mem_map.mp h
  have := (List.mem_filter.mp ha).2
  simp [e] at this

theorem valuesOf_remove_of_ne (attrs : List Attr) {name other : String} (h : name ≠ other) :
    valuesOf (remove attrs name) other = valuesOf attrs other := by
  induction attrs with
  | nil => rfl
  | cons a rest ih =>
    rw [remove, List.filter_cons, ← remove]
    split
    · rw [valuesOf_cons, valuesOf_cons, ih]
    · rename_i e
      have hname : a.name = name := by simpa using e
      rw [valuesOf_cons, if_neg (hname ▸ h), ih]

theorem nodup_names_iff {attrs : List Attr} :
    (names attrs).Nodup ↔ ∀ name, (valuesOf attrs name).length ≤ 1 := by
  rw [List.nodup_iff_count_le_one]
  simp only [length_valuesOf]

theorem nodup_names_set {attrs : List Attr} (h : (names attrs).Nodup) (name : String) (v : Value) :
    (names (set attrs name v)).Nodup := by
  rw [nodup_names_iff] at h ⊢
  intro other
  by_cases e : name = other
  · subst e
    have := h name
    rw [valuesOf_set_self, List.length_cons, List.length_tail]
    omega
  · rw [valuesOf_set_of_ne attrs v e]
    exact h other

theorem nodup_names_remove {attrs : List Attr} (h : (names attrs).Nodup) (name : String) :
    (names (remove attrs name)).Nodup :=
  h.sublist (List.filter_sublist.map _)

/-! ## 3. Setting one after the other -/

/-- What is left of a list of attributes that are set one after the other. -/
def settled (attrs : List Attr) : List Attr := attrs.foldl (fun acc a => set acc a.name a.value) []

theorem valuesOf_foldl_set (acc attrs : List Attr) (name : String) :
    valuesOf (attrs.foldl (fun acc a => set acc a.name a.value) acc) name =
      match last? attrs name with
      | some v => v :: (valuesOf acc name).tail
      | none => valuesOf acc name := by
  induction attrs generalizing acc with
  | nil => rfl
  | cons a rest ih =>
    rw [List.foldl_cons, ih, last?]
    by_cases e : a.name = name
    · subst e
      rw [valuesOf_set_self]
      cases last? rest a.name <;> simp
    · rw [valuesOf_set_of_ne acc a.value e]
      cases last? rest name <;> simp [e]

/-- Of a repeated name the last value is left, once. -/
theorem valuesOf_settled (attrs : List Attr) (name : String) :
    valuesOf (settled attrs) name = (last? attrs name).toList := by
  rw [settled, valuesOf_foldl_set]
  cases last? attrs name <;> rfl

/-! ## 4. One attribute for each name -/

/-- The first of equal names each. -/
def firsts : List String → List String
  | [] => []
  | n :: rest => n :: (firsts rest).filter (· ≠ n)

theorem mem_firsts {ns : List String} {name : String} : name ∈ firsts ns ↔ name ∈ ns := by
  induction ns with
  | nil => exact Iff.rfl
  | cons n rest ih =>
    rw [firsts, List.mem_cons, List.mem_cons, List.mem_filter, ih]
    by_cases e : name = n <;> simp [e]

theorem firsts_of_nodup {ns : List String} (h : ns.Nodup) : firsts ns = ns := by
  induction ns with
  | nil => rfl
  | cons n rest ih =>
    obtain ⟨hn, hrest⟩ := List.nodup_cons.mp h
    rw [firsts, ih hrest, List.filter_eq_self.mpr]
    exact fun m hm => decide_eq_true fun e => hn (e ▸ hm)

theorem firsts_filter (ns : List String) (p : String → Bool) :
    firsts (ns.filter p) = (firsts ns).filter p := by
  induction ns with
  | nil => rfl
  | cons n rest ih =>
    rw [firsts, List.filter_cons, List.filter_cons]
    split
    · rw [firsts, ih, List.filter_filter, List.filter_filter]
      simp only [Bool.and_comm]
    · rename_i hn
      rw [ih, List.filter_filter]
      refine List.filter_congr fun m _ => ?_
      by_cases e : m = n
      · subst e
        simp [hn]
      · simp [e]

theorem firsts_append_singleton (ns : List String) (name : String) :
    firsts (ns ++ [name]) = if name ∈ ns then firsts ns else firsts ns ++ [name] := by
  induction ns with
  | nil => rfl
  | cons n rest ih =>
    rw [List.cons_append, firsts, ih]
    by_cases e : name = n
    · subst e
      rw [if_pos List.mem_cons_self]
      split <;> simp [firsts]
    · by_cases hm : name ∈ rest
      · rw [if_pos hm, if_pos (List.mem_cons_of_mem _ hm), firsts]
      · rw [if_neg hm, if_neg (by simp [e, hm]), firsts, List.filter_append]
        simp [e]

theorem names_set (attrs : List Attr) (name : String) (v : Value) :
    names (set attrs name v) = if name ∈ names attrs then names attrs else names attrs ++ [name] := by
  induction attrs with
  | nil => rfl
  | cons a rest ih =>
    rw [set]
    by_cases e : a.name = name
    · rw [if_pos e, if_pos (by simp [names, e])]
      rfl
    · have hcons : names (a :: set rest name v) = a.name :: names (set rest name v) := rfl
      rw [if_neg e, hcons, ih]
      by_cases hm : name ∈ names rest
      · have hm' : name ∈ names (a :: rest) := List.mem_cons_of_mem _ hm
        rw [if_pos hm, if_pos hm']
        rfl
      · have hm' : name ∉ names (a :: rest) := fun h => (List.mem_cons.mp h).elim (e ∘ Eq.symm) hm
        rw [if_neg hm, if_neg hm']
        rfl

theorem names_remove (attrs : List Attr) (name : String) :
    names (remove attrs name) = (names attrs).filter (· ≠ name) := by
  rw [names, names, remove, List.filter_map]
  rfl

/-- What is shown of a list of attributes, each name once: the values of the names that are not
    repeated are right. -/
structure Shown (attrs shown : List Attr) : Prop where
  names_eq : names shown = firsts (names attrs)
  values : ∀ name, (valuesOf attrs name).length ≤ 1 → valuesOf shown name = valuesOf attrs name

theorem Shown.set {attrs shown : List Attr} (h : Shown attrs shown) (name : String) (v : Value) :
    Shown (set attrs name v) (set shown name v) where
  names_eq := by
    have hmem : name ∈ firsts (names attrs) ↔ name ∈ names attrs := mem_firsts
    rw [names_set, names_set, h.names_eq]
    by_cases hm : name ∈ names attrs
    · rw [if_pos (hmem.mpr hm), if_pos hm]
    · rw [if_neg (hm ∘ hmem.mp), if_neg hm, firsts_append_singleton, if_neg hm]
  values other hle := by
    by_cases e : name = other
    · subst e
      rw [valuesOf_set_self, List.length_cons, List.length_tail] at hle
      rw [valuesOf_set_self, valuesOf_set_self, h.values name (by omega)]
    · rw [valuesOf_set_of_ne attrs v e] at hle
      rw [valuesOf_set_of_ne attrs v e, valuesOf_set_of_ne shown v e, h.values other hle]

theorem Shown.remove {attrs shown : List Attr} (h : Shown attrs shown) (name : String) :
    Shown (remove attrs name) (remove shown name) where
  names_eq := by rw [names_remove, names_remove, h.names_eq, firsts_filter]
  values other hle := by
    by_cases e : name = other
    · subst e
      rw [valuesOf_remove_self, valuesOf_remove_self]
    · rw [valuesOf_remove_of_ne attrs e] at hle
      rw [valuesOf_remove_of_ne attrs e, valuesOf_remove_of_ne shown e, h.values other hle]

theorem Shown.append_singleton {attrs shown : List Attr} (h : Shown attrs shown) (a : Attr) :
    Shown (attrs ++ [a]) (Attrs.set shown a.name a.value) where
  names_eq := by
    have hmem : a.name ∈ firsts (names attrs) ↔ a.name ∈ names attrs := mem_firsts
    have happend : names (attrs ++ [a]) = names attrs ++ [a.name] := List.map_append
    rw [names_set, h.names_eq, happend, firsts_append_singleton]
    simp only [hmem]
  values name hle := by
    have happend : valuesOf (attrs ++ [a]) name = valuesOf attrs name ++ valuesOf [a] name :=
      List.filterMap_append
    rw [happend, valuesOf_cons] at hle ⊢
    by_cases e : a.name = name
    · subst e
      rw [if_pos rfl, List.length_append, List.length_cons] at hle
      have hnone : valuesOf attrs a.name = [] := List.eq_nil_of_length_eq_zero (by omega)
      rw [if_pos rfl, valuesOf_set_self, h.values a.name (by omega), hnone]
      rfl
    · rw [if_neg e, List.length_append] at hle
      rw [if_neg e, valuesOf_set_of_ne shown a.value e, h.values name (by omega)]
      exact (List.append_nil _).symm

theorem Shown.foldl_set {attrs shown : List Attr} (h : Shown attrs shown) (more : List Attr) :
    Shown (attrs ++ more) (more.foldl (fun acc a => Attrs.set acc a.name a.value) shown) := by
  induction more generalizing attrs shown with
  | nil => rwa [List.append_nil]
  | cons a more ih =>
    have hmore := ih (h.append_singleton a)
    rwa [List.append_assoc] at hmore

/-- Setting attributes one after the other shows them. -/
theorem shown_settled (attrs : List Attr) : Shown attrs (settled attrs) := by
  have hnil : Shown [] [] := ⟨rfl, fun _ _ => rfl⟩
  exact hnil.foldl_set attrs

theorem eq_of_valuesOf {attrs shown : List Attr} (hnames : names shown = names attrs)
    (hvalues : ∀ name, valuesOf shown name = valuesOf attrs name) : shown = attrs := by
  induction attrs generalizing shown with
  | nil => exact List.map_eq_nil_iff.mp hnames
  | cons a rest ih =>
    cases shown with
    | nil => cases hnames
    | cons b shown =>
      obtain ⟨hname, hrest⟩ := List.cons.inj hnames
      have hhead := hvalues a.name
      rw [valuesOf_cons, valuesOf_cons, if_pos hname, if_pos rfl] at hhead
      have hb : b = a := by
        have hvalue : b.value = a.value := (List.cons.inj hhead).1
        cases a
        cases b
        cases hname
        cases hvalue
        rfl
      subst hb
      refine congrArg _ (ih hrest fun name => ?_)
      have hboth := hvalues name
      rw [valuesOf_cons, valuesOf_cons] at hboth
      split at hboth
      · exact (List.cons.inj hboth).2
      · exact hboth

/-- **Attributes of distinct names are shown as they are.** -/
theorem Shown.eq_of_nodup {attrs shown : List Attr} (h : Shown attrs shown)
    (hnodup : (names attrs).Nodup) : shown = attrs :=
  eq_of_valuesOf (h.names_eq.trans (firsts_of_nodup hnodup)) fun name =>
    h.values name (length_valuesOf_le_one hnodup name)

end Attrs

end Trellis
