import Trellis.Proofs.Tree.Moves

/-!
# Trees without a difference

`VNode.Equivalent` says what of two trees counts for a difference: of texts the content, of other nodes
everything but the host and the spelling of the attributes, which are compared name by name, the last
one of a name counting. `diff_eq_nil_iff_equivalent`: there is no difference exactly between equivalent
trees.

From no difference to equivalence the keys of texts do not matter, since without moves all siblings
stand where their counterparts stand (`Align.eq_range_of_isEmpty`). For the way back they do: texts
with other keys do not pair up.
-/

namespace Trellis

namespace VNode

/-! ## 1. Equivalent trees -/

/-- Two texts with the same content, or two other nodes that agree in kind, tag, component, key and
    bindings, in the last value under each name of an attribute, and in equivalent children. -/
inductive Equivalent : VNode → VNode → Prop
  | text {v w : VNode} (left : v.kind = .text) (right : w.kind = .text)
      (content : v.content = w.content) : Equivalent v w
  | node {v w : VNode} (left : v.kind ≠ .text) (right : w.kind ≠ .text) (kind : v.kind = w.kind)
      (tag : v.tag = w.tag) (component : v.component = w.component) (key : v.key = w.key)
      (events : v.events = w.events)
      (attrs : ∀ name, Value.sameOption (Attrs.last? v.attrs name) (Attrs.last? w.attrs name))
      (length : v.children.length = w.children.length)
      (children : ∀ (k : Nat) (a b : VNode), v.children[k]? = some a → w.children[k]? = some b →
        Equivalent a b) : Equivalent v w

/-- A node that is a text has no key. -/
def KeylessText (v : VNode) : Prop := v.kind = .text → v.key = ""

theorem Equivalent.key_eq {v w : VNode} (h : Equivalent v w) (hv : v.KeylessText) (hw : w.KeylessText) :
    v.key = w.key := by
  cases h with
  | text left right content => rw [hv left, hw right]
  | node left right kind tag component key events attrs length children => exact key

/-- Equivalent siblings have the same keys. -/
theorem map_key_of_equivalent {vs ws : List VNode} (hlength : vs.length = ws.length)
    (hall : ∀ (k : Nat) (a b : VNode), vs[k]? = some a → ws[k]? = some b → Equivalent a b)
    (hvs : ∀ v ∈ vs, v.KeylessText) (hws : ∀ w ∈ ws, w.KeylessText) :
    vs.map VNode.key = ws.map VNode.key := by
  apply List.ext_getElem
  · rw [List.length_map, List.length_map, hlength]
  · intro k hk hk'
    rw [List.length_map] at hk hk'
    rw [List.getElem_map, List.getElem_map]
    exact (hall k _ _ (List.getElem?_eq_getElem hk) (List.getElem?_eq_getElem hk')).key_eq
      (hvs _ (List.getElem_mem hk)) (hws _ (List.getElem_mem hk'))

end VNode

namespace Diff

open VNode

/-! ## 2. From no difference to equivalence -/

theorem tree_eq_nil_of_siblings {olds : List VNode} {i : Nat} {partners : List (Option VNode)}
    (h : siblings i olds partners = []) {j : Nat} {c w : VNode} (hc : olds[j]? = some c)
    (hw : partners[j]? = some (some w)) : tree c w = [] := by
  induction olds generalizing i j partners with
  | nil => cases hc
  | cons old olds ih =>
    cases partners with
    | nil => cases hw
    | cons partner partners =>
      have hrest : siblings (i + 1) olds partners = [] := by
        cases partner with
        | none => rwa [siblings] at h
        | some new =>
          rw [siblings, List.append_eq_nil_iff] at h
          exact h.2
      cases j with
      | zero =>
        obtain rfl := Option.some.inj hc
        obtain rfl := Option.some.inj hw
        rw [siblings, List.append_eq_nil_iff] at h
        have hpatches := h.1
        split at hpatches
        · rename_i hempty
          exact List.isEmpty_iff.mp hempty
        · cases hpatches
      | succ j => exact ih hrest hc hw

/-- Where there is no difference, neither are there changes, moves or differences below. -/
theorem parts_of_tree_eq_nil {v w : VNode} (hv : v.kind ≠ .text) (hw : w.kind ≠ .text)
    (hc : compatible v w = true) (h : tree v w = []) :
    changes v.attrs w.attrs = [] ∧ v.events = w.events ∧
      siblings 0 v.children (partners v w) = [] ∧
      (align (v.children.map VNode.key) (w.children.map VNode.key)).moves.isEmpty = true := by
  rw [tree_of_compatible hv hw hc, List.append_eq_nil_iff, List.append_eq_nil_iff,
    List.append_eq_nil_iff] at h
  obtain ⟨⟨⟨hattrs, hevents⟩, hsiblings⟩, horder⟩ := h
  refine ⟨?_, ?_, hsiblings, ?_⟩
  · rw [← attrs_eq_none_iff]
    cases hcase : attrs v.attrs w.attrs with
    | none => rfl
    | some changes =>
      rw [hcase] at hattrs
      cases hattrs
  · by_contra hne
    have hbeq : ¬ (v.events == w.events) = true := fun e => hne (beq_iff_eq.mp e)
    rw [if_neg hbeq] at hevents
    cases hevents
  · unfold order at horder
    split at horder
    · assumption
    · cases horder

/-- **Trees without a difference are equivalent.** -/
theorem equivalent_of_tree_eq_nil {v w : VNode} (h : tree v w = []) : Equivalent v w := by
  induction v using VNode.induction generalizing w with
  | h v ih =>
    rcases tree_cases v w with ⟨hv, hw, hcontent⟩ | ⟨hv, hw, hc⟩ | hnot
    · exact .text hv hw hcontent
    · obtain ⟨hchanges, hevents, hsiblings, hmoves⟩ := parts_of_tree_eq_nil hv hw hc h
      obtain ⟨hkind, htag, hcomponent, hkey⟩ := compatible_iff.mp hc
      obtain ⟨hlength, hchildren⟩ := Align.eq_range_of_isEmpty hmoves
      rw [List.length_map, List.length_map] at hlength
      refine .node hv hw hkind htag hcomponent hkey hevents (changes_eq_nil_iff.mp hchanges) hlength ?_
      intro k a b ha hb
      have hk : k < w.children.length := (List.getElem?_eq_some_iff.mp hb).1
      refine ih a (List.mem_of_getElem? ha) (tree_eq_nil_of_siblings hsiblings ha ?_)
      rw [partners, hchildren, List.map_map, List.getElem?_map, List.length_map,
        List.getElem?_range hk, Option.map_some, Function.comp_apply, Option.bind_some, hb]
    · rw [tree_of_not_same hnot] at h
      cases h

/-! ## 3. From equivalence to no difference -/

/-- **Equivalent trees whose texts have no key do not differ.** -/
theorem tree_eq_nil_of_equivalent {v w : VNode} (h : Equivalent v w)
    (hv : v.Everywhere KeylessText) (hw : w.Everywhere KeylessText) : tree v w = [] := by
  induction v using VNode.induction generalizing w with
  | h v ih =>
    cases h with
    | text left right content => exact tree_of_text left right content
    | node left right kind tag component key events attrs length children =>
      have hkeys := map_key_of_equivalent length children (fun c hc => (hv.child hc).top)
        fun c hc => (hw.child hc).top
      have hc : compatible v w = true := compatible_iff.mpr ⟨kind, tag, component, key⟩
      refine (tree_eq_nil_iff left right hc events hkeys ?_).mpr (changes_eq_nil_iff.mpr attrs)
      intro k a b ha hb
      have ha' := List.mem_of_getElem? ha
      exact ih a ha' (children k a b ha hb) (hv.child ha') (hw.child (List.mem_of_getElem? hb))

/-- **No tree differs from itself**, whatever keys its texts have. -/
theorem tree_self (v : VNode) : tree v v = [] := by
  induction v using VNode.induction with
  | h v ih =>
    by_cases hv : v.kind = .text
    · exact tree_of_text hv hv rfl
    · have hc : compatible v v = true := compatible_iff.mpr ⟨rfl, rfl, rfl, rfl⟩
      refine (tree_eq_nil_iff hv hv hc rfl rfl ?_).mpr ?_
      · intro k a b ha hb
        obtain rfl := Option.some.inj (ha.symm.trans hb)
        exact ih a (List.mem_of_getElem? ha)
      · exact changes_eq_nil_iff.mpr fun name => Value.sameOption_refl _

end Diff

/-- **A difference misses nothing and reports nothing spurious.** Where texts have no key it is empty
    exactly between equivalent trees; and no tree differs from itself. -/
theorem diff_eq_nil_iff_equivalent (v w : VNode) (hv : v.Everywhere VNode.KeylessText)
    (hw : w.Everywhere VNode.KeylessText) :
    (diff v w = [] ↔ v.Equivalent w) ∧ ∀ u : VNode, diff u u = [] :=
  ⟨⟨Diff.equivalent_of_tree_eq_nil, fun h => Diff.tree_eq_nil_of_equivalent h hv hw⟩, Diff.tree_self⟩

/-- An item with a key, a text and an attribute that may be repeated. -/
def repeatedItem (values : List String) : VNode :=
  { VNode.plain .native "p" with
    key := "k", attrs := values.map fun s => ⟨"x", .string s⟩, children := [VNode.ofText "t"] }

theorem keyless_repeatedItem (values : List String) :
    (repeatedItem values).Everywhere VNode.KeylessText := by
  refine .node (by intro h; cases h) fun c hc => ?_
  obtain rfl := List.mem_singleton.mp hc
  exact .node (fun _ => rfl) nofun

theorem last?_repeatedItem (values : List String) (name : String) :
    Attrs.last? (repeatedItem values).attrs name =
      if name = "x" then values.getLast?.map Value.string else none := by
  rw [Attrs.last?_eq_getLast?, Attrs.valuesOf, repeatedItem, List.filterMap_map]
  split
  · rename_i hname
    subst hname
    simp
  · rename_i hname
    simp [Ne.symm hname]

theorem equivalent_repeatedItem_iff {values values' : List String} :
    (repeatedItem values).Equivalent (repeatedItem values') ↔ values.getLast? = values'.getLast? := by
  constructor
  · intro h
    cases h with
    | text left right content => cases left
    | node left right kind tag component key events attrs length children =>
      have hx := attrs "x"
      rw [last?_repeatedItem, last?_repeatedItem, if_pos rfl, if_pos rfl] at hx
      cases hvalues : values.getLast? <;> cases hvalues' : values'.getLast? <;>
        simp_all [Value.sameOption, Value.same]
  · intro h
    refine .node nofun nofun rfl rfl rfl rfl rfl ?_ rfl ?_
    · intro name
      rw [last?_repeatedItem, last?_repeatedItem, h]
      exact Value.sameOption_refl _
    · intro k a b ha hb
      obtain rfl := List.mem_singleton.mp (List.mem_of_getElem? ha)
      obtain rfl := List.mem_singleton.mp (List.mem_of_getElem? hb)
      exact .text rfl rfl rfl

/-- Siblings with one key: no difference as long as the last values stay. -/
theorem diff_repeatedItem :
    diff (.root [repeatedItem ["1", "2"], repeatedItem ["1"]])
        (.root [repeatedItem ["2"], repeatedItem ["3", "1"]]) = [] ∧
      diff (repeatedItem ["1", "2"]) (repeatedItem ["2", "1"]) ≠ [] := by
  have hkeyless : ∀ values values' : List String,
      (VNode.root [repeatedItem values, repeatedItem values']).Everywhere VNode.KeylessText := by
    intro values values'
    refine .node (by intro h; cases h) fun c hc => ?_
    rcases List.mem_pair.mp hc with rfl | rfl
    · exact keyless_repeatedItem values
    · exact keyless_repeatedItem values'
  constructor
  · refine (diff_eq_nil_iff_equivalent _ _ (hkeyless _ _) (hkeyless _ _)).1.mpr ?_
    refine .node nofun nofun rfl rfl rfl rfl rfl (fun _ => trivial) rfl ?_
    intro k a b ha hb
    match k with
    | 0 =>
      cases ha
      cases hb
      exact equivalent_repeatedItem_iff.mpr rfl
    | 1 =>
      cases ha
      cases hb
      exact equivalent_repeatedItem_iff.mpr rfl
  · intro h
    have hequivalent := (diff_eq_nil_iff_equivalent _ _ (keyless_repeatedItem _)
      (keyless_repeatedItem _)).1.mp h
    exact absurd (equivalent_repeatedItem_iff.mp hequivalent) (by decide)

end Trellis
