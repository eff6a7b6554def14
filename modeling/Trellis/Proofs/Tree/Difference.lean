import Trellis.Proofs.Tree.Alike
import Trellis.Proofs.Tree.Replay

/-!
# Differences of trees

Two nodes have the same identity (`VNode.SameIdentity`) when one can become the other. `Diff.tree_cases`
tells the three ways in which two trees can differ: texts with the same content do not, nodes that are
compatible differ in their parts (`Diff.tree_of_compatible`), all others replace each other.

Lists of siblings with the same keys pair up position by position and nothing moves (`align_self`).
So there is no difference between plain trees that are alike (`Diff.tree_eq_nil_of_alike`). What hosts
the old tree does not count (`Diff.tree_detach`).
-/

namespace Trellis

namespace Align

/-! ## 1. The same keys -/

/-- With the same keys on both sides every item is its own counterpart. -/
theorem Pairing.eq_range {keys : List String} {children : List (Option Nat)}
    (h : Pairing keys keys children) : children = (List.range keys.length).map some := by
  apply List.ext_getElem?
  intro i
  rw [List.getElem?_map]
  by_cases hi : i < keys.length
  · rw [List.getElem?_range hi, Option.map_some]
    rcases lead_or_other hi with ⟨k, hk, e⟩ | ⟨j, e⟩
    · rw [h.byKey k i hk e, e]
    · rw [h.inOrder j i e, e]
  · have hle : keys.length ≤ i := Nat.le_of_not_lt hi
    rw [List.getElem?_eq_none (h.length ▸ hle), List.getElem?_eq_none (List.length_range ▸ hle)]
    rfl

theorem keptFrom_map_some (i : Nat) (ns : List Nat) :
    keptFrom i (ns.map some) = List.range' i ns.length := by
  induction ns generalizing i with
  | nil => rfl
  | cons n ns ih => rw [List.map_cons, keptFrom, ih, List.length_cons, List.range'_succ]

theorem droppedFrom_map_some (i : Nat) (ns : List Nat) : droppedFrom i (ns.map some) = [] := by
  induction ns generalizing i with
  | nil => rfl
  | cons n ns ih => rw [List.map_cons, droppedFrom, ih]

/-- Items that come up in the order in which they wait keep their places. -/
theorem insertsFrom_self (waiting : List Nat) (index : Nat) :
    insertsFrom waiting index (waiting.map some) = [] := by
  induction waiting generalizing index with
  | nil => rfl
  | cons n waiting ih =>
    rw [List.map_cons, insertsFrom, if_pos List.head?_cons, List.tail_cons, ih]

theorem sources_range (count : Nat) :
    sources ((List.range count).map some) count = (List.range count).map some := by
  refine List.map_congr_left fun k hk => ?_
  have hat : ((List.range count).map some)[k]? = some (some k) := by
    rw [List.getElem?_map, List.getElem?_range (List.mem_range.mp hk), Option.map_some]
  rw [List.idxOf?_eq_some_iff]
  refine ⟨(List.getElem?_eq_some_iff.mp hat).1, ?_, fun j hj e => ?_⟩
  · simp
  · rw [List.getElem_map, List.getElem_range] at e
    exact Nat.ne_of_lt hj (Option.some.inj e)

end Align

/-- **Lists with the same keys pair up position by position, and nothing moves.** -/
theorem align_self (keys : List String) :
    (align keys keys).children = (List.range keys.length).map some ∧
      (align keys keys).moves.isEmpty = true := by
  have hc : Align.counterparts keys keys = (List.range keys.length).map some :=
    (Align.pairing_counterparts keys keys).eq_range
  refine ⟨hc, ?_⟩
  have hremoves : (align keys keys).moves.removes = [] := by
    show (Align.droppedFrom 0 (Align.counterparts keys keys)).reverse = []
    rw [hc, Align.droppedFrom_map_some]
    rfl
  have hinserts : (align keys keys).moves.inserts = [] := by
    show Align.insertsFrom (Align.keptFrom 0 (Align.counterparts keys keys)) 0
      (Align.sources (Align.counterparts keys keys) keys.length) = []
    rw [hc, Align.keptFrom_map_some, Align.sources_range, List.length_range, ← List.range_eq_range',
      Align.insertsFrom_self]
  rw [Moves.isEmpty, hremoves, hinserts]
  rfl

namespace Diff

/-! ## 2. Cases -/

theorem compatible_iff {v w : VNode} :
    compatible v w = true ↔
      v.kind = w.kind ∧ v.tag = w.tag ∧ v.component = w.component ∧ v.key = w.key := by
  simp only [compatible, Bool.and_eq_true, beq_iff_eq, and_assoc]

end Diff

namespace VNode

/-- Two nodes stand for the same item: texts with the same content, or other nodes of the same kind
    with the same tag, component and key. -/
def SameIdentity (v w : VNode) : Prop :=
  v.kind = w.kind ∧
    if v.kind = .text then v.content = w.content
    else v.tag = w.tag ∧ v.component = w.component ∧ v.key = w.key

theorem SameIdentity.refl (v : VNode) : SameIdentity v v := by
  refine ⟨rfl, ?_⟩
  split
  · rfl
  · exact ⟨rfl, rfl, rfl⟩

theorem SameIdentity.symm {v w : VNode} (h : SameIdentity v w) : SameIdentity w v := by
  obtain ⟨hkind, h⟩ := h
  refine ⟨hkind.symm, ?_⟩
  rw [hkind] at h
  split
  · rename_i ht
    rw [if_pos ht] at h
    exact h.symm
  · rename_i ht
    rw [if_neg ht] at h
    exact ⟨h.1.symm, h.2.1.symm, h.2.2.symm⟩

theorem SameIdentity.trans {u v w : VNode} (h : SameIdentity u v) (h' : SameIdentity v w) :
    SameIdentity u w := by
  obtain ⟨hkind, h⟩ := h
  obtain ⟨hkind', h'⟩ := h'
  refine ⟨hkind.trans hkind', ?_⟩
  rw [← hkind] at h'
  split
  · rename_i ht
    rw [if_pos ht] at h h'
    exact h.trans h'
  · rename_i ht
    rw [if_neg ht] at h h'
    exact ⟨h.1.trans h'.1, h.2.1.trans h'.2.1, h.2.2.trans h'.2.2⟩

theorem sameIdentity_of_text {v w : VNode} (hv : v.kind = .text) (hw : w.kind = .text)
    (hc : v.content = w.content) : SameIdentity v w := by
  refine ⟨hv.trans hw.symm, ?_⟩
  rwa [if_pos hv]

theorem sameIdentity_iff_compatible {v w : VNode} (hv : v.kind ≠ .text) :
    SameIdentity v w ↔ Diff.compatible v w = true := by
  rw [SameIdentity, if_neg hv, Diff.compatible_iff]

end VNode

namespace Diff

open VNode

/-- The counterparts of the children of a node among those of another one. -/
def partners (v w : VNode) : List (Option VNode) :=
  (align (v.children.map VNode.key) (w.children.map VNode.key)).children.map fun n? =>
    n?.bind fun n => w.children[n]?

/-- Nodes of which one can become the other differ in attributes, bindings, children and order. -/
theorem tree_of_compatible {v w : VNode} (hv : v.kind ≠ .text) (hw : w.kind ≠ .text)
    (hc : compatible v w = true) :
    tree v w =
      (match attrs v.attrs w.attrs with
        | some changes => [.setAttrs changes]
        | none => [])
        ++ (if v.events == w.events then [] else [.rebind w.events])
        ++ siblings 0 v.children (partners v w)
        ++ order w.children (align (v.children.map VNode.key) (w.children.map VNode.key)).moves := by
  obtain ⟨kind, tag, component, content, key, attrs, events, children, host⟩ := v
  have hv' : (kind == VKind.text) = false := beq_eq_false_iff_ne.mpr hv
  have hw' : (w.kind == VKind.text) = false := beq_eq_false_iff_ne.mpr hw
  rw [tree]
  simp only [VNode.isText, hv', hw', hc, Bool.or_self, Bool.false_eq_true, if_false, Bool.not_true]
  rfl

theorem tree_of_text {v w : VNode} (hv : v.kind = .text) (hw : w.kind = .text)
    (hc : v.content = w.content) : tree v w = [] := by
  obtain ⟨kind, tag, component, content, key, attrs, events, children, host⟩ := v
  simp only at hv hc
  simp [tree, VNode.isText, hv, hw, hc]

/-- Nodes with different identities replace each other. -/
theorem tree_of_not_same {v w : VNode} (h : ¬ v.SameIdentity w) : tree v w = [.replace w] := by
  obtain ⟨kind, tag, component, content, key, attrs, events, children, host⟩ := v
  by_cases hv : kind = .text
  · by_cases hw : w.kind = .text
    · have hc : content ≠ w.content := fun hc => h (sameIdentity_of_text hv hw hc)
      simp [tree, VNode.isText, hv, hw, hc]
    · simp [tree, VNode.isText, hv, hw]
  · by_cases hw : w.kind = .text
    · simp [tree, VNode.isText, hv, hw]
    · rw [sameIdentity_iff_compatible hv] at h
      simp [tree, VNode.isText, hv, hw, h]

/-- **The ways in which two trees can differ.** -/
theorem tree_cases (v w : VNode) :
    (v.kind = .text ∧ w.kind = .text ∧ v.content = w.content) ∨
      (v.kind ≠ .text ∧ w.kind ≠ .text ∧ compatible v w = true) ∨ ¬ v.SameIdentity w := by
  by_cases h : v.SameIdentity w
  · by_cases hv : v.kind = .text
    · have hc := h.2
      rw [if_pos hv] at hc
      exact .inl ⟨hv, h.1 ▸ hv, hc⟩
    · exact .inr (.inl ⟨hv, h.1 ▸ hv, (sameIdentity_iff_compatible hv).mp h⟩)
  · exact .inr (.inr h)

/-! ## 3. No difference -/

theorem siblings_nil (i : Nat) (partners : List (Option VNode)) : siblings i [] partners = [] := by
  cases partners with
  | nil => rfl
  | cons partner partners => rfl

theorem siblings_nil_partners (i : Nat) (olds : List VNode) : siblings i olds [] = [] := by
  cases olds with
  | nil => rfl
  | cons old olds => rfl

theorem siblings_eq_nil {olds : List VNode} {i : Nat} {partners : List (Option VNode)}
    (h : ∀ (j : Nat) (c w : VNode), olds[j]? = some c → partners[j]? = some (some w) →
      tree c w = []) : siblings i olds partners = [] := by
  induction olds generalizing i partners with
  | nil => exact siblings_nil i partners
  | cons old olds ih =>
    cases partners with
    | nil => exact siblings_nil_partners i (old :: olds)
    | cons partner partners =>
      have hrest : siblings (i + 1) olds partners = [] := ih fun j c w hc hw => h (j + 1) c w hc hw
      cases partner with
      | none => rw [siblings, hrest]
      | some new =>
        rw [siblings, hrest, h 0 old new rfl rfl]
        rfl

/-- Where bindings and children do not differ, only attributes do. -/
theorem tree_eq_nil_iff {v w : VNode} (hv : v.kind ≠ .text) (hw : w.kind ≠ .text)
    (hc : compatible v w = true) (hevents : v.events = w.events)
    (hkeys : v.children.map VNode.key = w.children.map VNode.key)
    (hchildren : ∀ (k : Nat) (a b : VNode), v.children[k]? = some a → w.children[k]? = some b →
      tree a b = []) : tree v w = [] ↔ changes v.attrs w.attrs = [] := by
  obtain ⟨hself, hmoves⟩ := align_self (w.children.map VNode.key)
  have hsiblings : siblings 0 v.children (partners v w) = [] := by
    refine siblings_eq_nil fun j c d hcj hdj => hchildren j c d hcj ?_
    rw [partners, hkeys, hself, List.map_map, List.getElem?_map, Option.map_eq_some_iff] at hdj
    obtain ⟨k, hk, e⟩ := hdj
    obtain ⟨hlt, rfl⟩ := List.getElem?_eq_some_iff.mp hk
    rwa [List.getElem_range] at e
  rw [tree_of_compatible hv hw hc, hsiblings, hkeys, order, if_pos hmoves, List.append_nil,
    List.append_nil, if_pos (beq_iff_eq.mpr hevents), List.append_nil, ← attrs_eq_none_iff]
  cases attrs v.attrs w.attrs with
  | none => exact ⟨fun _ => rfl, fun _ => rfl⟩
  | some changes => exact ⟨(nomatch ·), (nomatch ·)⟩

/-- **Between plain trees that are alike there is no difference.** -/
theorem tree_eq_nil_of_alike {v w : VNode} (h : Alike v w) (hv : v.Plain) (hw : w.Plain) :
    tree v w = [] := by
  induction v using VNode.induction generalizing w with
  | h v ih =>
    rw [alike_iff] at h
    obtain ⟨hkind, htag, hcomponent, hcontent, hkey, hattrs, hevents, hchildren⟩ := h
    by_cases hk : v.kind = .text
    · exact tree_of_text hk (hkind ▸ hk) hcontent
    · have hall := alikeAll_iff.mp hchildren
      refine (tree_eq_nil_iff hk (hkind ▸ hk) (compatible_iff.mpr ⟨hkind, htag, hcomponent, hkey⟩)
        hevents (map_key_of_alikeAll hchildren) fun k a b ha hb => ?_).mpr ?_
      · exact ih a (List.mem_of_getElem? ha) (hall.2 k a b ha hb)
          (hv.children a (List.mem_of_getElem? ha)) (hw.children b (List.mem_of_getElem? hb))
      · exact changes_eq_nil_iff.mpr
          (Attrs.sameOption_of_reordered hattrs hv.nodup_names)

/-! ## 4. Hosts -/

mutual

/-- **The hosts of the old tree do not count for a difference.** -/
theorem tree_detach : ∀ v w : VNode, tree v.detach w = tree v w
  | ⟨kind, tag, component, content, key, attrs, events, children, host⟩, w => by
    have hkeys : (detachAll children).map VNode.key = children.map VNode.key := by
      rw [detachAll_eq_map, List.map_map]
      exact List.map_congr_left fun ⟨_, _, _, _, _, _, _, _, _⟩ _ => rfl
    rw [VNode.detach, tree, tree, hkeys]
    dsimp only
    rw [siblings_detach children]
    rfl

theorem siblings_detach : ∀ (olds : List VNode) (i : Nat) (partners : List (Option VNode)),
    siblings i (detachAll olds) partners = siblings i olds partners
  | [], _, _ => rfl
  | old :: olds, i, [] => by rw [siblings_nil_partners, siblings_nil_partners]
  | old :: olds, i, none :: partners => by
    rw [detachAll, siblings, siblings, siblings_detach olds]
  | old :: olds, i, some new :: partners => by
    rw [detachAll, siblings, siblings, siblings_detach olds, tree_detach old]

end

end Diff

end Trellis
