import Trellis.Proofs.Template.Keys
import Trellis.Proofs.Template.Lexical
import Trellis.Proofs.Tree.Alike

/-!
# The shape of what is shown

A template whose elements name each of their attributes once shows a plain tree, whatever the data
are (`generate_plain`).
-/

namespace Trellis

/-! ## 1. Distinct names -/

mutual

/-- Whether every element that is shown as a node names each of its attributes once. -/
def Node.distinct : Node → Bool
  | .text _ => true
  | .element e children =>
    match e.kind.showing with
    | .nothing => true
    | .children => Node.distinctAll children
    | .node _ _ => decide (e.attrs.map Prod.fst).Nodup && Node.distinctAll children
  | .branch _ body => body.distinct
  | .loop _ body => body.distinct

/-- Whether every element of trees that is shown as a node names each of its attributes once. -/
def Node.distinctAll : List Node → Bool
  | [] => true
  | n :: rest => n.distinct && Node.distinctAll rest

end

/-- Whether no element of a template repeats the name of an attribute. -/
def Template.distinct (t : Template) : Bool := Node.distinctAll t.children

/-! ## 2. Cleared keys -/

/-- A plain tree without its key. -/
theorem plain_unkeyed {v : VNode} (h : v.Plain) : VNode.Plain { v with key := "" } := by
  rw [VNode.plain_iff] at h ⊢
  obtain ⟨hkind, hrest⟩ := h
  refine ⟨?_, hrest⟩
  split
  · rename_i hk
    rw [if_pos hk] at hkind
    obtain ⟨htag, hcomponent, _, hothers⟩ := hkind
    exact ⟨htag, hcomponent, rfl, hothers⟩
  · rename_i hk
    rwa [if_neg hk] at hkind

theorem plain_clearRepeats {vs : List VNode} (h : ∀ v ∈ vs, v.Plain) :
    ∀ v ∈ clearRepeats vs, v.Plain := by
  intro v hv
  obtain ⟨w, hw, rfl | rfl⟩ := mem_clearRepeats hv
  · exact h _ hw
  · exact plain_unkeyed (h w hw)

/-! ## 3. Renders -/

theorem names_attrValues (m : Machine) (layers : Layers) (place : Place) (i : Nat)
    (attrs : List (String × Program)) :
    Attrs.names (attrValues m layers place i attrs) = attrs.map Prod.fst := by
  induction attrs generalizing i with
  | nil => rfl
  | cons a attrs ih =>
    rw [attrValues, List.map_cons, ← ih (i + 1)]
    rfl

/-- No element is shown as a text. -/
theorem kind_ne_text_of_showing {k : ElementKind} {kind : VKind} {component : Option String}
    (h : k.showing = .node kind component) : kind ≠ .text := by
  rintro rfl
  cases k <;> cases h

mutual

theorem node_meaning_plain (m : Machine) : ∀ (n : Node) (layers : Layers) (place : Place)
    (before : Chain) (key : String), n.distinct = true → ∀ v ∈ n.meaning m layers place before key, v.Plain
  | .text p, layers, place, before, key, _, v, hv => by
    rw [Node.meaning, List.mem_singleton] at hv
    subst hv
    exact VNode.plain_iff.mpr ⟨⟨rfl, rfl, rfl, rfl, rfl, rfl⟩, List.nodup_nil, nofun⟩
  | .element e children, layers, place, before, key, h, v, hv => by
    rw [Node.distinct] at h
    rw [Node.meaning] at hv
    cases hshow : e.kind.showing with
    | nothing =>
      rw [hshow] at hv
      cases hv
    | children =>
      rw [hshow] at h hv
      exact meaningAll_plain m children layers _ 0 [] h v hv
    | node kind component =>
      rw [hshow] at h hv
      dsimp only at h hv
      obtain ⟨hnames, hchildren⟩ := Bool.and_eq_true_iff.mp h
      obtain rfl := List.mem_singleton.mp hv
      rw [VNode.plain_iff]
      refine ⟨?_, ?_, plain_clearRepeats (meaningAll_plain m children layers _ 0 [] hchildren)⟩
      · exact (if_neg (kind_ne_text_of_showing hshow)).symm ▸ rfl
      · rw [names_attrValues]
        exact of_decide_eq_true hnames
  | .branch b body, layers, place, before, key, h, v, hv => by
    rw [Node.meaning] at hv
    split at hv
    · exact node_meaning_plain m body layers _ [] key h v hv
    · cases hv
  | .loop l body, layers, place, before, key, h, v, hv => by
    rw [Node.meaning] at hv
    obtain ⟨⟨⟨item, index⟩, round⟩, _, hv⟩ := List.mem_flatMap.mp hv
    exact node_meaning_plain m body _ _ [] _ h v hv

theorem meaningAll_plain (m : Machine) : ∀ (ns : List Node) (layers : Layers) (place : Place) (i : Nat)
    (before : Chain), Node.distinctAll ns = true → ∀ v ∈ meaningAll m layers place i before ns, v.Plain
  | [], _, _, _, _, _, v, hv => by cases hv
  | n :: rest, layers, place, i, before, h, v, hv => by
    obtain ⟨hn, hrest⟩ := Bool.and_eq_true_iff.mp h
    rw [meaningAll, List.mem_append] at hv
    rcases hv with hv | hv
    · exact node_meaning_plain m n layers _ before "" hn v hv
    · exact meaningAll_plain m rest layers place (i + 1) (before.next n) hrest v hv

end

/-- **What a template shows is plain** when no element repeats the name of an attribute. -/
theorem generate_plain {t : Template} (h : t.distinct = true) (run : Nat) (data : Dict Value) :
    ∀ v ∈ (t.generate run data).children, v.Plain := by
  rw [t.generate_eq]
  exact plain_clearRepeats (meaningAll_plain _ _ _ _ _ _ h)

end Trellis
