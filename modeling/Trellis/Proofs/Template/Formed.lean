import Trellis.Proofs.Template.Keys
import Trellis.Proofs.Template.Lexical
import Trellis.Proofs.Tree.Alike

/-!
# Well-formed trees

Differences rely on the form of the trees that they compare: which kinds of nodes there are, what a text
and what any other node has in it, that nothing is hosted yet, and that siblings are told apart by their
keys. `generate_wellFormed`: whatever a template shows has this form.

Keys come from loops. `Node.given` says which ones: the tree of the keys that loops hand to the nodes,
where a key goes down through conditions and is lost at a block. `VNode.KeepsFirst` compares a tree with
what was given: of siblings that were given one key the first keeps it and the others have none.
-/

namespace Trellis

/-! ## 1. The keys that loops give -/

/-- The keys that a node and the nodes below it are given. -/
inductive KeyTree where
  | node (key : String) (children : List KeyTree)

/-- The key that the node is given. -/
def KeyTree.key : KeyTree → String
  | .node key _ => key

/-- What the nodes below are given, in order. -/
def KeyTree.children : KeyTree → List KeyTree
  | .node _ children => children

mutual

/-- The keys that the nodes are given that show a tree in an environment, behind a chain of branches
    and under the key of the loop around it. -/
def Node.given (m : Machine) (layers : Layers) (place : Place) (before : Chain) (key : String) :
    Node → List KeyTree
  | .text _ => [.node "" []]
  | .element e children =>
    match e.kind.showing with
    | .nothing => []
    | .children => givenAll m layers (1 :: place) 0 [] children
    | .node _ _ => [.node key (givenAll m layers (1 :: place) 0 [] children)]
  | .branch b body =>
    if b.holds (fun p => (p.value m layers (0 :: place)).isTruthy) before then
      body.given m layers (1 :: place) [] key
    else []
  | .loop l body =>
    ((l.source.value m layers (0 :: place)).items.zipIdx).flatMap fun ((item, index), round) =>
      let layers := layers.bindRound l item index
      let place := round :: 1 :: place
      body.given m layers (1 :: place) [] (l.keyOf m layers (0 :: place))

/-- The keys that the nodes are given that show trees one behind the other, the first of them at
    position `i`. -/
def givenAll (m : Machine) (layers : Layers) (place : Place) (i : Nat) (before : Chain) :
    List Node → List KeyTree
  | [] => []
  | n :: rest =>
    n.given m layers (i :: place) before ""
      ++ givenAll m layers place (i + 1) (before.next n) rest

end

/-- The keys that the nodes are given that show a template. -/
def Template.given (t : Template) (run : Nat) (data : Dict Value) : KeyTree :=
  .node "" (givenAll t.machine (t.layers data) (renderPlace run) 0 [] t.children)

namespace VNode

/-- Below a node, the first of the siblings that were given a key has it, and all others have none. -/
inductive KeepsFirst : VNode → KeyTree → Prop
  | node {v : VNode} {g : KeyTree} (length : v.children.length = g.children.length)
      (key : ∀ (i : Nat) (c : VNode) (k : KeyTree), v.children[i]? = some c → g.children[i]? = some k →
        c.key = if Align.leads (g.children.map KeyTree.key) i then k.key else "")
      (below : ∀ (i : Nat) (c : VNode) (k : KeyTree), v.children[i]? = some c → g.children[i]? = some k →
        KeepsFirst c k) : KeepsFirst v g

/-- Only what is below a node counts. -/
theorem KeepsFirst.of_children {v w : VNode} {g : KeyTree} (h : v.KeepsFirst g)
    (hc : w.children = v.children) : w.KeepsFirst g := by
  cases h with
  | node length key below => exact .node (hc ▸ length) (hc ▸ key) (hc ▸ below)

/-! ## 2. The form of a node -/

/-- The form of a node, whatever its kind is. -/
structure Formed (v : VNode) : Prop where
  text : v.kind = .text → v.tag = "" ∧ v.key = "" ∧ v.attrs = [] ∧ v.events = [] ∧ v.children = []
  content : v.kind ≠ .text → v.content = ""
  component : v.component.isSome = true ↔ v.kind = .component
  host : v.host = none
  distinct : Align.Distinct (v.children.map VNode.key)

/-- The form of a node below the top of a tree. -/
structure FormedBelow (v : VNode) : Prop extends Formed v where
  kind : v.kind = .slot ∨ v.kind = .component ∨ v.kind = .native ∨ v.kind = .text

/-- A node that lost its key is formed as before, and so is all below it. -/
theorem Everywhere.unkeyed {v : VNode} (h : v.Everywhere FormedBelow) :
    v.unkeyed.Everywhere FormedBelow := by
  refine .node ?_ fun c hc => h.child hc
  have htop := h.top
  refine { htop with text := fun hk => ?_ }
  obtain ⟨htag, _, hothers⟩ := htop.text hk
  exact ⟨htag, rfl, hothers⟩

end VNode

open VNode

/-- What a template may show for the keys that are given: well-formed nodes with these keys. -/
structure ShownFor (v : VNode) (g : KeyTree) : Prop where
  key : v.key = g.key
  keeps : v.KeepsFirst g
  formed : v.Everywhere FormedBelow

/-! ## 3. What a template shows -/

/-- Siblings of which repeated keys are cleared are well-formed below, and keep what they were given
    first. -/
theorem shown_clearRepeats {vs : List VNode} {gs : List KeyTree} (h : List.Forall₂ ShownFor vs gs)
    {v : VNode} (hv : v.children = clearRepeats vs) (key : String) :
    v.KeepsFirst (.node key gs) ∧ ∀ c ∈ v.children, c.Everywhere FormedBelow := by
  have hlength : vs.length = gs.length := h.length_eq
  have hkeys : vs.map VNode.key = gs.map KeyTree.key := by
    rw [← List.forall₂_eq_eq_eq, List.forall₂_map_left_iff, List.forall₂_map_right_iff]
    exact h.imp fun _ _ => ShownFor.key
  -- a child is one of the siblings, with or without its key
  have hchild : ∀ (i : Nat) (c : VNode), v.children[i]? = some c → ∃ w, vs[i]? = some w ∧
      c = if Align.leads (gs.map KeyTree.key) i then w else w.unkeyed := by
    intro i c hc
    rw [hv, getElem?_clearRepeats, Option.map_eq_some_iff, hkeys] at hc
    obtain ⟨w, hw, rfl⟩ := hc
    exact ⟨w, hw, rfl⟩
  have hshown : ∀ (i : Nat) (w : VNode) (k : KeyTree), vs[i]? = some w → gs[i]? = some k →
      ShownFor w k := by
    intro i w k hw hk
    obtain ⟨hi, rfl⟩ := List.getElem?_eq_some_iff.mp hw
    obtain ⟨hi', rfl⟩ := List.getElem?_eq_some_iff.mp hk
    exact h.get hi hi'
  constructor
  · refine .node (by rw [hv, length_clearRepeats, hlength, KeyTree.children]) ?_ ?_
    · intro i c k hc hk
      obtain ⟨w, hw, rfl⟩ := hchild i c hc
      rw [KeyTree.children]
      split
      · exact (hshown i w k hw hk).key
      · rfl
    · intro i c k hc hk
      obtain ⟨w, hw, rfl⟩ := hchild i c hc
      have hkeeps := (hshown i w k hw hk).keeps
      split
      · exact hkeeps
      · exact hkeeps.of_children rfl
  · intro c hc
    obtain ⟨i, hi⟩ := List.getElem?_of_mem hc
    obtain ⟨w, hw, rfl⟩ := hchild i c hi
    have hlt : i < gs.length := hlength ▸ (List.getElem?_eq_some_iff.mp hw).1
    have hformed := (hshown i w _ hw (List.getElem?_eq_getElem hlt)).formed
    split
    · exact hformed
    · exact hformed.unkeyed

theorem formed_text (s : String) : FormedBelow (VNode.ofText s) where
  text _ := ⟨rfl, rfl, rfl, rfl, rfl⟩
  content h := absurd rfl h
  component := ⟨nofun, nofun⟩
  host := rfl
  distinct := .nil
  kind := .inr (.inr (.inr rfl))

theorem shown_text (s : String) : ShownFor (VNode.ofText s) (.node "" []) where
  key := rfl
  keeps := .node rfl nofun nofun
  formed := .node (formed_text s) nofun

/-- An element is shown as a node of a kind of its own. -/
theorem kind_of_showing {k : ElementKind} {kind : VKind} {component : Option String}
    (h : k.showing = .node kind component) :
    (kind = .slot ∨ kind = .component ∨ kind = .native) ∧
      (component.isSome = true ↔ kind = .component) := by
  cases k <;> cases h <;> simp

theorem shown_element {e : Element} {kind : VKind} {component : Option String}
    (h : e.kind.showing = .node kind component) {vs : List VNode} {gs : List KeyTree}
    (hvs : List.Forall₂ ShownFor vs gs) (key : String) (attrs : List Attr) :
    ShownFor { VNode.plain kind e.tag with
      component, key, attrs, events := e.events, children := clearRepeats vs } (.node key gs) := by
  obtain ⟨hkind, hcomponent⟩ := kind_of_showing h
  have htext : kind ≠ .text := by
    rcases hkind with rfl | rfl | rfl <;> decide
  obtain ⟨hkeeps, hbelow⟩ := shown_clearRepeats hvs (v := { VNode.plain kind e.tag with
      component, key, attrs, events := e.events, children := clearRepeats vs }) rfl key
  have hformed : FormedBelow { VNode.plain kind e.tag with
      component, key, attrs, events := e.events, children := clearRepeats vs } :=
    { text := fun hk => absurd hk htext
      content := fun _ => rfl
      component := hcomponent
      host := rfl
      distinct := distinct_clearRepeats vs
      kind := by tauto }
  exact ⟨rfl, hkeeps, .node hformed hbelow⟩

theorem forall₂_flatMap {α β γ : Type} {R : β → γ → Prop} {f : α → List β} {g : α → List γ}
    (h : ∀ a, List.Forall₂ R (f a) (g a)) (as : List α) :
    List.Forall₂ R (as.flatMap f) (as.flatMap g) := by
  induction as with
  | nil => exact .nil
  | cons a as ih =>
    rw [List.flatMap_cons, List.flatMap_cons]
    exact List.rel_append (h a) ih

mutual

/-- **A tree of a template shows well-formed nodes with the keys that are given.** -/
theorem node_shown (m : Machine) : ∀ (n : Node) (layers : Layers) (place : Place) (before : Chain)
    (key : String), List.Forall₂ ShownFor (n.meaning m layers place before key)
      (n.given m layers place before key)
  | .text p, layers, place, before, key => by
    rw [Node.meaning, Node.given]
    exact .cons (shown_text _) .nil
  | .element e children, layers, place, before, key => by
    have hall := nodes_shown m children layers (1 :: place) 0 []
    rw [Node.meaning, Node.given]
    cases hshow : e.kind.showing with
    | nothing => exact .nil
    | children => exact hall
    | node kind component => exact .cons (shown_element hshow hall key _) .nil
  | .branch b body, layers, place, before, key => by
    rw [Node.meaning, Node.given]
    split
    · exact node_shown m body layers (1 :: place) [] key
    · exact .nil
  | .loop l body, layers, place, before, key => by
    rw [Node.meaning, Node.given]
    refine forall₂_flatMap (fun ⟨⟨item, index⟩, round⟩ => ?_) _
    exact node_shown m body _ _ [] _

theorem nodes_shown (m : Machine) : ∀ (ns : List Node) (layers : Layers) (place : Place) (i : Nat)
    (before : Chain), List.Forall₂ ShownFor (meaningAll m layers place i before ns)
      (givenAll m layers place i before ns)
  | [], _, _, _, _ => by
    rw [meaningAll, givenAll]
    exact .nil
  | n :: rest, layers, place, i, before => by
    rw [meaningAll, givenAll]
    exact List.rel_append (node_shown m n layers (i :: place) before "")
      (nodes_shown m rest layers place (i + 1) (before.next n))

end

/-- **What a template shows is well formed for differences.** Only the top is a root, below it are
    slots, components, elements and texts, each in its form, and all siblings differ in their keys:
    of those that were given one key by loops the first keeps it. -/
theorem generate_wellFormed (t : Template) (run : Nat) (data : Dict Value) :
    (t.generate run data).kind = .root ∧ (t.generate run data).Formed ∧
      (∀ c ∈ (t.generate run data).children, c.Everywhere FormedBelow) ∧
      (t.generate run data).KeepsFirst (t.given run data) := by
  have hall := nodes_shown t.machine t.children (t.layers data) (renderPlace run) 0 []
  obtain ⟨hkeeps, hbelow⟩ := shown_clearRepeats hall (v := t.generate run data)
    (by rw [t.generate_eq]; rfl) ""
  have hformed : (t.generate run data).Formed :=
    { text := nofun
      content := fun _ => rfl
      component := ⟨nofun, nofun⟩
      host := rfl
      distinct := by
        rw [t.generate_eq]
        exact distinct_clearRepeats _ }
  exact ⟨rfl, hformed, hbelow, hkeeps⟩

end Trellis
