import Mathlib.Data.List.Forall2
import Trellis.Proofs.Template.LoopedHead

/-!
# Keys that are read from items

The key of a round is read from what the item's name stands for when both names of the loop are in
scope. That is the item, whatever is around the loop, unless the index has the same name: then the
index is seen, and the key is read from it (`Loop.named`).

An element with a loop shows one node in each round that a branch around it or inside the loop lets
through, in order, and that node has the key of its round (`item_keys`), before keys that stand
twice are cleared.
-/

namespace Trellis

/-! ## 1. Keys of rounds -/

/-- The path from the item to what a key is read from; a computed key is not read from the item. -/
def KeySpec.path? : KeySpec → Option (List Key)
  | .whole => some []
  | .field path => Path.parse? path
  | .computed _ => none

/-- A round of a loop: an item with its index, and the number of the round. -/
abbrev Round := (Value × Value) × Nat

/-- What the item's name stands for in a round. -/
def Loop.named (l : Loop) (r : Round) : Value := if l.index = l.item then r.1.2 else r.1.1

/-- **The key of a round is read from what the item's name stands for**, whatever is in scope around
    the loop. -/
theorem Loop.keyOf_bindRound {l : Loop} {keys : List Key} (hkey : l.key.bind KeySpec.path? = some keys)
    (m : Machine) (layers : Layers) (r : Round) (place : Place) :
    l.keyOf m (layers.bindRound l r.1.1 r.1.2) place = keyText ((l.named r).getPath keys) := by
  have hlookup : ((layers.bindRound l r.1.1 r.1.2).lookup l.item).getD .undefined = l.named r := by
    rw [Layers.lookup_bindRound, if_pos rfl, named]
    split <;> rfl
  obtain ⟨spec, hspec, hpath⟩ := Option.bind_eq_some_iff.mp hkey
  rw [keyOf, hlookup, hspec]
  cases spec with
  | whole =>
    obtain rfl := Option.some.inj hpath
    rfl
  | field path =>
    dsimp only
    rw [show Path.parse? path = some keys from hpath]
  | computed p => cases hpath

/-! ## 2. Rounds that are shown -/

/-- The rounds of a loop, in order. -/
def Loop.rounds (l : Loop) (m : Machine) (layers : Layers) (place : Place) : List Round :=
  (l.source.value m layers (0 :: place)).items.zipIdx

/-- Whether a branch is shown where it stands. -/
def Branch.shown (b : Branch) (m : Machine) (layers : Layers) (place : Place) (before : Chain) : Bool :=
  b.holds (fun p => p.isTrue m layers (0 :: place)) before

/-- The rounds that show the element: those in which a test of its own holds; all of them or none
    when it goes on with the chain before it. -/
def Statements.rounds (s : Statements) (l : Loop) (m : Machine) (layers : Layers) (place : Place)
    (before : Chain) : List Round :=
  match s.branch? with
  | .none => l.rounds m layers place
  | some b =>
    if b.ifTest.isSome then
      (l.rounds m layers place).filter fun r =>
        b.shown m (layers.bindRound l r.1.1 r.1.2) (1 :: r.2 :: 1 :: place) []
    else if b.shown m layers place before then l.rounds m layers (1 :: place)
    else []

section

variable {P : Round → VNode → Prop} {m : Machine} {l : Loop} {body : Node} {before : Chain}

/-- A loop whose body shows one node in some of the rounds and nothing in the others shows these
    nodes in the order of their rounds. -/
theorem Loop.forall₂_rounds {layers : Layers} {place : Place} {key : String} (lets : Round → Bool)
    (hbody : ∀ r : Round, List.Forall₂ P (if lets r then [r] else [])
      (body.meaning m (layers.bindRound l r.1.1 r.1.2) (1 :: r.2 :: 1 :: place) []
        (l.keyOf m (layers.bindRound l r.1.1 r.1.2) (0 :: r.2 :: 1 :: place)))) :
    List.Forall₂ P ((l.rounds m layers place).filter lets)
      ((Node.loop l body).meaning m layers place before key) := by
  rw [Node.meaning, rounds]
  induction (l.source.value m layers (0 :: place)).items.zipIdx with
  | nil => exact .nil
  | cons r rs ih =>
    have hsplit : (r :: rs).filter lets = (if lets r then [r] else []) ++ rs.filter lets := by
      rw [List.filter_cons]
      split <;> rfl
    rw [hsplit, List.flatMap_cons]
    exact List.rel_append (hbody r) ih

/-- The statements around a body that shows one node, which has the property of the round whose key
    it is given. -/
theorem Statements.forall₂_rounds {s : Statements} {n : Node} {keys : List Key}
    (hloop : s.loop? = some l) (hkey : l.key.bind KeySpec.path? = some keys)
    (hn : ∀ (r : Round) (layers : Layers) (place : Place), List.Forall₂ P [r]
      (n.meaning m layers place [] (keyText ((l.named r).getPath keys))))
    (layers : Layers) (place : Place) (before : Chain) (key : String) :
    List.Forall₂ P (s.rounds l m layers place before)
      ((s.wrap n).meaning m layers place before key) := by
  have hlooped : s.looped n = .loop l n := by rw [looped, hloop]
  have hall : ∀ (place : Place) (before : Chain) (key : String), List.Forall₂ P
      (l.rounds m layers place) ((Node.loop l n).meaning m layers place before key) := by
    intro place before key
    have h : List.Forall₂ P ((l.rounds m layers place).filter fun _ => true)
        ((Node.loop l n).meaning m layers place before key) :=
      Loop.forall₂_rounds (fun _ => true) fun r => by
        rw [if_pos rfl, Loop.keyOf_bindRound hkey]
        exact hn r _ _
    rwa [List.filter_true] at h
  rw [rounds, wrap]
  cases s.branch? with
  | none =>
    dsimp only
    rw [hlooped]
    exact hall place before key
  | some b =>
    dsimp only
    by_cases htest : b.ifTest.isSome = true
    · rw [if_pos htest, if_pos htest, looped, hloop]
      refine Loop.forall₂_rounds _ fun r => ?_
      rw [Node.meaning, Loop.keyOf_bindRound hkey]
      change List.Forall₂ P _ (if b.shown _ _ _ _ = true then _ else _)
      split
      · exact hn r _ _
      · exact .nil
    · rw [if_neg htest, if_neg htest, Node.meaning, hlooped]
      change List.Forall₂ P _ (if b.shown m layers place before = true then _ else _)
      split
      · exact hall (1 :: place) [] key
      · exact .nil

end

/-! ## 3. Elements -/

/-- What an element shows in a round that its key is read in: one node, with the key. -/
structure KeyedBy (e : Element) (kind : VKind) (component : Option String) (key : String)
    (v : VNode) : Prop where
  kind : v.kind = kind
  tag : v.tag = e.tag
  component : v.component = component
  key : v.key = key

theorem KeyedBy.map_key {e : Element} {kind : VKind} {component : Option String} {f : Round → String}
    {rounds : List Round} {nodes : List VNode}
    (h : List.Forall₂ (fun r => KeyedBy e kind component (f r)) rounds nodes) :
    nodes.map VNode.key = rounds.map f := by
  induction h with
  | nil => rfl
  | cons hv _ ih => rw [List.map_cons, List.map_cons, hv.key, ih]

/-- **The keys of an element with a loop, whatever its names are.** If the element shows a node and
    the key of the loop is the item or what stands in it at a path, then the element is generated to
    one node for each round that shows it, in order, and the key of that node is the text of what the
    item's name stands for, read at the path, or empty where nothing stands there. So the nodes have
    the keys of their items exactly when the names are different or, in every round that is shown,
    the index gives the same key as the item. -/
theorem item_keys {s : Statements} {l : Loop} {e : Element} {kind : VKind} {component : Option String}
    {keys : List Key} (hloop : s.loop? = some l) (hkey : l.key.bind KeySpec.path? = some keys)
    (hshowing : e.kind.showing = .node kind component) (children : List Node) (m : Machine)
    (layers : Layers) (place : Place) (before : Chain) (key : String) :
    ∃ nodes,
      ((s.wrap (.element e children)).generate m place before key).run layers = (nodes, layers) ∧
      List.Forall₂
        (fun r => KeyedBy e kind component
          (keyText ((if l.index = l.item then r.1.2 else r.1.1).getPath keys)))
        (s.rounds l m layers place before) nodes ∧
      (nodes.map VNode.key =
          (s.rounds l m layers place before).map (fun r => keyText (r.1.1.getPath keys)) ↔
        l.index ≠ l.item ∨ ∀ r ∈ s.rounds l m layers place before,
          keyText (r.1.2.getPath keys) = keyText (r.1.1.getPath keys)) := by
  have hnodes : List.Forall₂
      (fun r => KeyedBy e kind component (keyText ((l.named r).getPath keys)))
      (s.rounds l m layers place before)
      ((s.wrap (.element e children)).meaning m layers place before key) := by
    refine Statements.forall₂_rounds hloop hkey (fun r layers place => ?_) layers place before key
    rw [Node.meaning, hshowing]
    exact .cons ⟨rfl, rfl, rfl, rfl⟩ .nil
  refine ⟨_, Node.generate_run m _ layers place before key, hnodes, ?_⟩
  rw [KeyedBy.map_key hnodes, List.map_inj_left]
  by_cases hnames : l.index = l.item
  · simp [Loop.named, hnames]
  · simp [Loop.named, hnames]

/-- A loop over `l` whose item and index are both called `x`, and whose key is the item. -/
def sameNames : Statements :=
  { Statements.none with
      source := some ⟨"\x7b\x7bl\x7d\x7d", [.expr (.name "l")]⟩
      item := some "x"
      index := some "x"
      key := some .whole }

/-- Over a field `a` that holds `b`, the key is the name of the field. -/
theorem item_keys_sameNames :
    ∃ nodes, ((sameNames.wrap (.element (.bare .native "p") [])).generate ⟨[], 0⟩ [0, 1] [] "").run
        ⟨[], [("l", .object [("a", .string "b")])], []⟩ =
        (nodes, ⟨[], [("l", .object [("a", .string "b")])], []⟩) ∧
      nodes.map VNode.key ≠ ["b"] := by
  obtain ⟨nodes, hrun, -, hiff⟩ :=
    @item_keys sameNames _ (.bare .native "p") _ _ [] rfl rfl rfl [] ⟨[], 0⟩
      ⟨[], [("l", .object [("a", .string "b")])], []⟩ [0, 1] [] ""
  refine ⟨nodes, hrun, fun hkeys => ?_⟩
  rcases hiff.mp hkeys with hnames | hsame
  · exact hnames rfl
  · exact absurd (hsame _ List.mem_cons_self) (by decide)

end Trellis
