import Trellis.Proofs.Template.Described
import Trellis.Template.Arena

/-!
# The entries of trees

The entries of trees in the order of the document: that of a tree comes before those of what stands in
it, and so each one has the number of its position.
- `Node.entries`: the entries of a tree,
- `rowsFrom_entries`: a walk through entries that are those of a tree meets the rows of the tree,
- `Arena.bareFrom`: a walk that passes statements over, `bareFrom_entries`: it finds the tree without
  its statements.
-/
namespace Trellis

/-! ## 1. Entries -/

mutual

/-- The entries of a tree with a number at a position in `parent`, given the branch that a chain could
    go on with there. -/
def Node.entries (parent : Option Nat) (id index : Nat) (chain : Option Nat) : Node → List Entry
  | .text p => [⟨.text p, parent, index, [], none⟩]
  | .element e children =>
    ⟨.element e, parent, index, idsFrom (id + 1) children, none⟩
      :: entriesAll (some id) (id + 1) 0 none children
  | .branch b body =>
    ⟨.branch b, parent, index, [id + 1], if b.ifTest.isSome then none else chain⟩
      :: body.entries (some id) (id + 1) 0 none
  | .loop l body =>
    ⟨.loop l.source, parent, index, [id + 1], none⟩
      :: ⟨.round l.item l.index l.key, some id, 0, [id + 2], none⟩
      :: body.entries (some (id + 1)) (id + 2) 0 none

/-- The entries of trees one behind the other, the first of them with the number `id` at position
    `index`. -/
def entriesAll (parent : Option Nat) (id index : Nat) (chain : Option Nat) : List Node → List Entry
  | [] => []
  | n :: rest =>
    n.entries parent id index chain
      ++ entriesAll parent (id + n.size) (index + 1) (n.chainId id) rest

end

mutual

theorem length_entries : ∀ (n : Node) (parent : Option Nat) (id index : Nat) (chain : Option Nat),
    (n.entries parent id index chain).length = n.size
  | .text _, _, _, _, _ => rfl
  | .element e children, parent, id, index, chain => by
    rw [Node.entries, List.length_cons, length_entriesAll children, Node.size, Nat.add_comm]
  | .branch b body, parent, id, index, chain => by
    rw [Node.entries, List.length_cons, length_entries body, Node.size, Nat.add_comm]
  | .loop l body, parent, id, index, chain => by
    rw [Node.entries, List.length_cons, List.length_cons, length_entries body, Node.size,
      Nat.add_comm 2]

theorem length_entriesAll : ∀ (ns : List Node) (parent : Option Nat) (id index : Nat)
    (chain : Option Nat), (entriesAll parent id index chain ns).length = sizeAll ns
  | [], _, _, _, _ => rfl
  | n :: rest, parent, id, index, chain => by
    rw [entriesAll, List.length_append, length_entries n, length_entriesAll rest, sizeAll]

end

theorem entriesAll_append (parent : Option Nat) (id index : Nat) (chain : Option Nat)
    (before ns : List Node) :
    entriesAll parent id index chain (before ++ ns) =
      entriesAll parent id index chain before ++
        entriesAll parent (id + sizeAll before) (index + before.length)
          (chainBehind id chain before) ns := by
  induction before generalizing id index chain with
  | nil => rfl
  | cons m before ih =>
    rw [List.cons_append, entriesAll, ih, entriesAll, List.append_assoc, sizeAll, List.length_cons,
      chainBehind, Nat.add_assoc, Nat.add_assoc, Nat.add_comm 1]

theorem length_idsFrom (id : Nat) (ns : List Node) : (idsFrom id ns).length = ns.length := by
  induction ns generalizing id with
  | nil => rfl
  | cons n ns ih => rw [idsFrom, List.length_cons, ih, List.length_cons]

theorem idsFrom_append (id : Nat) (ns ms : List Node) :
    idsFrom id (ns ++ ms) = idsFrom id ns ++ idsFrom (id + sizeAll ns) ms := by
  induction ns generalizing id with
  | nil => rfl
  | cons n ns ih =>
    rw [List.cons_append, idsFrom, ih, idsFrom, List.cons_append, sizeAll, Nat.add_assoc]

/-- The entries of a template. -/
def entriesOf (ns : List Node) : Arena :=
  ⟨.root, none, 0, idsFrom 1 ns, none⟩ :: entriesAll (some 0) 1 0 none ns

/-! ## 2. Walks -/

namespace Arena

variable {a : Arena}

/-- What stands at the head of a part of an arena, and what behind it. -/
theorem of_prefix_cons {e : Entry} {rest : List Entry} {i : Nat} (h : e :: rest <+: a.drop i) :
    a[i]? = some e ∧ rest <+: a.drop (i + 1) :=
  ⟨Template.getElem?_of_prefix_drop h,
    Template.prefix_drop (a := [e]) (c := []) (by rwa [List.append_nil])⟩

/-- The parts of a part of an arena. -/
theorem of_prefix_append {b c : List Entry} {i : Nat} (h : b ++ c <+: a.drop i) :
    b <+: a.drop i ∧ c <+: a.drop (i + b.length) :=
  ⟨(List.prefix_append b c).trans h, Template.prefix_drop (c := []) (by rwa [List.append_nil])⟩

theorem rowsFrom_succ {fuel depth i : Nat} {e : Entry} (h : a[i]? = some e) :
    a.rowsFrom (fuel + 1) depth i =
      e.row i depth :: e.children.flatMap (a.rowsFrom fuel (depth + 1)) := by
  rw [rowsFrom, h]

mutual

/-- **A walk meets the rows of the tree whose entries stand there.** -/
theorem rowsFrom_entries : ∀ (n : Node) (s : Spot) (chain : Option Nat) (fuel : Nat),
    n.entries s.parent s.id s.index chain <+: a.drop s.id → n.size ≤ fuel →
    a.rowsFrom fuel s.depth s.id = n.rows s chain
  | n, _, _, 0, _, hfuel => absurd (Nat.lt_of_lt_of_le (size_pos n) hfuel) (Nat.lt_irrefl 0)
  | .text p, s, chain, fuel + 1, h, _ => by
    rw [rowsFrom_succ (of_prefix_cons h).1]
    rfl
  | .element e children, s, chain, fuel + 1, h, hfuel => by
    obtain ⟨hfirst, hinside⟩ := of_prefix_cons h
    have hsize : sizeAll children ≤ fuel := by
      rw [Node.size] at hfuel
      omega
    rw [rowsFrom_succ hfirst, rowsFrom_entriesAll children hinside hsize]
    rfl
  | .branch b body, s, chain, fuel + 1, h, hfuel => by
    obtain ⟨hfirst, hinside⟩ := of_prefix_cons h
    have hsize : body.size ≤ fuel := by
      rw [Node.size] at hfuel
      omega
    rw [rowsFrom_succ hfirst, List.flatMap_singleton, Node.rows,
      ← rowsFrom_entries body s.below none fuel hinside hsize]
    rfl
  | .loop l body, s, chain, 1, _, hfuel => by
    rw [Node.size] at hfuel
    omega
  | .loop l body, s, chain, fuel + 2, h, hfuel => by
    obtain ⟨hfirst, hround⟩ := of_prefix_cons h
    obtain ⟨hround, hinside⟩ := of_prefix_cons hround
    have hsize : body.size ≤ fuel := by
      rw [Node.size] at hfuel
      omega
    rw [rowsFrom_succ hfirst, List.flatMap_singleton, rowsFrom_succ hround, List.flatMap_singleton,
      Node.rows, ← rowsFrom_entries body s.below.below none fuel hinside hsize]
    rfl

theorem rowsFrom_entriesAll : ∀ (ns : List Node) {parent chain : Option Nat}
    {depth id index fuel : Nat},
    entriesAll parent id index chain ns <+: a.drop id → sizeAll ns ≤ fuel →
    (idsFrom id ns).flatMap (a.rowsFrom fuel depth) = rowsAll parent depth id index chain ns
  | [], _, _, _, _, _, _, _, _ => rfl
  | n :: rest, parent, chain, depth, id, index, fuel, h, hfuel => by
    obtain ⟨hn, hrest⟩ := of_prefix_append h
    rw [length_entries] at hrest
    rw [sizeAll] at hfuel
    rw [idsFrom, List.flatMap_cons, rowsAll,
      rowsFrom_entries n ⟨id, parent, index, depth⟩ chain fuel hn (by omega),
      rowsFrom_entriesAll rest hrest (by omega)]

end

/-- The elements and texts from an entry on, down to `fuel` entries deep. -/
def bareFrom (a : Arena) : Nat → Nat → List Bare
  | 0, _ => []
  | fuel + 1, i =>
    match a[i]? with
    | none => []
    | some e =>
      let inside := e.children.flatMap (a.bareFrom fuel)
      match e.kind with
      | .text p => [.text p.source]
      | .element x => [.element x.tag inside]
      | .root | .branch _ | .loop _ | .round .. => inside

/-- The elements and texts of an arena. -/
def bare (a : Arena) : List Bare := a.bareFrom a.length 0

theorem bareFrom_succ {fuel i : Nat} {e : Entry} (h : a[i]? = some e) :
    a.bareFrom (fuel + 1) i =
      match e.kind with
      | .text p => [.text p.source]
      | .element x => [.element x.tag (e.children.flatMap (a.bareFrom fuel))]
      | .root | .branch _ | .loop _ | .round .. => e.children.flatMap (a.bareFrom fuel) := by
  rw [bareFrom, h]

mutual

/-- **A walk finds the elements and texts of the tree whose entries stand there.** -/
theorem bareFrom_entries : ∀ (n : Node) (parent : Option Nat) (id index : Nat) (chain : Option Nat)
    (fuel : Nat), n.entries parent id index chain <+: a.drop id → n.size ≤ fuel →
    a.bareFrom fuel id = [n.bare]
  | n, _, _, _, _, 0, _, hfuel => absurd (Nat.lt_of_lt_of_le (size_pos n) hfuel) (Nat.lt_irrefl 0)
  | .text p, parent, id, index, chain, fuel + 1, h, _ => bareFrom_succ (of_prefix_cons h).1
  | .element e children, parent, id, index, chain, fuel + 1, h, hfuel => by
    obtain ⟨hfirst, hinside⟩ := of_prefix_cons h
    have hsize : sizeAll children ≤ fuel := by
      rw [Node.size] at hfuel
      omega
    rw [bareFrom_succ hfirst, Node.bare]
    dsimp only
    rw [bareFrom_entriesAll children hinside hsize]
  | .branch b body, parent, id, index, chain, fuel + 1, h, hfuel => by
    obtain ⟨hfirst, hinside⟩ := of_prefix_cons h
    have hsize : body.size ≤ fuel := by
      rw [Node.size] at hfuel
      omega
    rw [bareFrom_succ hfirst]
    dsimp only
    rw [List.flatMap_singleton, bareFrom_entries body _ _ _ _ fuel hinside hsize, Node.bare]
  | .loop l body, _, _, _, _, 1, _, hfuel => by
    rw [Node.size] at hfuel
    omega
  | .loop l body, parent, id, index, chain, fuel + 2, h, hfuel => by
    obtain ⟨hfirst, hround⟩ := of_prefix_cons h
    obtain ⟨hround, hinside⟩ := of_prefix_cons hround
    have hsize : body.size ≤ fuel := by
      rw [Node.size] at hfuel
      omega
    rw [bareFrom_succ hfirst]
    dsimp only
    rw [List.flatMap_singleton, bareFrom_succ hround]
    dsimp only
    rw [List.flatMap_singleton, bareFrom_entries body _ _ _ _ fuel hinside hsize, Node.bare]

theorem bareFrom_entriesAll : ∀ (ns : List Node) {parent chain : Option Nat} {id index fuel : Nat},
    entriesAll parent id index chain ns <+: a.drop id → sizeAll ns ≤ fuel →
    (idsFrom id ns).flatMap (a.bareFrom fuel) = Node.bareAll ns
  | [], _, _, _, _, _, _, _ => rfl
  | n :: rest, parent, chain, id, index, fuel, h, hfuel => by
    obtain ⟨hn, hrest⟩ := of_prefix_append h
    rw [length_entries] at hrest
    rw [sizeAll] at hfuel
    rw [idsFrom, List.flatMap_cons, Node.bareAll,
      bareFrom_entries n parent id index chain fuel hn (by omega),
      bareFrom_entriesAll rest hrest (by omega)]
    rfl

end

/-- **The walks through the entries of trees** find the rows of the trees, and what they are without
    their statements. -/
theorem walks_entriesOf (t : Template) :
    (entriesOf t.children).rows = t.rows ∧ (entriesOf t.children).bare = Node.bareAll t.children := by
  have hlength : (entriesOf t.children).length = sizeAll t.children + 1 := by
    rw [entriesOf, List.length_cons, length_entriesAll]
  have hinside : entriesAll (some 0) 1 0 none t.children <+: (entriesOf t.children).drop 1 :=
    List.prefix_rfl
  constructor
  · rw [rows, hlength, rowsFrom_succ rfl]
    dsimp only
    rw [rowsFrom_entriesAll _ hinside (Nat.le_refl _)]
    rfl
  · rw [bare, hlength, bareFrom_succ rfl]
    dsimp only
    rw [bareFrom_entriesAll _ hinside (Nat.le_refl _)]

end Arena

end Trellis
