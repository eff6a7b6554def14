import Trellis.Template.Chain
import Trellis.Template.Outline

/-!
# The rows of a template and its trees

The rows of a template hang together by numbers: each one names the row it stands in, those that
stand in it, and the branch that it goes on from.
- `Template.Stands`: which tree stands at which spot; whatever is said about rows is read off the
  way in which their trees stand,
- `Stands.rows_prefix` and `stood_of_mem`: the trees that stand have their rows, and there are no
  others,
- `Template.chain_links`: the branch that a row goes on from has a smaller number.
-/
namespace Trellis

/-! ## 1. Sizes and numbers -/

mutual

/-- The branch at each row of a tree; most rows are none. -/
def Node.branches : Node → List (Option Branch)
  | .text _ => [none]
  | .element _ children => none :: branchesAll children
  | .branch b body => some b :: body.branches
  | .loop _ body => none :: none :: body.branches

/-- The branch at each row of trees. -/
def branchesAll : List Node → List (Option Branch)
  | [] => []
  | n :: rest => n.branches ++ branchesAll rest

end

/-- The branch at each row of a template. -/
def Template.branches (t : Template) : List (Option Branch) := none :: branchesAll t.children

/-- The branch that a tree is. -/
def Node.branch? : Node → Option Branch
  | .branch b _ => some b
  | _ => none

mutual

theorem length_rows : ∀ (n : Node) (s : Spot) (chain : Option Nat), (n.rows s chain).length = n.size
  | .text _, _, _ => rfl
  | .element e children, s, chain => by
    rw [Node.rows, List.length_cons, length_rowsAll children, Node.size, Nat.add_comm]
  | .branch b body, s, chain => by
    rw [Node.rows, List.length_cons, length_rows body, Node.size, Nat.add_comm]
  | .loop l body, s, chain => by
    rw [Node.rows, List.length_cons, List.length_cons, length_rows body, Node.size, Nat.add_comm 2]

theorem length_rowsAll : ∀ (ns : List Node) (parent : Option Nat) (depth id index : Nat)
    (chain : Option Nat), (rowsAll parent depth id index chain ns).length = sizeAll ns
  | [], _, _, _, _, _ => rfl
  | n :: rest, parent, depth, id, index, chain => by
    rw [rowsAll, List.length_append, length_rows n, length_rowsAll rest, sizeAll]

end

mutual

theorem length_branches : ∀ n : Node, n.branches.length = n.size
  | .text _ => rfl
  | .element e children => by
    rw [Node.branches, List.length_cons, length_branchesAll children, Node.size, Nat.add_comm]
  | .branch b body => by
    rw [Node.branches, List.length_cons, length_branches body, Node.size, Nat.add_comm]
  | .loop l body => by
    rw [Node.branches, List.length_cons, List.length_cons, length_branches body, Node.size,
      Nat.add_comm 2]

theorem length_branchesAll : ∀ ns : List Node, (branchesAll ns).length = sizeAll ns
  | [] => rfl
  | n :: rest => by
    rw [branchesAll, List.length_append, length_branches n, length_branchesAll rest, sizeAll]

end

mutual

/-- The rows of a tree are numbered in order. -/
theorem ids_rows : ∀ (n : Node) (s : Spot) (chain : Option Nat),
    (n.rows s chain).map Row.id = List.range' s.id n.size
  | .text _, _, _ => rfl
  | .element e children, s, chain => by
    rw [Node.rows, List.map_cons, ids_rowsAll children, Node.size, Nat.add_comm 1 (sizeAll _),
      List.range'_succ]
    rfl
  | .branch b body, s, chain => by
    rw [Node.rows, List.map_cons, ids_rows body, Node.size, Nat.add_comm 1 body.size,
      List.range'_succ]
    rfl
  | .loop l body, s, chain => by
    rw [Node.rows, List.map_cons, List.map_cons, ids_rows body, Node.size, Nat.add_comm 2,
      List.range'_succ, List.range'_succ]
    rfl

theorem ids_rowsAll : ∀ (ns : List Node) (parent : Option Nat) (depth id index : Nat)
    (chain : Option Nat),
    (rowsAll parent depth id index chain ns).map Row.id = List.range' id (sizeAll ns)
  | [], _, _, _, _, _ => rfl
  | n :: rest, parent, depth, id, index, chain => by
    rw [rowsAll, List.map_append, ids_rows n, ids_rowsAll rest, sizeAll, List.range'_append_1]

end

theorem size_pos (n : Node) : 0 < n.size := by
  cases n <;> rw [Node.size] <;> omega

theorem sizeAll_append (ns ms : List Node) : sizeAll (ns ++ ms) = sizeAll ns + sizeAll ms := by
  induction ns with
  | nil => rw [List.nil_append, sizeAll, Nat.zero_add]
  | cons n ns ih => rw [List.cons_append, sizeAll, ih, sizeAll, Nat.add_assoc]

/-- The number of a tree is that of the first one and what the trees before it take. -/
theorem getElem?_idsFrom {ns : List Node} {id k c : Nat} :
    (idsFrom id ns)[k]? = some c ↔
      ∃ before n after, ns = before ++ n :: after ∧ before.length = k ∧ c = id + sizeAll before := by
  induction ns generalizing id k with
  | nil => simp [idsFrom]
  | cons m ns ih =>
    rw [idsFrom]
    cases k with
    | zero =>
      constructor
      · intro h
        exact ⟨[], m, ns, rfl, rfl, (Option.some.inj h).symm⟩
      · rintro ⟨before, n, after, -, hlength, rfl⟩
        obtain rfl := List.length_eq_zero_iff.mp hlength
        rfl
    | succ k =>
      rw [List.getElem?_cons_succ, ih]
      constructor
      · rintro ⟨before, n, after, rfl, rfl, rfl⟩
        exact ⟨m :: before, n, after, rfl, rfl, Nat.add_assoc ..⟩
      · rintro ⟨before, n, after, hsplit, hlength, rfl⟩
        obtain _ | ⟨m', before⟩ := before
        · cases hlength
        · obtain ⟨rfl, rfl⟩ := List.cons_eq_cons.mp hsplit
          exact ⟨before, n, after, rfl, Nat.succ.inj hlength, (Nat.add_assoc ..).symm⟩

/-- The branch that the tree behind others can go on from, the first of them with the number `id`. -/
def chainBehind (id : Nat) (chain : Option Nat) : List Node → Option Nat
  | [] => chain
  | n :: rest => chainBehind (id + n.size) (n.chainId id) rest

theorem chainBehind_concat (id : Nat) (chain : Option Nat) (before : List Node) (n : Node) :
    chainBehind id chain (before ++ [n]) = n.chainId (id + sizeAll before) := by
  induction before generalizing id chain with
  | nil => rfl
  | cons m before ih => rw [List.cons_append, chainBehind, ih, sizeAll, Nat.add_assoc]

theorem rowsAll_append (parent : Option Nat) (depth id index : Nat) (chain : Option Nat)
    (before ns : List Node) :
    rowsAll parent depth id index chain (before ++ ns) =
      rowsAll parent depth id index chain before ++
        rowsAll parent depth (id + sizeAll before) (index + before.length)
          (chainBehind id chain before) ns := by
  induction before generalizing id index chain with
  | nil => rfl
  | cons m before ih =>
    rw [List.cons_append, rowsAll, ih, rowsAll, List.append_assoc, sizeAll, List.length_cons,
      chainBehind, Nat.add_assoc, Nat.add_assoc, Nat.add_comm 1]

theorem branchesAll_append (before ns : List Node) :
    branchesAll (before ++ ns) = branchesAll before ++ branchesAll ns := by
  induction before with
  | nil => rfl
  | cons m before ih => rw [List.cons_append, branchesAll, ih, branchesAll, List.append_assoc]

/-! ## 2. Trees at their spots -/

/-- The first row of a tree. -/
def Node.row (s : Spot) (chain : Option Nat) : Node → Row
  | .text p => s.row .text "" [] (" " ++ Text.quoted p.source)
  | .element e children => s.row e.kind.rowKind e.tag (idsFrom (s.id + 1) children) e.detail
  | .branch b _ =>
    { s.row .branch "" [s.id + 1] b.detail with
      chain := if b.ifTest.isSome then none else chain
      isBranch := true }
  | .loop l _ => s.row .loop "" [s.id + 1] (labelled "for" (some l.source))

/-- The row of the rounds of a loop at a spot. -/
def Loop.round (s : Spot) (l : Loop) : Row := s.below.row .round "" [s.id + 2] l.roundDetail

theorem id_row (n : Node) (s : Spot) (chain : Option Nat) : (n.row s chain).id = s.id := by
  cases n <;> rfl

namespace Template

/-- The first row of a template. -/
def root (t : Template) : Row := (Spot.mk 0 none 0 0).row .root "" (idsFrom 1 t.children) ""

/-- Which tree stands at which spot of a template, and the branch that it can go on from. -/
inductive Stands (t : Template) : Spot → Option Nat → Node → Prop
  | top {before n after} : t.children = before ++ n :: after →
      Stands t ⟨1 + sizeAll before, some 0, before.length, 1⟩ (chainBehind 1 none before) n
  | child {s chain e before n after} : Stands t s chain (.element e (before ++ n :: after)) →
      Stands t ⟨s.id + 1 + sizeAll before, some s.id, before.length, s.depth + 1⟩
        (chainBehind (s.id + 1) none before) n
  | body {s chain b n} : Stands t s chain (.branch b n) → Stands t s.below none n
  | round {s chain l n} : Stands t s chain (.loop l n) → Stands t s.below.below none n

/-- A row is that of a tree that stands, or of the rounds of such a loop. -/
inductive Stood (t : Template) : Row → Prop
  | tree {s chain n} : t.Stands s chain n → Stood t (n.row s chain)
  | round {s chain l n} : t.Stands s chain (.loop l n) → Stood t (l.round s)

variable {t : Template} {s : Spot} {chain : Option Nat} {n : Node}

/-- A part of what stands behind the first `i` entries of a list. -/
theorem prefix_drop {α : Type} {l a b c : List α} {i : Nat} (h : a ++ (b ++ c) <+: l.drop i) :
    b <+: l.drop (i + a.length) := by
  obtain ⟨d, hd⟩ := h
  refine ⟨c ++ d, ?_⟩
  rw [← List.drop_drop, ← hd]
  simp

/-- **A tree that stands at a spot has its rows there**, and its branches at the same numbers. -/
theorem Stands.rows_prefix (h : t.Stands s chain n) :
    n.rows s chain <+: t.rows.drop s.id ∧ n.branches <+: t.branches.drop s.id := by
  induction h with
  | @top before n after hchildren =>
    have hrows : [t.root] ++ rowsAll (some 0) 1 1 0 none t.children <+: t.rows.drop 0 :=
      List.prefix_rfl
    have hbranches : [none] ++ branchesAll t.children <+: t.branches.drop 0 := List.prefix_rfl
    rw [hchildren, rowsAll_append, rowsAll, ← List.append_assoc, Nat.zero_add] at hrows
    rw [hchildren, branchesAll_append, branchesAll, ← List.append_assoc] at hbranches
    have hr := prefix_drop hrows
    have hb := prefix_drop hbranches
    rw [List.length_append, length_rowsAll, List.length_singleton, Nat.zero_add] at hr
    rw [List.length_append, length_branchesAll, List.length_singleton, Nat.zero_add] at hb
    exact ⟨hr, hb⟩
  | @child s chain e before n after _ ih =>
    obtain ⟨hrows, hbranches⟩ := ih
    rw [Node.rows, rowsAll_append, rowsAll, ← List.singleton_append, ← List.append_assoc,
      Nat.zero_add] at hrows
    rw [Node.branches, branchesAll_append, branchesAll, ← List.singleton_append,
      ← List.append_assoc] at hbranches
    have hr := prefix_drop hrows
    have hb := prefix_drop hbranches
    rw [List.length_append, length_rowsAll, List.length_singleton, ← Nat.add_assoc] at hr
    rw [List.length_append, length_branchesAll, List.length_singleton, ← Nat.add_assoc] at hb
    exact ⟨hr, hb⟩
  | @body s chain b n _ ih =>
    obtain ⟨hrows, hbranches⟩ := ih
    exact ⟨prefix_drop (a := [_]) (c := []) (by simpa [Node.rows] using hrows),
      prefix_drop (a := [_]) (c := []) (by simpa [Node.branches] using hbranches)⟩
  | @round s chain l n _ ih =>
    obtain ⟨hrows, hbranches⟩ := ih
    exact ⟨prefix_drop (a := [_, _]) (c := []) (by simpa [Node.rows] using hrows),
      prefix_drop (a := [_, _]) (c := []) (by simpa [Node.branches] using hbranches)⟩

theorem getElem?_of_prefix_drop {α : Type} {l rest : List α} {a : α} {i : Nat}
    (h : a :: rest <+: l.drop i) : l[i]? = some a := by
  obtain ⟨d, hd⟩ := h
  have hhead : (l.drop i)[0]? = some a := by rw [← hd]; rfl
  rwa [List.getElem?_drop, Nat.add_zero] at hhead

/-- A tree that stands at a spot has its first row there. -/
theorem Stands.getElem?_rows (h : t.Stands s chain n) : t.rows[s.id]? = some (n.row s chain) := by
  have hrows := h.rows_prefix.1
  cases n <;> exact getElem?_of_prefix_drop hrows

theorem Stands.getElem?_branches (h : t.Stands s chain n) : t.branches[s.id]? = some n.branch? := by
  have hbranches := h.rows_prefix.2
  cases n <;> exact getElem?_of_prefix_drop hbranches

/-- The row of the rounds follows that of the loop. -/
theorem Stands.getElem?_round {l : Loop} (h : t.Stands s chain (.loop l n)) :
    t.rows[s.id + 1]? = some (l.round s) ∧ t.branches[s.id + 1]? = some none := by
  obtain ⟨hrows, hbranches⟩ := h.rows_prefix
  have hr := prefix_drop (a := [_]) (b := _ :: _) (c := []) (by simpa [Node.rows] using hrows)
  have hb := prefix_drop (a := [_]) (b := _ :: _) (c := []) (by simpa [Node.branches] using hbranches)
  exact ⟨getElem?_of_prefix_drop hr, getElem?_of_prefix_drop hb⟩

mutual

theorem stood_of_mem_rows : ∀ (n : Node) {s : Spot} {chain : Option Nat} {r : Row},
    t.Stands s chain n → r ∈ n.rows s chain → t.Stood r
  | .text p, s, chain, r, h, hr => by
    obtain rfl := List.mem_singleton.mp hr
    exact .tree h
  | .element e children, s, chain, r, h, hr => by
    rcases List.mem_cons.mp hr with rfl | hr
    · exact .tree h
    · refine stood_of_mem_rowsAll children (fun before n after hsplit => ?_) hr
      subst hsplit
      rw [Nat.zero_add]
      exact .child h
  | .branch b body, s, chain, r, h, hr => by
    rcases List.mem_cons.mp hr with rfl | hr
    · exact .tree h
    · exact stood_of_mem_rows body (.body h) hr
  | .loop l body, s, chain, r, h, hr => by
    rcases List.mem_cons.mp hr with rfl | hr
    · exact .tree h
    · rcases List.mem_cons.mp hr with rfl | hr
      · exact .round h
      · exact stood_of_mem_rows body (.round h) hr

/-- Trees one behind the other, each of which stands where the sizes of those before it say. -/
theorem stood_of_mem_rowsAll : ∀ (ns : List Node) {parent : Option Nat} {depth id index : Nat}
    {chain : Option Nat} {r : Row},
    (∀ before n after, ns = before ++ n :: after →
      t.Stands ⟨id + sizeAll before, parent, index + before.length, depth⟩
        (chainBehind id chain before) n) →
    r ∈ rowsAll parent depth id index chain ns → t.Stood r
  | [], _, _, _, _, _, _, _, hr => by cases hr
  | n :: rest, parent, depth, id, index, chain, r, h, hr => by
    rcases List.mem_append.mp hr with hr | hr
    · exact stood_of_mem_rows n (h [] n rest rfl) hr
    · refine stood_of_mem_rowsAll rest (fun before m after hsplit => ?_) hr
      have hm := h (n :: before) m after (by rw [hsplit]; rfl)
      rwa [sizeAll, List.length_cons, chainBehind, ← Nat.add_assoc, Nat.add_comm before.length,
        ← Nat.add_assoc] at hm

end

/-- **There are no rows but the first one and those of the trees.** -/
theorem stood_of_mem {r : Row} (h : r ∈ t.rows) : r = t.root ∨ t.Stood r := by
  rcases List.mem_cons.mp h with h | h
  · exact .inl h
  · refine .inr (stood_of_mem_rowsAll t.children (fun before n after hsplit => ?_) h)
    rw [Nat.zero_add]
    exact .top hsplit

/-! ## 3. Where chains lead -/

/-- A row stands at the position of its number. -/
theorem id_of_getElem?_rows {i : Nat} {r : Row} (h : t.rows[i]? = some r) : r.id = i := by
  have hids : t.rows.map Row.id = List.range' 0 (1 + sizeAll t.children) := by
    rw [rows, List.map_cons, ids_rowsAll, Nat.add_comm 1, List.range'_succ]
    rfl
  have hid : (t.rows.map Row.id)[i]? = some r.id := by rw [List.getElem?_map, h]; rfl
  obtain ⟨hlt, heq⟩ := List.getElem?_eq_some_iff.mp (hids ▸ hid)
  rw [List.getElem_range'] at heq
  omega

/-- What a row is: the template, a tree at its spot, or the rounds of a loop. -/
theorem row_cases {i : Nat} {r : Row} (h : t.rows[i]? = some r) :
    (i = 0 ∧ r = t.root) ∨ (∃ s chain n, t.Stands s chain n ∧ i = s.id ∧ r = n.row s chain) ∨
      ∃ s chain l n, t.Stands s chain (.loop l n) ∧ i = s.id + 1 ∧ r = l.round s := by
  have hid := id_of_getElem?_rows h
  rcases stood_of_mem (List.mem_of_getElem? h) with rfl | ⟨hstands⟩ | ⟨hstands⟩
  · exact .inl ⟨hid.symm, rfl⟩
  · exact .inr (.inl ⟨_, _, _, hstands, by rw [← hid, id_row], rfl⟩)
  · exact .inr (.inr ⟨_, _, _, _, hstands, hid.symm, rfl⟩)

theorem getElem?_root (t : Template) : t.rows[0]? = some t.root := rfl

/-- **Where a chain comes from**: the tree right before, in the same row, hands it on. -/
theorem Stands.previous {c : Nat} (h : t.Stands s chain n) (hchain : chain = some c) :
    ∃ s' chain' m, t.Stands s' chain' m ∧ s.id = s'.id + m.size ∧ m.chainId s'.id = some c := by
  cases h with
  | @top before n after hchildren =>
    rcases List.eq_nil_or_concat before with rfl | ⟨before, m, rfl⟩
    · cases hchain
    · rw [List.concat_eq_append] at hchain hchildren ⊢
      rw [chainBehind_concat] at hchain
      have hm : t.Stands ⟨1 + sizeAll before, some 0, before.length, 1⟩ _ m :=
        .top (by rw [hchildren, List.append_assoc]; rfl)
      refine ⟨_, _, m, hm, ?_, hchain⟩
      rw [sizeAll_append, sizeAll, sizeAll, Nat.add_zero, Nat.add_assoc]
  | @child s chain e before n after h =>
    rcases List.eq_nil_or_concat before with rfl | ⟨before, m, rfl⟩
    · cases hchain
    · rw [List.concat_eq_append] at hchain h ⊢
      rw [List.append_assoc] at h
      rw [chainBehind_concat] at hchain
      have hm : t.Stands ⟨s.id + 1 + sizeAll before, some s.id, before.length, s.depth + 1⟩ _ m :=
        .child h
      refine ⟨_, _, m, hm, ?_, hchain⟩
      rw [sizeAll_append, sizeAll, sizeAll, Nat.add_zero]
      exact (Nat.add_assoc ..).symm
  | body h => cases hchain
  | round h => cases hchain

/-- The branch that a chain goes on from stands in the tree that hands it on. -/
theorem Stands.chain_target {c : Nat} (h : t.Stands s chain n) (hchain : n.chainId s.id = some c) :
    c < s.id + n.size ∧ ∃ b : Branch, t.branches[c]? = some (some b) ∧ b.continues = true := by
  have hpos := size_pos n
  unfold Node.chainId at hchain
  split at hchain
  · rename_i b body
    split at hchain
    · rename_i hcontinues
      obtain rfl := Option.some.inj hchain
      exact ⟨by omega, b, h.getElem?_branches, hcontinues⟩
    · cases hchain
  · rename_i l b body
    split at hchain
    · rename_i hcontinues
      obtain rfl := Option.some.inj hchain
      refine ⟨?_, b, h.round.getElem?_branches, hcontinues⟩
      rw [Node.size, Node.size]
      omega
    · cases hchain
  · cases hchain

/-- A chain is set at a branch without a test of its own. -/
theorem chain_row_cases {c : Nat} (h : (n.row s chain).chain = some c) :
    ∃ b body, n = .branch b body ∧ b.ifTest = none ∧ chain = some c := by
  cases n with
  | branch b body =>
    cases htest : b.ifTest with
    | none =>
      refine ⟨b, body, rfl, htest, ?_⟩
      simpa [Node.row, htest] using h
    | some p => simp [Node.row, htest] at h
  | text p => cases h
  | element e children => cases h
  | loop l body => cases h

/-- **Chains lead to earlier branches**: only a branch without a test of its own goes on from another
    one, which has a test and a smaller number. -/
theorem chain_links {i c : Nat} {r : Row} (h : t.rows[i]? = some r) (hc : r.chain = some c) :
    (∃ b : Branch, t.branches[i]? = some (some b) ∧ b.ifTest = none) ∧ c < i ∧
      ∃ b : Branch, t.branches[c]? = some (some b) ∧ b.continues = true := by
  rcases row_cases h with ⟨rfl, rfl⟩ | ⟨s, chain, n, hs, rfl, rfl⟩ | ⟨s, chain, l, n, hs, rfl, rfl⟩
  · cases hc
  · obtain ⟨b, body, rfl, htest, hchain⟩ := chain_row_cases hc
    obtain ⟨s', chain', m, hm, hid, hnext⟩ := hs.previous hchain
    obtain ⟨hlt, htarget⟩ := hm.chain_target hnext
    exact ⟨⟨b, hs.getElem?_branches, htest⟩, by omega, htarget⟩
  · cases hc

end Template

end Trellis
