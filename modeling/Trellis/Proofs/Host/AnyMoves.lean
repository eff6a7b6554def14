import Trellis.Proofs.Host.Reachable
import Trellis.Proofs.Host.Remains
import Trellis.Proofs.Host.Update

/-!
# Reorderings with moves of any kind

The positions of a reordering may lie behind the end, come twice, or name a child that is gone. A
reordering still ends well and leaves the order that the same moves give to a list alone, as long as
the children of the node host the trees of the live list, one each, in order (`InLine`). What the
trees hold, and what stands below the children, has no part in that.

- `removeAt_inLine`, `insertOne_inLine`: what one removal and one insertion preserve,
- `foldlM_removeAt_inLine`, `foldlM_insertOne_inLine`: what a run of them preserves,
- `reorder_any_moves`: the whole patch, on every host that operations lead to.
-/

namespace Trellis

/-- An insertion as a list alone sees it. -/
def Insertion.move : Insertion → Insert
  | ⟨index, .moved old⟩ => ⟨some old, index⟩
  | ⟨index, .fresh _⟩ => ⟨none, index⟩

/-- In a list without repetitions a value stands at one position only. -/
theorem Host.filter_ne_of_getElem? {l : List Handle} {i : Nat} {c : Handle} (hl : l.Nodup)
    (hi : l[i]? = some c) : l.filter (· ≠ c) = l.eraseIdx i := by
  have hcut := Moves.eq_take_cons_drop hi
  rw [hcut, List.nodup_middle, List.nodup_cons, List.mem_append, not_or] at hl
  conv => lhs; rw [hcut]
  rw [filter_ne_middle hl.1.1 hl.1.2, List.eraseIdx_eq_take_drop_succ]

/-- Before what stands at a position, or at the end when nothing does. -/
theorem Host.placed_drop {l : List Handle} (hl : l.Nodup) (k : Nat) (c : Handle) :
    placed l c (l.drop k).head? = l.take k ++ c :: l.drop k := by
  have hapart : ∀ r ∈ l.drop k, r ∉ l.take k := fun r hr hr' =>
    List.disjoint_take_drop hl (Nat.le_refl k) hr' hr
  have hplaced := placed_middle hapart c
  rwa [List.take_append_drop] at hplaced

namespace Patch

open VNode Host

/-! ## 1. Live lists that a host shows -/

/-- The children of a node host the trees of a live list, in its order. -/
structure InLine (h : Host) (n : Handle) (live : Moves.Live VNode) : Prop where
  forest : h.Forest
  known : h.get? n ≠ none
  hosts : (trees live).map VNode.host = (h.children n).map some

section

variable {h : Host} {n : Handle} {live : Moves.Live VNode} {bound : Nat}

/-- What stands at a position of the live list is hosted by the child at that position. -/
theorem InLine.child (hl : InLine h n live) {i : Nat} {item : Option Nat × VNode}
    (hi : live[i]? = some item) :
    ∃ c, item.2.host = some c ∧ (h.children n)[i]? = some c ∧ h.parent? c = some n := by
  have hhost := congrArg (·[i]?) hl.hosts
  simp only [trees, List.getElem?_map, hi, Option.map_some] at hhost
  obtain ⟨c, hc, hhost⟩ := Option.map_eq_some_iff.mp hhost.symm
  exact ⟨c, hhost.symm, hc, (hl.forest.mem_children_iff n c).mp (List.mem_of_getElem? hc)⟩

/-- The hosts of the other trees are the other children. -/
theorem InLine.hosts_eraseIdx (hl : InLine h n live) {i : Nat} {c : Handle}
    (hi : (h.children n)[i]? = some c) :
    (trees (live.eraseIdx i)).map VNode.host = ((h.children n).filter (· ≠ c)).map some := by
  rw [filter_ne_of_getElem? (hl.forest.nodup_children n) hi, ← List.eraseIdx_map, ← hl.hosts,
    trees, trees, ← List.eraseIdx_map, ← List.eraseIdx_map]

/-! ## 2. Removals -/

/-- One removal takes the child away that stands at the position, and no other. -/
theorem removeAt_inLine (hl : InLine h n live) (i : Nat) :
    ∃ h', removeAt n live i h = (.ok (Moves.removeAt live i), h') ∧
      InLine h' n (Moves.removeAt live i) ∧ (∀ bound, Remains bound h h') ∧
      ∀ p ∈ live, p ∈ Moves.removeAt live i ∨ ∃ m, p.2.host = some m ∧ h'.get? m = none := by
  cases hi : live[i]? with
  | none =>
    obtain ⟨hrun, hsame⟩ := removeAt_of_none n hi
    rw [hrun, hsame]
    exact ⟨h, rfl, hl, fun _ => .refl hl.forest, fun p hp => .inl hp⟩
  | some item =>
    obtain ⟨c, hhost, hc, hpar⟩ := hl.child hi
    obtain ⟨h', hrun, hremains, hgone, hknown, hrest⟩ := hl.forest.remove_ok hpar
    refine ⟨h', removeAt_apply hi hhost hrun, ⟨(hremains 0).forest, hknown, ?_⟩, hremains,
      fun p hp => ?_⟩
    · rw [Moves.removeAt, hl.hosts_eraseIdx hc, hrest]
    · rw [Moves.eq_take_cons_drop hi, List.mem_append, List.mem_cons] at hp
      rw [Moves.removeAt, List.eraseIdx_eq_take_drop_succ, List.mem_append]
      rcases hp with hp | rfl | hp
      · exact .inl (.inl hp)
      · exact .inr ⟨c, hhost, hgone⟩
      · exact .inl (.inr hp)

/-- Removals end well, and what they take out of the list is gone from the host. -/
theorem foldlM_removeAt_inLine (removes : List Nat) (hl : InLine h n live) :
    ∃ h', removes.foldlM (removeAt n) live h = (.ok (removes.foldl Moves.removeAt live), h') ∧
      InLine h' n (removes.foldl Moves.removeAt live) ∧ (∀ bound, Remains bound h h') ∧
      ∀ p ∈ live, p ∈ removes.foldl Moves.removeAt live ∨
        ∃ m, p.2.host = some m ∧ h'.get? m = none := by
  induction removes generalizing h live with
  | nil => exact ⟨h, rfl, hl, fun _ => .refl hl.forest, fun p hp => .inl hp⟩
  | cons i removes ih =>
    obtain ⟨h₁, hrun₁, hl₁, hremains₁, hout₁⟩ := removeAt_inLine hl i
    obtain ⟨h₂, hrun₂, hl₂, hremains₂, hout₂⟩ := ih hl₁
    refine ⟨h₂, ?_, hl₂, fun bound => (hremains₁ bound).trans (hremains₂ bound), fun p hp => ?_⟩
    · rw [List.foldlM_cons, Run.bind_ok hrun₁, hrun₂, List.foldl_cons]
    · rcases hout₁ p hp with hp | ⟨m, hm, hgone⟩
      · exact hout₂ p hp
      · exact .inr ⟨m, hm, (hremains₂ (m + 1)).gone m (Nat.lt_succ_self m) hgone⟩

/-! ## 3. Insertions -/

theorem head?_bind_host {vs : List VNode} {cs : List Handle}
    (h : vs.map VNode.host = cs.map some) : vs.head?.bind VNode.host = cs.head? := by
  cases vs with
  | nil => rw [List.map_eq_nil_iff.mp h.symm]; rfl
  | cons v vs =>
    cases cs with
    | nil => cases h
    | cons c cs => exact (List.cons.inj h).1

/-- **Putting a tree at a position ends well** when its host is known and does not stand around the
    node: it comes to stand before the child that hosts the tree at that position. -/
theorem putAt_inLine {rest : Moves.Live VNode} {item : Option Nat × VNode} {c : Handle}
    (hf : h.Forest) (hn : h.get? n ≠ none) (hc : h.get? c ≠ none) (hitem : item.2.host = some c)
    (hcycle : c ∉ h.path n)
    (hrest : (trees rest).map VNode.host = ((h.children n).filter (· ≠ c)).map some) (i : Nat) :
    ∃ h' before, putAt n rest i item h = (.ok (Moves.putAt rest i item), h') ∧
      Moved h n c before h' ∧ InLine h' n (Moves.putAt rest i item) := by
  obtain ⟨nn, hnn⟩ := Option.ne_none_iff_exists'.mp hn
  obtain ⟨nc, hnc⟩ := Option.ne_none_iff_exists'.mp hc
  generalize hcs : (h.children n).filter (· ≠ c) = cs at hrest
  have hmem : ∀ r ∈ cs, h.parent? r = some n ∧ r ≠ c := by
    intro r hr
    rw [← hcs, List.mem_filter, hf.mem_children_iff, decide_eq_true_iff] at hr
    exact hr
  have hnodup : cs.Nodup := hcs ▸ (hf.nodup_children n).filter _
  generalize hk : min i rest.length = k
  have hfront : (trees (rest.take k)).map VNode.host = (cs.take k).map some := by
    rw [trees, List.map_take, List.map_take, hrest, List.map_take]
  have hback : (trees (rest.drop k)).map VNode.host = (cs.drop k).map some := by
    rw [trees, List.map_drop, List.map_drop, hrest, List.map_drop]
  have hbefore : ∀ r, (cs.drop k).head? = some r → h.parent? r = some n ∧ r ≠ c := fun r hr =>
    hmem r (List.mem_of_mem_drop (List.mem_of_mem_head? hr))
  obtain ⟨h₁, hrun, hmoved⟩ := hf.attach_ok hnn hnc hcycle hbefore
  have hinsert : insertBefore n c ((trees (rest.drop k)).head?.bind VNode.host) h =
      (.ok (), { h₁ with log := .insertBefore n c :: h₁.log }) := by
    rw [head?_bind_host hback, insertBefore, Run.bind_ok hrun, record_apply]
  refine ⟨_, _, putAt_apply hitem (hk ▸ hinsert), hmoved.log _,
    ⟨(hmoved.forest hf hcycle).log _, ?_, ?_⟩⟩
  · rw [get?_log, ← Option.isSome_iff_ne_none, hmoved.known, hnn]
    rfl
  · rw [trees_putAt, hk, List.map_append, List.map_cons, hfront, hback, hitem]
    show _ = (h₁.children n).map some
    rw [hmoved.children, if_pos rfl, hcs, placed_drop hnodup, List.map_append, List.map_cons]

/-- A child is put at another position. -/
theorem putAt_moved_inLine (hl : InLine h n live) {j : Nat} {item : Option Nat × VNode}
    (hj : live[j]? = some item) (i : Nat) :
    ∃ h', putAt n (live.eraseIdx j) i item h =
        (.ok (Moves.putAt (live.eraseIdx j) i item), h') ∧
      InLine h' n (Moves.putAt (live.eraseIdx j) i item) ∧ Remains bound h h' := by
  obtain ⟨c, hhost, hc, hpar⟩ := hl.child hj
  obtain ⟨nc, hnc, -⟩ := exists_of_parent? hpar
  have hcycle : c ∉ h.path n := fun hmem =>
    hl.forest.acyclic c (.tail' (hl.forest.mem_path_iff.mp hmem) hpar)
  obtain ⟨h', before, hrun, hmoved, hl'⟩ := putAt_inLine hl.forest hl.known
    (hnc ▸ Option.some_ne_none nc) hhost hcycle (hl.hosts_eraseIdx hc) i
  exact ⟨h', hrun, hl', hmoved.remains hl.forest hcycle (.inr hpar)⟩

/-- A rendered tree is put at a position. -/
theorem putAt_rendered_inLine {h₁ : Host} {v w : VNode} (hl : InLine h n live)
    (hr : Rendered h v h₁ w) (hf : h₁.Forest) (hbound : bound ≤ h.nodes.size) (i : Nat) :
    ∃ h', putAt n live i (none, w) h₁ = (.ok (Moves.putAt live i (none, w)), h') ∧
      InLine h' n (Moves.putAt live i (none, w)) ∧ Remains bound h h' := by
  obtain ⟨nn, hnn⟩ := Option.ne_none_iff_exists'.mp hl.known
  have hget : h₁.get? n = h.get? n := hr.get?_eq (lt_size_of_get? hnn)
  have htop : ¬ w.top < h.nodes.size := hr.not_lt hr.shows.top_mem
  obtain ⟨nw, hnw⟩ := hr.shows.known w.top hr.shows.top_mem
  have hsame : h₁.children n = h.children n := by rw [children_eq, hget, ← children_eq]
  have hnot : w.top ∉ h.children n := fun hmem => htop (hl.forest.child_lt hmem)
  have hcycle : w.top ∉ h₁.path n := fun hmem => by
    have ho := hl.forest.around hnn
    exact htop (ho.taken ((hr.around ho).of_mem_outwards ho.self hmem))
  have hrest : (trees live).map VNode.host = ((h₁.children n).filter (· ≠ w.top)).map some := by
    rw [hsame, filter_ne_of_not_mem hnot, hl.hosts]
  have hhost : ((none, w) : Option Nat × VNode).2.host = some w.top := hr.shows.host_eq
  obtain ⟨h', before, hrun, hmoved, hl'⟩ := putAt_inLine hf (hget ▸ hl.known)
    (hnw ▸ Option.some_ne_none nw) hhost hcycle hrest i
  refine ⟨h', hrun, hl', (hr.remains hf hbound).trans (hmoved.remains hf hcycle (.inl ?_))⟩
  exact Nat.le_trans hbound (Nat.not_lt.mp htop)

/-- A tree for an insertion. Where the insertion asks for a fresh one it is the tree asked for, with
    handles from a bound on. -/
def Made (bound : Nat) (ins : Insertion) (w : VNode) : Prop :=
  ∀ node, ins.source = .fresh node → w.detach = node.detach ∧ ∀ m ∈ w.handles, bound ≤ m

/-- **One insertion ends well**, whatever it asks for, and the list changes as it would alone. -/
theorem insertOne_inLine (hl : InLine h n live) (hbound : bound ≤ h.nodes.size) (ins : Insertion) :
    ∃ h' w, insertOne n live ins h = (.ok (Moves.insertItem live (ins.move, w)), h') ∧
      InLine h' n (Moves.insertItem live (ins.move, w)) ∧ Remains bound h h' ∧ Made bound ins w := by
  obtain ⟨index, source⟩ := ins
  cases source with
  | fresh node =>
    obtain ⟨h₁, w, hrun₁, hr⟩ := render_spec node h
    have hf₁ : h₁.Forest := by
      have hforest := keepsForest_render node h hl.forest
      rwa [hrun₁] at hforest
    obtain ⟨h', hrun, hl', hremains⟩ := putAt_rendered_inLine hl hr hf₁ hbound index
    refine ⟨h', w, ?_, hl', hremains, fun node' e => ?_⟩
    · show (render node >>= fun p => putAt n live index (none, p.2)) h = _
      rw [Run.bind_ok hrun₁, hrun]
      rfl
    · obtain rfl := Source.fresh.inj e
      exact ⟨hr.detach_eq, fun m hm => Nat.le_trans hbound (hr.size_le_of_mem hm)⟩
  | moved old =>
    -- a move puts no new tree in, so any tree will do
    have hmade : Made bound ⟨index, .moved old⟩ default := fun node e => nomatch e
    rw [Insertion.move]
    rcases moved_cases n live index old default with ⟨hone, hitem⟩ | ⟨j, item, hj, hone, hitem⟩
    · exact ⟨h, default, by rw [hone, hitem]; rfl, hitem.symm ▸ hl, .refl hl.forest, hmade⟩
    · obtain ⟨h', hrun, hl', hremains⟩ := putAt_moved_inLine hl hj index
      exact ⟨h', default, by rw [hone, hitem, hrun], hitem.symm ▸ hl', hremains, hmade⟩

/-- Insertions end well, with a tree for each of them. -/
theorem foldlM_insertOne_inLine (inserts : List Insertion) (hl : InLine h n live)
    (hbound : bound ≤ h.nodes.size) :
    ∃ h' made, inserts.foldlM (insertOne n) live h =
        (.ok (((inserts.map Insertion.move).zip made).foldl Moves.insertItem live), h') ∧
      InLine h' n (((inserts.map Insertion.move).zip made).foldl Moves.insertItem live) ∧
      Remains bound h h' ∧ List.Forall₂ (Made bound) inserts made := by
  induction inserts generalizing h live with
  | nil => exact ⟨h, [], rfl, hl, .refl hl.forest, .nil⟩
  | cons ins inserts ih =>
    obtain ⟨h₁, w, hrun₁, hl₁, hremains₁, hmade⟩ := insertOne_inLine hl hbound ins
    obtain ⟨h₂, made, hrun₂, hl₂, hremains₂, hmades⟩ :=
      ih hl₁ (Nat.le_trans hbound hremains₁.size_le)
    refine ⟨h₂, w :: made, ?_, hl₂, hremains₁.trans hremains₂, .cons hmade hmades⟩
    rw [List.foldlM_cons, Run.bind_ok hrun₁, hrun₂]
    rfl

/-! ## 4. The patch -/

/-- **Moves of any kind end well and do to the host what they do to a list alone.** The node may be
    any that a run of operations leaves, as long as its children host the trees of the virtual node.
    Positions may lie behind the end or come twice, and moves may name what is gone.

    Each insertion comes with the tree that it made. With these the trees are in the order in which
    the list alone is replayed, however one looks at them; the children of the node host them, in this
    order; every tree that no removal takes out stands at one position, and of the others nothing is
    left in the host, down to what stood below them. -/
theorem reorder_any_moves (ops : List Host.Op) {n : Handle} {v : VNode} (hv : v.host = some n)
    (hn : (Host.after ops).knows n = true)
    (hchildren : v.children.map VNode.host = ((Host.after ops).children n).map some)
    (removes : List Nat) (inserts : List Insertion) (parent : Handle) :
    ∃ (h' : Host) (children made : List VNode),
      applyPatches parent [.reorder removes inserts] ⟨Host.after ops, v⟩ =
          (.ok (), ⟨h', { v with children }⟩) ∧
        List.Forall₂ (Made (Host.after ops).nodes.size) inserts made ∧
        children = Moves.replayEach ⟨removes, inserts.map Insertion.move⟩ v.children made ∧
        (∀ (α : Type) (view : VNode → α) (fresh : Nat → α),
          (∀ p ∈ inserts.zip made, ∀ node, p.1.source = .fresh node → fresh p.1.index = view p.2) →
            children.map view =
              Moves.replay ⟨removes, inserts.map Insertion.move⟩ (v.children.map view) fresh) ∧
        children.map VNode.host = (h'.children n).map some ∧
        ∀ (i : Nat) (c : VNode), v.children[i]? = some c →
          (some i ∈ Moves.leftOver removes v.children → ∃! k : Nat, children[k]? = some c) ∧
            (some i ∉ Moves.leftOver removes v.children →
              ∀ m k, c.host = some m → (Host.after ops).holds m k = true → h'.get? k = none) := by
  have hf := forest_after ops
  generalize Host.after ops = h at hf hn hchildren ⊢
  have hstart : InLine h n (Moves.start v.children) :=
    ⟨hf, Option.isSome_iff_ne_none.mp hn, by rw [trees_start, hchildren]⟩
  obtain ⟨h₁, hrun₁, hl₁, hremains₁, hout⟩ := foldlM_removeAt_inLine removes hstart
  obtain ⟨h₂, made, hrun₂, hl₂, hremains₂, hmade⟩ :=
    foldlM_insertOne_inLine inserts hl₁ (hremains₁ h.nodes.size).size_le
  generalize hlive : ((inserts.map Insertion.move).zip made).foldl Moves.insertItem
    (removes.foldl Moves.removeAt (Moves.start v.children)) = live at hrun₂ hl₂
  have hnodup : (trees live).Nodup := by
    have hhosts : ((trees live).map VNode.host).Nodup :=
      hl₂.hosts ▸ (hl₂.forest.nodup_children n).map fun _ _ => Option.some.inj
    exact .of_map _ hhosts
  have hreplay : trees live =
      Moves.replayEach ⟨removes, inserts.map Insertion.move⟩ v.children made := by
    rw [trees, ← hlive, Moves.replayEach]
  refine ⟨h₂, trees live, made, applyAll_singleton (reorderAll_apply hv hrun₁ hrun₂), hmade, hreplay,
    fun α view fresh hfresh => ?_, hl₂.hosts, fun i c hc => ⟨fun hi => ?_, fun hi m k hm hk => ?_⟩⟩
  · rw [hreplay, Moves.map_replayEach]
    refine Moves.replayEach_eq_replay ?_ (fun p hp hnone => ?_) _
    · rw [List.length_map, List.length_map, hmade.length_eq]
    · rw [List.zip_map] at hp
      obtain ⟨⟨⟨index, source⟩, w⟩, hmem, rfl⟩ := List.mem_map.mp hp
      cases source with
      | moved old => cases hnone
      | fresh node => exact hfresh _ hmem node rfl
  · have hmem : (some i, c) ∈ live :=
      hlive ▸ Moves.mem_foldl_insertItem (Moves.mem_of_mem_leftOver hi hc) _
    obtain ⟨k, hk⟩ := List.mem_iff_getElem?.mp (List.mem_map_of_mem (f := Prod.snd) hmem)
    refine ⟨k, hk, fun j hj => ?_⟩
    obtain ⟨hlt, -⟩ := List.getElem?_eq_some_iff.mp hj
    exact (List.getElem?_inj hlt hnodup).mp (hj.trans hk.symm)
  · have hmem : (some i, c) ∈ Moves.start v.children := Moves.mem_start.mpr ⟨i, rfl, hc⟩
    rcases hout _ hmem with hleft | ⟨m', hm', hgone⟩
    · exact absurd (List.mem_map_of_mem (f := Prod.fst) hleft) hi
    · obtain ⟨j, hj⟩ := List.mem_iff_getElem?.mp hmem
      obtain ⟨m'', hm'', hchild, -⟩ := hstart.child hj
      obtain rfl : m = m' := Option.some.inj (hm.symm.trans hm')
      obtain rfl : m = m'' := Option.some.inj (hm.symm.trans hm'')
      have hlt := hf.child_lt (List.mem_of_getElem? hchild)
      have hremains := (hremains₁ h.nodes.size).trans hremains₂
      exact hremains.gone_below (Nat.le_refl _) (hremains₂.gone _ hlt hgone) (hf.holds_iff.mp hk)

end

/-- A body with two texts. -/
def twoTexts : VNode :=
  { VNode.plain .native "body" with
      host := some 0
      children := [{ VNode.ofText "a" with host := some 1 }, { VNode.ofText "b" with host := some 2 }] }

/-- Removals behind the end, a move of what is gone and two moves of one child: the second text and a
    new one are left. -/
theorem reorder_any_moves_twoTexts :
    ∃ (h' : Host) (children : List VNode),
      applyPatches 0
          [.reorder [5, 0, 7] [⟨9, .moved 1⟩, ⟨0, .moved 0⟩, ⟨3, .fresh (VNode.ofText "c")⟩,
            ⟨0, .moved 1⟩]]
          ⟨Host.after [.create (.text "a"), .create (.text "b"), .append 0 1, .append 0 2], twoTexts⟩ =
        (.ok (), ⟨h', { twoTexts with children }⟩) ∧
      children.map VNode.content = ["b", "c"] ∧ h'.get? 1 = none := by
  obtain ⟨h', children, made, hrun, hmade, -, hview, -, hchildren⟩ :=
    reorder_any_moves [.create (.text "a"), .create (.text "b"), .append 0 1, .append 0 2]
      (n := 0) (v := twoTexts) rfl (by decide) (by decide) [5, 0, 7]
      [⟨9, .moved 1⟩, ⟨0, .moved 0⟩, ⟨3, .fresh (VNode.ofText "c")⟩, ⟨0, .moved 1⟩] 0
  refine ⟨h', children, hrun, ?_, ?_⟩
  · refine (hview String VNode.content (fun _ => "c") fun p hp node hnode => ?_).trans rfl
    have hdetach := (List.forall₂_zip hmade hp node hnode).1
    have hnode : node = VNode.ofText "c" := by
      have hmem := (List.of_mem_zip hp).1
      simp only [List.mem_cons, List.not_mem_nil, or_false] at hmem
      rcases hmem with e | e | e | e
      all_goals
        rw [e] at hnode
        cases hnode
      rfl
    rw [(fields_of_detach_eq hdetach).2.2.2.1, hnode]
    rfl
  · exact (hchildren 0 _ rfl).2 (by decide) 1 1 rfl (by decide)

end Patch

end Trellis
