import Trellis.Host.Patch
import Trellis.Proofs.Host.Render
import Trellis.Proofs.Tree.Supply

/-!
# Reordering

A reordering carries moves out on the host and on the live list side by side. One step takes a child
away (`remove_child`) or puts a tree between two runs of children (`insert_child`); either way the
host has the tops of the live list as children afterwards.

`reorderAll_spec`: whatever the moves are, a reordering ends well, the live list comes from the same
moves carried out on the list alone, and only new trees are in it besides the old children.
-/

namespace Trellis

/-! ## 1. Lists -/

theorem forall_mem_middle {α : Type} {p : α → Prop} {a b : List α} {c : α} :
    (∀ d ∈ a ++ c :: b, p d) ↔ p c ∧ ∀ d ∈ a ++ b, p d := by
  rw [List.forall_mem_append, List.forall_mem_cons, List.forall_mem_append]
  exact and_left_comm

theorem filter_ne_middle {l₁ l₂ : List Handle} {c : Handle} (hc₁ : c ∉ l₁) (hc₂ : c ∉ l₂) :
    (l₁ ++ c :: l₂).filter (· ≠ c) = l₁ ++ l₂ := by
  rw [List.filter_append, List.filter_cons_of_neg (by simp), Host.filter_ne_of_not_mem hc₁,
    Host.filter_ne_of_not_mem hc₂]

/-- Before the first node of the second part is between the two parts. -/
theorem Host.placed_middle {l₁ l₂ : List Handle} (h : ∀ r ∈ l₂, r ∉ l₁) (c : Handle) :
    Host.placed (l₁ ++ l₂) c l₂.head? = l₁ ++ c :: l₂ := by
  cases l₂ with
  | nil => simp [Host.placed]
  | cons r l₂ =>
    have hr : ∀ m ∈ l₁, decide (m ≠ r) = true := fun m hm =>
      decide_eq_true fun e => h r List.mem_cons_self (e ▸ hm)
    rw [List.head?_cons, Host.placed, List.takeWhile_append_of_pos hr, List.dropWhile_append_of_pos hr,
      List.takeWhile_cons_of_neg (by simp), List.dropWhile_cons_of_neg (by simp), List.append_nil]

namespace Moves

universe u
variable {α : Type u}

/-- One insertion of a reordering, carried out on a list alone. -/
def insert (view : VNode → α) (live : Live α) (ins : Insertion) : Live α :=
  match ins.source with
  | .fresh node => putAt live ins.index (none, view node)
  | .moved old =>
    match find? live old with
    | none => live
    | some i =>
      match live[i]? with
      | none => live
      | some item => putAt (live.eraseIdx i) ins.index item

end Moves

namespace Host

open VNode

/-! ## 2. Single steps -/

section

variable {h : Host} {O : Handle → Prop} {n : Handle} {nd : HostNode} {front : List (Subtype O)}

theorem handle_apply {v : VNode} {n : Handle} (hv : v.host = some n) (h : Host) :
    VNode.handle v h = (.ok n, h) := by
  rw [VNode.handle, hv]
  rfl

theorem mem_handlesAll_middle {a b : List VNode} {c : VNode} {m : Handle} :
    m ∈ handlesAll (a ++ c :: b) ↔ m ∈ c.handles ∨ m ∈ handlesAll (a ++ b) := by
  rw [handlesAll_append, handlesAll_append, handlesAll]
  simp only [List.mem_append]
  tauto

theorem nodup_handlesAll_middle {a b : List VNode} {c : VNode} :
    (handlesAll (a ++ c :: b)).Nodup ↔ c.handles.Nodup ∧ (handlesAll (a ++ b)).Nodup ∧
      ∀ m ∈ c.handles, m ∉ handlesAll (a ++ b) := by
  have hperm : (handlesAll (a ++ c :: b)).Perm (c.handles ++ handlesAll (a ++ b)) := by
    rw [handlesAll_append, handlesAll_append, handlesAll]
    exact List.perm_append_comm_assoc _ _ _
  rw [hperm.nodup_iff, List.nodup_append]
  constructor
  · rintro ⟨hc, hab, hapart⟩
    exact ⟨hc, hab, fun m hm hm' => hapart m hm m hm' rfl⟩
  · rintro ⟨hc, hab, hapart⟩
    exact ⟨hc, hab, fun m hm m' hm' e => hapart m hm (e ▸ hm')⟩

/-- The tops of trees are not among those of the trees before them, nor among the children in
    front. -/
theorem tops_apart (front : List (Subtype O)) {us vs : List VNode} {p : Option Handle}
    (hs : ∀ d ∈ us ++ vs, Shows h p d)
    (hnodup : (handlesAll (us ++ vs)).Nodup) (hapart : ∀ m ∈ handlesAll (us ++ vs), ¬ O m) :
    ∀ r ∈ vs.map VNode.top, r ∉ front.map Subtype.val ++ us.map VNode.top := by
  intro r hr hm
  have htops := nodup_tops hs hnodup
  have hmem : r ∈ (us ++ vs).map VNode.top := List.map_append ▸ List.mem_append_right _ hr
  rw [List.map_append] at htops
  rcases List.mem_append.mp hm with hm | hm
  · exact not_mem_front (hapart r (tops_subset hs hmem)) hm
  · exact (List.nodup_append.mp htops).2.2 r hm r hr rfl

theorem HangsBehind.not_mem_middle {a b : List VNode} {c : VNode}
    (hh : HangsBehind h O n nd front (a ++ c :: b)) : n ∉ c.handles := fun hm =>
  hh.ne_of_mem (mem_handlesAll_middle.mpr (.inl hm)) rfl

/-- Without one of its trees a node has the tops of the others as children. -/
theorem HangsBehind.filter_children {a b : List VNode} {c : VNode}
    (hh : HangsBehind h O n nd front (a ++ c :: b)) :
    nd.children.filter (· ≠ c.top) = front.map Subtype.val ++ (a ++ b).map VNode.top := by
  have hbefore := tops_apart front hh.shows hh.nodup hh.apart c.top List.mem_cons_self
  have htops := nodup_tops hh.shows hh.nodup
  rw [List.map_append, List.map_cons] at htops
  have hbehind := (List.nodup_cons.mp (List.nodup_append.mp htops).2.1).1
  rw [hh.children, List.map_append, List.map_cons, ← List.append_assoc,
    filter_ne_middle hbefore hbehind, List.append_assoc, List.map_append]

/-- A new top in place of a child, among the children of the node. -/
theorem HangsBehind.placed_children {a b : List VNode} {c w : VNode}
    (hh : HangsBehind h O n nd front (a ++ c :: b)) (hne : c.top ≠ w.top) :
    (placed nd.children w.top (some c.top)).filter (· ≠ c.top) =
      front.map Subtype.val ++ (a ++ w :: b).map VNode.top := by
  have hbefore := tops_apart front hh.shows hh.nodup hh.apart
  have htops := nodup_tops hh.shows hh.nodup
  rw [List.map_append, List.map_cons] at htops
  have hbehind := (List.nodup_cons.mp (List.nodup_append.mp htops).2.1).1
  have hbefore' : c.top ∉ (front.map Subtype.val ++ a.map VNode.top) ++ [w.top] := by
    rw [List.mem_append, List.mem_singleton, not_or]
    exact ⟨hbefore c.top List.mem_cons_self, hne⟩
  have hplaced := placed_middle hbefore w.top
  rw [List.map_cons, List.head?_cons] at hplaced
  rw [hh.children, List.map_append, List.map_cons, ← List.append_assoc, hplaced,
    ← List.singleton_append, ← List.append_assoc, filter_ne_middle hbefore' hbehind,
    List.append_assoc, List.append_assoc, List.map_append, List.map_cons]
  rfl

/-- **One child is another tree now**, whose handles the child had or are new; nothing else changed
    but the node itself. -/
theorem HangsBehind.redone_middle {h' : Host} {a b : List VNode} {c c' : VNode}
    (hh : HangsBehind h O n nd front (a ++ c :: b)) (hsize : h.nodes.size ≤ h'.nodes.size)
    (hfresh : ∀ m ∈ c'.handles, m ∈ c.handles ∨ h.nodes.size ≤ m)
    (helse : ∀ m, m ≠ n → m ∉ c'.handles → h'.get? m = if m ∈ c.handles then none else h.get? m)
    (hs : Shows h' (some n) c') (hnodup : c'.handles.Nodup) :
    Redone h (some n) (a ++ c :: b) h' (a ++ c' :: b) := by
  obtain ⟨_, hstay⟩ := forall_mem_middle.mp hh.shows
  obtain ⟨_, hrest, hapart⟩ := nodup_handlesAll_middle.mp hh.nodup
  have hapart' : ∀ m ∈ c'.handles, m ∉ handlesAll (a ++ b) := by
    intro m hm hm'
    rcases hfresh m hm with hm | hge
    · exact hapart m hm hm'
    · exact Nat.not_lt.mpr hge (hh.lt_size (mem_handlesAll_middle.mpr (.inr hm')))
  refine ⟨hsize, fun m hm => ?_, fun m hmn hm => ?_, forall_mem_middle.mpr ⟨hs, ?_⟩,
    nodup_handlesAll_middle.mpr ⟨hnodup, hrest, hapart'⟩⟩
  · rcases mem_handlesAll_middle.mp hm with hm | hm
    · exact (hfresh m hm).imp_left fun hm => mem_handlesAll_middle.mpr (.inl hm)
    · exact .inl (mem_handlesAll_middle.mpr (.inr hm))
  · rw [mem_handlesAll_middle, not_or] at hm
    rw [helse m (fun e => hmn (congrArg some e)) hm.1]
    refine if_congr ?_ rfl rfl
    rw [mem_handlesAll_middle]
    exact ⟨.inl, fun e => e.resolve_right hm.2⟩
  · refine shows_frame hstay fun m hm => ?_
    rw [helse m (hh.ne_of_mem (mem_handlesAll_middle.mpr (.inr hm))) (hapart' m · hm),
      if_neg (hapart m · hm)]

/-- **A child is taken away with all its nodes.** -/
theorem remove_child {a b : List VNode} {c : VNode}
    (hh : HangsBehind h O n nd front (a ++ c :: b)) :
    ∃ h', remove n c.top h = (.ok (), h') ∧
      Redone h (some n) (a ++ c :: b) h' (a ++ b) ∧
      h'.get? n =
        some { nd with children := front.map Subtype.val ++ (a ++ b).map VNode.top } := by
  obtain ⟨hc, hothers⟩ := forall_mem_middle.mp hh.shows
  obtain ⟨hnodup, hrest, hapart⟩ := nodup_handlesAll_middle.mp hh.nodup
  obtain ⟨nc, hnc⟩ := hc.known c.top hc.top_mem
  have hparent : nc.parent = some n := (parent?_of_get? hnc).symm.trans hc.parent_eq
  obtain ⟨h', hrun, hsize, hget⟩ := remove_spec hh.node hnc hparent hc.carries hnodup
    hh.not_mem_middle
  have hsame : ∀ m ∈ handlesAll (a ++ b), h'.get? m = h.get? m := by
    intro m hm
    rw [hget, if_neg fun hm' => hapart m hm' hm,
      if_neg (hh.ne_of_mem (mem_handlesAll_middle.mpr (.inr hm)))]
  refine ⟨h', hrun, ⟨Nat.le_of_eq hsize.symm, ?_, ?_, shows_frame hothers hsame, hrest⟩, ?_⟩
  · exact fun m hm => .inl (mem_handlesAll_middle.mpr (.inr hm))
  · intro m hmn hm
    rw [hget, if_neg fun e => hmn (congrArg some e)]
    refine if_congr ?_ rfl rfl
    rw [mem_handlesAll_middle]
    exact ⟨.inl, fun h => h.resolve_right hm⟩
  · rw [hget, if_neg hh.not_mem_middle, if_pos rfl, hh.filter_children]

theorem head?_host {vs : List VNode} {p : Option Handle} (hs : ∀ d ∈ vs, Shows h p d) :
    vs.head?.bind VNode.host = (vs.map VNode.top).head? := by
  cases vs with
  | nil => rfl
  | cons v vs => exact (hs v List.mem_cons_self).host_eq

/-- **A tree comes to stand between two runs of children**: one that stands nowhere, or one that is
    a child already. -/
theorem insert_child {a b : List VNode} {c : VNode} {q : Option Handle} (hn : h.get? n = some nd)
    (ho : Around h O n)
    (hfilter : nd.children.filter (· ≠ c.top) =
      front.map Subtype.val ++ (a ++ b).map VNode.top)
    (hat : q = some n ∨ q = none ∧ c.top ∉ nd.children) (hc : Shows h q c)
    (hs : ∀ d ∈ a ++ b, Shows h (some n) d) (hnodup : (handlesAll (a ++ c :: b)).Nodup)
    (hapart : ∀ m ∈ handlesAll (a ++ c :: b), ¬ O m) :
    ∃ h', insertBefore n c.top (b.head?.bind VNode.host) h = (.ok (), h') ∧
      h'.nodes.size = h.nodes.size ∧
      (∀ m, m ≠ n → m ∉ handlesAll (a ++ c :: b) → h'.get? m = h.get? m) ∧
      h'.get? n =
        some { nd with children := front.map Subtype.val ++ (a ++ c :: b).map VNode.top } ∧
      ∀ d ∈ a ++ c :: b, Shows h' (some n) d := by
  obtain ⟨hnodup_c, hrest, hapart_c⟩ := nodup_handlesAll_middle.mp hnodup
  have hcn : c.top ≠ n := fun e =>
    hapart c.top (mem_handlesAll_middle.mpr (.inl hc.top_mem)) (e ▸ ho.self)
  have hOc : ¬ O c.top := hapart c.top (mem_handlesAll_middle.mpr (.inl hc.top_mem))
  obtain ⟨nc, hnc⟩ := hc.known c.top hc.top_mem
  have hparent : nc.parent = q := (parent?_of_get? hnc).symm.trans hc.parent_eq
  rw [List.map_append, ← List.append_assoc] at hfilter
  have htops := tops_apart front hs hrest fun m hm =>
    hapart m (mem_handlesAll_middle.mpr (.inr hm))
  have hbefore : b.head?.bind VNode.host = (b.map VNode.top).head? :=
    head?_host fun d hd => hs d (List.mem_append_right _ hd)
  have hchild : ∀ r, b.head?.bind VNode.host = some r → h.parent? r = some n ∧ r ≠ c.top := by
    intro r hr
    have hmem : r ∈ b.map VNode.top := List.mem_of_mem_head? (hbefore ▸ hr)
    obtain ⟨d, hd, rfl⟩ := List.mem_map.mp hmem
    have hsd := hs d (List.mem_append_right _ hd)
    refine ⟨hsd.parent_eq, fun e => hapart_c c.top hc.top_mem ?_⟩
    exact mem_handlesAll.mpr ⟨d, List.mem_append_right _ hd, e ▸ hsd.top_mem⟩
  obtain ⟨h', hrun, hsize, hget⟩ := insertBefore_spec ho hOc hn hnc
    (hat.imp hparent.trans fun ⟨e, hnot⟩ => ⟨hparent.trans e, hnot⟩) hchild
  have hsame : ∀ m, m ≠ n → m ≠ c.top → h'.get? m = h.get? m := by
    intro m hmn hmc
    rw [hget, if_neg hmc, if_neg hmn]
  refine ⟨h', hrun, hsize, fun m hmn hm => hsame m hmn fun e => ?_, ?_, ?_⟩
  · exact hm (mem_handlesAll_middle.mpr (.inl (e ▸ hc.top_mem)))
  · rw [hget, if_neg hcn.symm, if_pos rfl, hfilter, hbefore, placed_middle htops, List.append_assoc,
      List.map_append, List.map_cons]
  · have hne : ∀ {m : Handle}, m ∈ handlesAll (a ++ c :: b) → m ≠ n := fun hm e =>
      hapart _ hm (e ▸ ho.self)
    have hothers : ∀ d ∈ a ++ b, Shows h' (some n) d := shows_frame hs fun m hm =>
      hsame m (hne (mem_handlesAll_middle.mpr (.inr hm))) fun e => hapart_c c.top hc.top_mem (e ▸ hm)
    have hmoved : Shows h' (some n) c := by
      refine hc.moved (fun nd hnd => ?_) fun m hm => ?_
      · rw [hget, if_pos rfl, Option.some.inj (hnc.symm.trans hnd)]
      · have hmem : m ∈ c.handles := by
          rw [hc.handles_eq]
          exact List.mem_cons_of_mem _ hm
        exact hsame m (hne (mem_handlesAll_middle.mpr (.inl hmem)))
          fun e => hc.top_not_below hnodup_c (e ▸ hm)
    exact forall_mem_middle.mpr ⟨hmoved, hothers⟩

/-- The top of a rendered tree is no child of the node yet. -/
theorem Rendered.top_not_mem_children {h₁ : Host} {v w : VNode} {vs : List VNode}
    (hr : Rendered h v h₁ w) (hh : HangsBehind h O n nd front vs) : w.top ∉ nd.children := by
  have hnew : ¬ w.top < h.nodes.size := hr.not_lt hr.shows.top_mem
  intro hm
  rw [hh.children] at hm
  rcases List.mem_append.mp hm with hm | hm
  · exact not_mem_front (fun ho => hnew (hh.around.taken ho)) hm
  · exact hnew (hh.lt_size (tops_subset hh.shows hm))

/-- **A rendered tree takes the place of a child, which goes away with all its nodes.** -/
theorem replace_child {h₁ : Host} {a b : List VNode} {c v w : VNode}
    (hh : HangsBehind h O n nd front (a ++ c :: b)) (hr : Rendered h v h₁ w) :
    ∃ h', replace n w.top c.top h₁ = (.ok (), h') ∧
      Redone h (some n) (a ++ c :: b) h' (a ++ w :: b) ∧
      h'.get? n =
        some { nd with children := front.map Subtype.val ++ (a ++ w :: b).map VNode.top } := by
  have hh₁ := hr.hangs hh
  obtain ⟨hc, _⟩ := forall_mem_middle.mp hh₁.shows
  obtain ⟨hnodup, _⟩ := nodup_handlesAll_middle.mp hh.nodup
  obtain ⟨nw, hnw⟩ := hr.shows.known w.top hr.shows.top_mem
  have hfree : nw.parent = none := (parent?_of_get? hnw).symm.trans hr.shows.parent_eq
  obtain ⟨nc, hnc⟩ := hc.known c.top hc.top_mem
  have hparent : nc.parent = some n := (parent?_of_get? hnc).symm.trans hc.parent_eq
  have hnew : ∀ m ∈ w.handles, m ∉ c.handles := fun m hm hm' =>
    hr.not_lt hm (hh.lt_size (mem_handlesAll_middle.mpr (.inl hm')))
  have hwn : ∀ m ∈ w.handles, m ≠ n := fun m hm e => hr.not_lt hm (e ▸ lt_size_of_get? hh.node)
  have hwc : w.top ∉ c.handles := hnew w.top hr.shows.top_mem
  have hOw : ¬ O w.top := fun ho => hr.not_lt hr.shows.top_mem (hh.around.taken ho)
  obtain ⟨h', hrun, hsize, hget⟩ := replace_spec hh₁.around hOw hh₁.node hnw hfree
    (hr.top_not_mem_children hh) hnc hparent hc.carries hnodup hh.not_mem_middle hwc
  have hmoved : Shows h' (some n) w := by
    refine hr.shows.moved (fun nd hnd => ?_) fun m hm => ?_
    · rw [hget, if_neg hwc, if_pos rfl, Option.some.inj (hnw.symm.trans hnd)]
    · have hmem : m ∈ w.handles := by
        rw [hr.shows.handles_eq]
        exact List.mem_cons_of_mem _ hm
      have htop : m ≠ w.top := fun e => hr.shows.top_not_below hr.nodup (e ▸ hm)
      rw [hget, if_neg (hnew m hmem), if_neg htop, if_neg (hwn m hmem)]
  refine ⟨h', hrun, hh.redone_middle (hsize ▸ hr.redone.size_le) (fun m => .inr ∘ hr.size_le_of_mem)
    (fun m hmn hm => ?_) hmoved hr.nodup, ?_⟩
  · have hkeep : h₁.get? m = h.get? m := hr.redone.get?_eq (Option.some_ne_none m) fun hw => hm (by
      rwa [handlesAll, handlesAll, List.append_nil] at hw)
    have htop : m ≠ w.top := fun e => hm (e ▸ hr.shows.top_mem)
    rw [hget, if_neg htop, if_neg hmn, hkeep]
  · rw [hget, if_neg hh.not_mem_middle, if_neg (hwn w.top hr.shows.top_mem).symm, if_pos rfl,
      hh.placed_children fun e => hwc (e ▸ hc.top_mem)]

end

/-! ## 3. Carrying moves out -/

end Host

namespace Patch

open VNode Host

/-- The trees of a live list. -/
abbrev trees (live : Moves.Live VNode) : List VNode := live.map Prod.snd

/-- A live list with its trees as they are, whatever hosts them. -/
def bare (live : Moves.Live VNode) : Moves.Live VNode := live.map fun p => (p.1, p.2.detach)

theorem bare_eq (live : Moves.Live VNode) : bare live = Moves.mapItems VNode.detach live := rfl

section

variable {h : Host} {O : Handle → Prop} {n : Handle} {nd : HostNode} {front : List (Subtype O)}
  {live : Moves.Live VNode}

/-- The trees of a live list cut at one of them. -/
theorem trees_cut {i : Nat} {item : Option Nat × VNode} (hi : live[i]? = some item) :
    trees live = trees (live.take i) ++ item.2 :: trees (live.drop (i + 1)) := by
  conv => lhs; rw [Moves.eq_take_cons_drop hi]
  rw [trees, List.map_append, List.map_cons]

theorem trees_eraseIdx (live : Moves.Live VNode) (i : Nat) :
    trees (live.eraseIdx i) = trees (live.take i) ++ trees (live.drop (i + 1)) := by
  rw [List.eraseIdx_eq_take_drop_succ, trees, List.map_append]

/-- Where nothing stands nothing is removed. -/
theorem removeAt_of_none (n : Handle) {i : Nat} (hi : live[i]? = none) :
    removeAt n live i = pure live ∧ Moves.removeAt live i = live := by
  rw [removeAt, hi]
  exact ⟨rfl, List.eraseIdx_of_length_le (List.getElem?_eq_none_iff.mp hi)⟩

theorem removeAt_apply {h' : Host} {i : Nat} {item : Option Nat × VNode} {m : Handle}
    (hi : live[i]? = some item) (hm : item.2.host = some m)
    (hrun : Host.remove n m h = (.ok (), h')) :
    removeAt n live i h = (.ok (Moves.removeAt live i), h') := by
  rw [removeAt, hi]
  show (item.2.handle >>= fun m => Host.remove n m >>= fun _ => pure (Moves.removeAt live i)) h = _
  rw [Run.bind_ok (handle_apply hm h), Run.bind_ok hrun]
  rfl

theorem removeAt_spec (hh : HangsBehind h O n nd front (trees live)) (i : Nat) :
    ∃ h', removeAt n live i h = (.ok (Moves.removeAt live i), h') ∧
      Redone h (some n) (trees live) h' (trees (Moves.removeAt live i)) ∧
      h'.get? n = some { nd with
        children := front.map Subtype.val ++ (trees (Moves.removeAt live i)).map VNode.top } := by
  cases hi : live[i]? with
  | none =>
    obtain ⟨hrun, hsame⟩ := removeAt_of_none n hi
    rw [hrun, hsame]
    exact ⟨h, rfl, hh.redone_refl, hh.node_eq⟩
  | some item =>
    have hlive := trees_cut hi
    have hgone : trees (Moves.removeAt live i) =
        trees (live.take i) ++ trees (live.drop (i + 1)) := trees_eraseIdx live i
    rw [hlive] at hh
    obtain ⟨h', hrun, hredone, hn⟩ := remove_child hh
    have hc := (forall_mem_middle.mp hh.shows).1
    rw [hlive, hgone]
    exact ⟨h', removeAt_apply hi hc.host_eq hrun, hredone, hn⟩

/-- Removals end well and do to the host what they do to the live list. -/
theorem foldlM_removeAt (removes : List Nat) (hh : HangsBehind h O n nd front (trees live)) :
    ∃ h', removes.foldlM (removeAt n) live h = (.ok (removes.foldl Moves.removeAt live), h') ∧
      Redone h (some n) (trees live) h' (trees (removes.foldl Moves.removeAt live)) ∧
      h'.get? n =
        some { nd with children := front.map Subtype.val ++
          (trees (removes.foldl Moves.removeAt live)).map VNode.top } := by
  induction removes generalizing h nd live with
  | nil => exact ⟨h, rfl, hh.redone_refl, hh.node_eq⟩
  | cons i removes ih =>
    obtain ⟨h₁, hrun₁, hredone₁, hn₁⟩ := removeAt_spec hh i
    obtain ⟨h₂, hrun₂, hredone₂, hn₂⟩ := ih (hh.redone hredone₁ hn₁ rfl rfl)
    refine ⟨h₂, ?_, hredone₁.trans hredone₂, hn₂⟩
    rw [List.foldlM_cons, Run.bind_ok hrun₁, hrun₂, List.foldl_cons]

/-- What one insertion comes to: the children behind those in front are made anew, the live list
    changes as the list alone would, and what is in it was there before or is new. -/
structure Inserted (h : Host) (n : Handle) (nd : HostNode) (front : List Handle)
    (live : Moves.Live VNode) (h' : Host) (live' : Moves.Live VNode) : Prop where
  redone : Redone h (some n) (trees live) h' (trees live')
  node : h'.get? n = some { nd with children := front ++ (trees live').map VNode.top }
  kept : ∀ p ∈ live', p ∈ live ∨ p.1 = none ∧ ∀ m ∈ p.2.handles, h.nodes.size ≤ m

theorem Inserted.trans {h h' h'' : Host} {nd : HostNode} {front : List Handle}
    {live live' live'' : Moves.Live VNode} (a : Inserted h n nd front live h' live')
    (b : Inserted h' n { nd with children := front ++ (trees live').map VNode.top } front live' h''
      live'') : Inserted h n nd front live h'' live'' where
  redone := a.redone.trans b.redone
  node := b.node
  kept p hp := by
    rcases b.kept p hp with hp | ⟨hnone, hge⟩
    · exact a.kept p hp
    · exact .inr ⟨hnone, fun m hm => Nat.le_trans a.redone.size_le (hge m hm)⟩

theorem Inserted.refl (hh : HangsBehind h O n nd front (trees live)) :
    Inserted h n nd (front.map Subtype.val) live h live where
  redone := hh.redone_refl
  node := hh.node_eq
  kept _ hp := .inl hp

theorem trees_putAt (live : Moves.Live VNode) (i : Nat) (item : Option Nat × VNode) :
    trees (Moves.putAt live i item) =
      trees (live.take (min i live.length)) ++ item.2 :: trees (live.drop (min i live.length)) := by
  rw [Moves.putAt_eq, trees, List.map_append, List.map_cons]

theorem trees_take_drop (live : Moves.Live VNode) (k : Nat) :
    trees (live.take k) ++ trees (live.drop k) = trees live := by
  rw [trees, trees, ← List.map_append, List.take_append_drop]

theorem putAt_apply {h' : Host} {i : Nat} {item : Option Nat × VNode} {m : Handle}
    (hm : item.2.host = some m)
    (hrun : insertBefore n m
      ((trees (live.drop (min i live.length))).head?.bind VNode.host) h = (.ok (), h')) :
    putAt n live i item h = (.ok (Moves.putAt live i item), h') := by
  have hnext : (live[min i live.length]?.bind fun p => p.2.host) =
      (trees (live.drop (min i live.length))).head?.bind VNode.host := by
    rw [trees, List.head?_map, List.head?_drop]
    cases live[min i live.length]? <;> rfl
  rw [← hnext] at hrun
  rw [putAt]
  show (item.2.handle >>= fun m => insertBefore n m
    (live[min i live.length]?.bind fun p => p.2.host) >>= fun _ =>
      pure (Moves.putAt live i item)) h = _
  rw [Run.bind_ok (handle_apply hm h), Run.bind_ok hrun]
  rfl

/-- A rendered tree is put at a position. -/
theorem putAt_rendered {h₁ : Host} {v w : VNode} (hh : HangsBehind h O n nd front (trees live))
    (hr : Rendered h v h₁ w) (i : Nat) :
    ∃ h', putAt n live i (none, w) h₁ = (.ok (Moves.putAt live i (none, w)), h') ∧
      Inserted h n nd (front.map Subtype.val) live h' (Moves.putAt live i (none, w)) := by
  have hh₁ := hr.hangs hh
  have hsplit := trees_take_drop live (min i live.length)
  have hnot := hr.top_not_mem_children hh
  have hnodup : (handlesAll (trees (Moves.putAt live i (none, w)))).Nodup := by
    rw [trees_putAt, nodup_handlesAll_middle, hsplit]
    exact ⟨hr.nodup, hh.nodup, fun m hm hm' => hr.not_lt hm (hh.lt_size hm')⟩
  have hapart : ∀ m ∈ handlesAll (trees (Moves.putAt live i (none, w))), ¬ O m := by
    intro m hm ho
    rw [trees_putAt, mem_handlesAll_middle, hsplit] at hm
    rcases hm with hm | hm
    · exact hr.not_lt hm (hh.around.taken ho)
    · exact hh.apart m hm ho
  have hfilter : nd.children.filter (· ≠ w.top) = front.map Subtype.val ++
      (trees (live.take (min i live.length)) ++ trees (live.drop (min i live.length))).map
        VNode.top := by
    rw [hsplit, ← hh.children]
    exact filter_ne_of_not_mem hnot
  rw [trees_putAt] at hnodup hapart
  obtain ⟨h', hrun, hsize, hget, hnode, hshows⟩ := insert_child hh₁.node hh₁.around hfilter
    (.inr ⟨rfl, hnot⟩) hr.shows (hsplit.symm ▸ hh₁.shows) hnodup hapart
  refine ⟨h', putAt_apply hr.shows.host_eq hrun, ⟨⟨?_, ?_, ?_, ?_, ?_⟩, ?_, ?_⟩⟩
  · rw [hsize]
    exact hr.redone.size_le
  · intro m hm
    rw [trees_putAt, mem_handlesAll_middle, hsplit] at hm
    exact hm.symm.imp_right hr.size_le_of_mem
  · intro m hmn hm
    rw [trees_putAt] at hm
    rw [hget m (fun e => hmn (congrArg some e)) hm]
    rw [mem_handlesAll_middle, hsplit, not_or] at hm
    rw [if_neg hm.2]
    refine hr.redone.get?_eq (Option.some_ne_none m) fun hw => hm.1 ?_
    rwa [handlesAll, handlesAll, List.append_nil] at hw
  · rwa [trees_putAt]
  · rwa [trees_putAt]
  · rw [hnode, trees_putAt]
  · intro p hp
    rcases Moves.mem_putAt_iff.mp hp with rfl | hp
    · exact .inr ⟨rfl, fun m hm => hr.size_le_of_mem hm⟩
    · exact .inl hp

/-- A child is put at another position. -/
theorem putAt_moved (hh : HangsBehind h O n nd front (trees live)) {j : Nat}
    {item : Option Nat × VNode} (hj : live[j]? = some item) (i : Nat) :
    ∃ h', putAt n (live.eraseIdx j) i item h =
        (.ok (Moves.putAt (live.eraseIdx j) i item), h') ∧
      Inserted h n nd (front.map Subtype.val) live h' (Moves.putAt (live.eraseIdx j) i item) := by
  obtain ⟨o, c⟩ := item
  have hlive : trees live = trees (live.take j) ++ c :: trees (live.drop (j + 1)) := trees_cut hj
  have hrest := trees_eraseIdx live j
  have hsplit := trees_take_drop (live.eraseIdx j) (min i (live.eraseIdx j).length)
  -- the same trees before and after
  have hmem : ∀ m, m ∈ handlesAll (trees (Moves.putAt (live.eraseIdx j) i (o, c))) ↔
      m ∈ handlesAll (trees live) := by
    intro m
    rw [trees_putAt, mem_handlesAll_middle, hsplit, hlive, mem_handlesAll_middle, hrest]
  have hnodup : (handlesAll (trees (Moves.putAt (live.eraseIdx j) i (o, c)))).Nodup := by
    rw [trees_putAt, nodup_handlesAll_middle, hsplit, hrest, ← nodup_handlesAll_middle, ← hlive]
    exact hh.nodup
  have hapart : ∀ m ∈ handlesAll (trees (Moves.putAt (live.eraseIdx j) i (o, c))), ¬ O m :=
    fun m hm => hh.apart m ((hmem m).mp hm)
  have hc : Shows h (some n) c := hh.shows c (by
    rw [hlive]
    exact List.mem_append_right _ List.mem_cons_self)
  have hothers : ∀ d ∈ trees (live.eraseIdx j), Shows h (some n) d := fun d hd =>
    hh.shows d (((List.eraseIdx_sublist live j).map _).subset hd)
  have hfilter : nd.children.filter (· ≠ c.top) =
      front.map Subtype.val ++ (trees (live.eraseIdx j)).map VNode.top := by
    have hh' := hh
    rw [hlive] at hh'
    rw [hrest, hh'.filter_children]
  rw [trees_putAt] at hnodup hapart
  obtain ⟨h', hrun, hsize, hget, hnode, hshows⟩ := insert_child hh.node hh.around
    (hsplit.symm ▸ hfilter) (.inl rfl) hc (hsplit.symm ▸ hothers) hnodup hapart
  refine ⟨h', putAt_apply hc.host_eq hrun, ⟨⟨?_, ?_, ?_, ?_, ?_⟩, ?_, ?_⟩⟩
  · exact Nat.le_of_eq hsize.symm
  · exact fun m hm => .inl ((hmem m).mp hm)
  · intro m hmn hm
    rw [if_neg fun e => hm ((hmem m).mpr e)]
    rw [trees_putAt] at hm
    exact hget m (fun e => hmn (congrArg some e)) hm
  · rwa [trees_putAt]
  · rwa [trees_putAt]
  · rw [hnode, trees_putAt]
  · intro p hp
    rcases Moves.mem_putAt_iff.mp hp with rfl | hp
    · exact .inl (List.mem_of_getElem? hj)
    · exact .inl ((List.eraseIdx_sublist live j).subset hp)

/-- A move finds no tree and does nothing, or it puts a tree of the list at another position; the host
    and the list alone agree on that. -/
theorem moved_cases (n : Handle) (live : Moves.Live VNode) (index old : Nat) (w : VNode) :
    (insertOne n live ⟨index, .moved old⟩ = pure live ∧
        Moves.insertItem live (⟨some old, index⟩, w) = live) ∨
      ∃ j item, live[j]? = some item ∧
        insertOne n live ⟨index, .moved old⟩ = putAt n (live.eraseIdx j) index item ∧
        Moves.insertItem live (⟨some old, index⟩, w) = Moves.putAt (live.eraseIdx j) index item := by
  simp only [insertOne, Moves.insertItem, Moves.insertStep]
  cases Moves.find? live old with
  | none => exact .inl ⟨rfl, rfl⟩
  | some j =>
    cases hj : live[j]? with
    | none => exact .inl ⟨by simp only [hj], by simp only [hj]⟩
    | some item => exact .inr ⟨j, item, hj, by simp only [hj], by simp only [hj]⟩

/-- **One insertion ends well**, whatever it asks for. -/
theorem insertOne_spec (hh : HangsBehind h O n nd front (trees live)) (ins : Insertion) :
    ∃ h' live', insertOne n live ins h = (.ok live', h') ∧
      Inserted h n nd (front.map Subtype.val) live h' live' ∧
      bare live' = Moves.insert VNode.detach (bare live) ins := by
  obtain ⟨index, source⟩ := ins
  cases source with
  | fresh node =>
    obtain ⟨h₁, w, hrun₁, hr⟩ := render_spec node h
    obtain ⟨h', hrun, hins⟩ := putAt_rendered hh hr index
    refine ⟨h', _, ?_, hins, ?_⟩
    · show (render node >>= fun p => putAt n live index (none, p.2)) h = _
      rw [Run.bind_ok hrun₁, hrun]
    · rw [bare_eq, Moves.mapItems_putAt, hr.detach_eq]
      rfl
  | moved old =>
    have hbare : bare (Moves.insertItem live (⟨some old, index⟩, default)) =
        Moves.insert VNode.detach (bare live) ⟨index, .moved old⟩ := by
      rw [bare_eq, Moves.mapItems_insertItem]
      rfl
    rcases moved_cases n live index old default with ⟨hone, hitem⟩ | ⟨j, item, hj, hone, hitem⟩
    · rw [hitem] at hbare
      exact ⟨h, live, by rw [hone]; rfl, .refl hh, hbare⟩
    · rw [hitem] at hbare
      obtain ⟨h', hrun, hins⟩ := putAt_moved hh hj index
      exact ⟨h', _, by rw [hone, hrun], hins, hbare⟩

theorem foldlM_insertOne (inserts : List Insertion) (hh : HangsBehind h O n nd front (trees live)) :
    ∃ h' live', inserts.foldlM (insertOne n) live h = (.ok live', h') ∧
      Inserted h n nd (front.map Subtype.val) live h' live' ∧
      bare live' = inserts.foldl (Moves.insert VNode.detach) (bare live) := by
  induction inserts generalizing h nd live with
  | nil => exact ⟨h, live, rfl, .refl hh, rfl⟩
  | cons ins inserts ih =>
    obtain ⟨h₁, live₁, hrun₁, hins₁, hbare₁⟩ := insertOne_spec hh ins
    obtain ⟨h₂, live₂, hrun₂, hins₂, hbare₂⟩ := ih (hh.redone hins₁.redone hins₁.node rfl rfl)
    refine ⟨h₂, live₂, ?_, hins₁.trans hins₂, ?_⟩
    · rw [List.foldlM_cons, Run.bind_ok hrun₁, hrun₂]
    · rw [hbare₂, hbare₁, List.foldl_cons]

/-! ## 4. The patch -/

theorem onHost_apply {α : Type} {act : HostM α} {h h' : Host} {r : Except HostError α}
    (hact : act h = (r, h')) (v : VNode) : PatchM.onHost act ⟨h, v⟩ = (r, ⟨h', v⟩) := by
  rw [PatchM.onHost, hact]

theorem onNode_apply (f : VNode → VNode) (m : Mounted) :
    PatchM.onNode f m = (.ok (), ⟨m.host, f m.node⟩) := rfl

theorem patchHandle_apply {v : VNode} (hv : v.host = some n) (h : Host) :
    Patch.handle ⟨h, v⟩ = (.ok n, ⟨h, v⟩) := by
  rw [Patch.handle, Run.bind_ok (Run.get_apply _)]
  exact onHost_apply (handle_apply hv h) v

theorem trees_start (vs : List VNode) : trees (Moves.start vs) = vs := by
  rw [Moves.start, trees, List.map_map]
  exact List.zipIdx_map_fst 0 vs

/-- A reordering whose removals and insertions end well. -/
theorem reorderAll_apply {h₁ h₂ : Host} {removes : List Nat} {inserts : List Insertion} {v : VNode}
    {live₁ live₂ : Moves.Live VNode} (hv : v.host = some n)
    (hremoves : removes.foldlM (removeAt n) (Moves.start v.children) h = (.ok live₁, h₁))
    (hinserts : inserts.foldlM (insertOne n) live₁ h₁ = (.ok live₂, h₂)) :
    reorderAll removes inserts ⟨h, v⟩ = (.ok (), ⟨h₂, { v with children := trees live₂ }⟩) := by
  rw [reorderAll, Run.bind_ok (patchHandle_apply hv h), Run.bind_ok (Run.get_apply _),
    Run.bind_ok (onNode_apply _ _), Run.bind_ok (onHost_apply hremoves _),
    Run.bind_ok (onHost_apply hinserts _)]
  rfl

/-- **A reordering ends well, whatever its moves are.** Its live list is what the moves make of the
    list alone; what is in it was a child before or is new. -/
theorem reorderAll_spec (removes : List Nat) (inserts : List Insertion) {v : VNode}
    (hv : v.host = some n) (hh : HangsBehind h O n nd front v.children) :
    ∃ h' live, reorderAll removes inserts ⟨h, v⟩ =
        (.ok (), ⟨h', { v with children := trees live }⟩) ∧
      Redone h (some n) v.children h' (trees live) ∧
      h'.get? n =
        some { nd with children := front.map Subtype.val ++ (trees live).map VNode.top } ∧
      bare live = inserts.foldl (Moves.insert VNode.detach)
        (removes.foldl Moves.removeAt (Moves.start (v.children.map VNode.detach))) ∧
      ∀ p ∈ live, p ∈ Moves.start v.children ∨ p.1 = none ∧ ∀ m ∈ p.2.handles, h.nodes.size ≤ m := by
  rw [← trees_start v.children] at hh
  obtain ⟨h₁, hrun₁, hredone₁, hn₁⟩ := foldlM_removeAt removes hh
  obtain ⟨h₂, live, hrun₂, hins, hbare⟩ :=
    foldlM_insertOne inserts (hh.redone hredone₁ hn₁ rfl rfl)
  rw [trees_start] at hredone₁
  refine ⟨h₂, live, reorderAll_apply hv hrun₁ hrun₂, hredone₁.trans hins.redone, hins.node, ?_,
    fun p hp => ?_⟩
  · rw [hbare, bare_eq, Moves.mapItems_foldl_removeAt, Moves.mapItems_start]
  · rcases hins.kept p hp with hp | ⟨hnone, hge⟩
    · exact .inl ((Moves.foldl_removeAt_sublist removes _).subset hp)
    · exact .inr ⟨hnone, fun m hm => Nat.le_trans hredone₁.size_le (hge m hm)⟩

end

end Patch

end Trellis
