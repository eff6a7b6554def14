import Trellis.Proofs.Host.Becomes
import Trellis.Proofs.Host.Reorder

/-!
# Updating a tree with its host

Carrying out the patches of `diff` ends well, and afterwards the host shows what the tree was to
become (`Becomes`). The proof follows `Diff.tree`:

- `applyAttrs_spec`, `rebindAll_spec`: what changes at the node itself,
- `siblings_spec`: the children, one after the other, given that each can be updated,
- `order_spec`: their order, read off the replay of the alignment,
- `node_becomes` puts these together for a node that stays, `updates` goes up the tree.

The children of a node may stand behind others that are none of the tree's, as in a container.
-/

namespace Trellis

namespace Patch

open VNode Host

/-! ## 1. Runs -/

theorem applyAll_append {ps qs : List Patch} {parent : Handle} {m m' : Mounted}
    (h : applyAll ps parent m = (.ok (), m')) :
    applyAll (ps ++ qs) parent m = applyAll qs parent m' := by
  induction ps generalizing m with
  | nil =>
    obtain rfl : m = m' := congrArg Prod.snd h
    rfl
  | cons p ps ih =>
    rw [List.cons_append, applyAll]
    rw [applyAll, Run.bind_apply] at h
    cases e : applyOne p parent m with
    | mk r m₁ =>
      rw [e] at h
      cases r with
      | error err => cases congrArg Prod.fst h
      | ok _ =>
        rw [Run.bind_ok e]
        exact ih h

theorem applyAll_singleton {p : Patch} {parent : Handle} {m m' : Mounted}
    (h : applyOne p parent m = (.ok (), m')) : applyAll [p] parent m = (.ok (), m') := by
  rw [applyAll, Run.bind_ok h]
  rfl

/-! ## 2. The node itself -/

section

variable {h : Host} {O : Handle → Prop} {n : Handle} {nd : HostNode} {v : VNode}
  {front : List (Subtype O)}

theorem applyAttr_spec (c : AttrChange) (hn : h.get? n = some nd) (v : VNode) :
    ∃ h', applyAttr n c ⟨h, v⟩ =
        (.ok (), ⟨h', { v with attrs := Attrs.applyChange v.attrs c }⟩) ∧
      Edit h n { nd with attrs := Attrs.applyChange nd.attrs c } h' := by
  obtain ⟨name, value⟩ := c
  cases value with
  | some value =>
    obtain ⟨h', hrun, hedit⟩ := setAttr_spec hn name value
    refine ⟨h', ?_, hedit⟩
    show (PatchM.onHost (Host.setAttr n name value) >>= fun _ => PatchM.onNode _) _ = _
    rw [Run.bind_ok (onHost_apply hrun v)]
    rfl
  | none =>
    obtain ⟨h', hrun, hedit⟩ := removeAttr_spec hn name
    refine ⟨h', ?_, hedit⟩
    show (PatchM.onHost (Host.removeAttr n name) >>= fun _ => PatchM.onNode _) _ = _
    rw [Run.bind_ok (onHost_apply hrun v)]
    rfl

/-- Changes of attributes are carried out on the host and on the node alike. -/
theorem applyAttrs_spec (changes : List AttrChange) (hv : v.host = some n)
    (hn : h.get? n = some nd) :
    ∃ h', applyAttrs changes ⟨h, v⟩ =
        (.ok (), ⟨h', { v with attrs := Attrs.applyChanges v.attrs changes }⟩) ∧
      Edit h n { nd with attrs := Attrs.applyChanges nd.attrs changes } h' := by
  have hall : ∃ h', (changes.forM (applyAttr n)) ⟨h, v⟩ =
        (.ok (), ⟨h', { v with attrs := Attrs.applyChanges v.attrs changes }⟩) ∧
      Edit h n { nd with attrs := Attrs.applyChanges nd.attrs changes } h' := by
    clear hv
    induction changes generalizing h nd v with
    | nil =>
      refine ⟨h, ?_, .refl hn⟩
      cases v
      rfl
    | cons c changes ih =>
      obtain ⟨h₁, hrun₁, hedit₁⟩ := applyAttr_spec c hn v
      obtain ⟨h₂, hrun₂, hedit₂⟩ := ih hedit₁.self
      refine ⟨h₂, ?_, hedit₁.trans hedit₂⟩
      show (applyAttr n c >>= fun _ => changes.forM (applyAttr n)) _ = _
      rw [Run.bind_ok hrun₁, hrun₂]
      rfl
  obtain ⟨h', hrun, hedit⟩ := hall
  refine ⟨h', ?_, hedit⟩
  rw [applyAttrs, Run.bind_ok (patchHandle_apply hv h), hrun]

theorem forM_onHost {act : Binding → HostM Unit} {bs : List Binding} {h' : Host}
    (hrun : bs.forM act h = (.ok (), h')) (v : VNode) :
    (bs.forM fun b => PatchM.onHost (act b)) ⟨h, v⟩ = (.ok (), ⟨h', v⟩) := by
  induction bs generalizing h with
  | nil =>
    obtain rfl : h = h' := congrArg Prod.snd hrun
    rfl
  | cons b bs ih =>
    have hcons : (act b >>= fun _ => bs.forM act) h = (.ok (), h') := hrun
    rw [Run.bind_apply] at hcons
    cases e : act b h with
    | mk r h₁ =>
      rw [e] at hcons
      cases r with
      | error err => cases congrArg Prod.fst hcons
      | ok _ =>
        show (PatchM.onHost (act b) >>= fun _ => bs.forM fun b => PatchM.onHost (act b)) _ = _
        rw [Run.bind_ok (onHost_apply e v)]
        exact ih hcons

/-- The listeners of a node that gave way to others. -/
def rebound (listeners : List Binding) (old new : Events) : List Binding :=
  (Events.all old).foldl List.erase listeners ++ Events.all new

/-- Where a node listens by its own bindings, it listens by the others afterwards. -/
theorem rebound_all (old new : Events) : rebound (Events.all old) old new = Events.all new := by
  have hnil : ∀ bs : List Binding, bs.foldl List.erase bs = [] := by
    intro bs
    induction bs with
    | nil => rfl
    | cons b bs ih => rw [List.foldl_cons, List.erase_cons_head, ih]
  rw [rebound, hnil, List.nil_append]

/-- Other bindings take the place of those of the node, in the host too. -/
theorem rebindAll_spec (events : Events) (hv : v.host = some n) (hn : h.get? n = some nd) :
    ∃ h', rebindAll events ⟨h, v⟩ = (.ok (), ⟨h', { v with events }⟩) ∧
      Edit h n { nd with listeners := rebound nd.listeners v.events events } h' := by
  obtain ⟨h₁, hrun₁, hedit₁⟩ := forM_unlisten (Events.all v.events) hn
  obtain ⟨h₂, hrun₂, hedit₂⟩ := forM_listen (Events.all events) hedit₁.self
  refine ⟨h₂, ?_, hedit₁.trans hedit₂⟩
  rw [rebindAll, Run.bind_ok (patchHandle_apply hv h), Run.bind_ok (Run.get_apply _),
    Run.bind_ok (forM_onHost hrun₁ v), Run.bind_ok (forM_onHost hrun₂ v)]
  rfl

/-! ## 3. Children -/

/-- A node can be updated, wherever it is a child: the patches towards any tree end well, change
    nothing but what is at and below it, and make of it what it is to become. -/
def Updates (v : VNode) : Prop :=
  ∀ (w : VNode) {h : Host} {O : Handle → Prop} {n : Handle} {nd : HostNode}
    {front : List (Subtype O)} {a b : List VNode}, HangsBehind h O n nd front (a ++ v :: b) →
    ∃ h' v', applyAll (Diff.tree v w) n ⟨h, v⟩ = (.ok (), ⟨h', v'⟩) ∧
      Redone h (some n) (a ++ v :: b) h' (a ++ v' :: b) ∧
      h'.get? n =
        some { nd with children := front.map Subtype.val ++ (a ++ v' :: b).map VNode.top } ∧
      Becomes h.nodes.size v w v'

theorem getElem?_middle {α : Type} (a : List α) (x : α) (b : List α) :
    (a ++ x :: b)[a.length]? = some x := by
  rw [List.getElem?_append_right (Nat.le_refl _), Nat.sub_self, List.getElem?_cons_zero]

theorem set_middle {α : Type} (a : List α) (x y : α) (b : List α) :
    (a ++ x :: b).set a.length y = a ++ y :: b := by
  rw [List.set_append_right _ _ (Nat.le_refl _), Nat.sub_self, List.set_cons_zero]

theorem onChild_apply {act : PatchM Unit} {i : Nat} {c c' : VNode} {h' : Host}
    {r : Except HostError Unit} (hc : v.children[i]? = some c) (hrun : act ⟨h, c⟩ = (r, ⟨h', c'⟩)) :
    PatchM.onChild i act ⟨h, v⟩ = (r, ⟨h', { v with children := v.children.set i c' }⟩) := by
  simp only [PatchM.onChild, hc, hrun]

/-- The patches for one child, if it needs any, carried out from its parent. -/
theorem updateChild_spec {patches : List Patch} {c c' : VNode} {a b : List VNode} {h' : Host}
    (hrun : applyAll patches n ⟨h, c⟩ = (.ok (), ⟨h', c'⟩)) (hv : v.host = some n)
    (hch : v.children = a ++ c :: b) (parent : Handle) :
    applyAll (if patches.isEmpty then [] else [.updateChild a.length patches]) parent ⟨h, v⟩ =
      (.ok (), ⟨h', { v with children := a ++ c' :: b }⟩) := by
  cases patches with
  | nil =>
    obtain ⟨rfl, rfl⟩ : h = h' ∧ c = c' := by
      injection congrArg Prod.snd hrun with hh hc
      exact ⟨hh, hc⟩
    rw [← hch]
    cases v
    rfl
  | cons p ps =>
    have hc : v.children[a.length]? = some c := by rw [hch, getElem?_middle]
    refine applyAll_singleton ?_
    rw [applyOne, Run.bind_ok (patchHandle_apply hv h), onChild_apply hc hrun, hch, set_middle]

theorem applyAll_nil {vs : List VNode} (hch : v.children = vs) (h : Host) (parent : Handle) :
    applyAll [] parent ⟨h, v⟩ = (.ok (), ⟨h, { v with children := vs }⟩) := by
  rw [← hch]
  cases v
  rfl

/-- **The children are updated one after the other**, each that has a counterpart. -/
theorem siblings_spec {todo : List VNode} (ih : ∀ c ∈ todo, Updates c)
    (partners : List (Option VNode)) {done : List VNode} (hv : v.host = some n)
    (hch : v.children = done ++ todo) (hh : HangsBehind h O n nd front (done ++ todo))
    (parent : Handle) :
    ∃ h' todo', applyAll (Diff.siblings done.length todo partners) parent ⟨h, v⟩ =
        (.ok (), ⟨h', { v with children := done ++ todo' }⟩) ∧
      Redone h (some n) (done ++ todo) h' (done ++ todo') ∧
      h'.get? n =
        some { nd with children := front.map Subtype.val ++ (done ++ todo').map VNode.top } ∧
      todo'.length = todo.length ∧
      ∀ (j : Nat) (c c' w : VNode), todo[j]? = some c → todo'[j]? = some c' →
        partners[j]? = some (some w) → Becomes h.nodes.size c w c' := by
  induction todo generalizing h nd v done partners with
  | nil =>
    refine ⟨h, [], ?_, hh.redone_refl, hh.node_eq, rfl, fun j c c' w hc => by cases hc⟩
    rw [Diff.siblings_nil, applyAll_nil hch]
  | cons old olds ihtodo =>
    cases partners with
    | nil =>
      refine ⟨h, old :: olds, ?_, hh.redone_refl, hh.node_eq, rfl, fun j c c' w _ _ hw => by cases hw⟩
      rw [Diff.siblings_nil_partners, applyAll_nil hch]
    | cons partner partners =>
      have hlen : ∀ c : VNode, (done ++ [c]).length = done.length + 1 := fun c => List.length_append
      have hshift : ∀ (c : VNode) (cs : List VNode), done ++ c :: cs = (done ++ [c]) ++ cs :=
        fun c cs => List.append_cons done c cs
      have ih' : ∀ c ∈ olds, Updates c := fun c hc => ih c (List.mem_cons_of_mem _ hc)
      cases partner with
      | none =>
        rw [hshift] at hch hh
        obtain ⟨h', olds', hrun, hredone, hn, holds, hall⟩ := ihtodo ih' partners hv hch hh
        rw [← hshift old olds, ← hshift old olds'] at hredone
        rw [← hshift old olds'] at hn
        refine ⟨h', old :: olds', ?_, hredone, hn, ?_, fun j c c' w hc hc' hw => ?_⟩
        · rw [Diff.siblings, ← hlen old, hrun, ← hshift]
        · rw [List.length_cons, List.length_cons, holds]
        · cases j with
          | zero => cases hw
          | succ j => exact hall j c c' w hc hc' hw
      | some new =>
        obtain ⟨h₁, old', hrun₁, hredone₁, hn₁, hold⟩ := ih old List.mem_cons_self new hh
        have hstep := updateChild_spec hrun₁ hv hch parent
        have hh₁ := hh.redone hredone₁ hn₁ rfl rfl
        rw [hshift] at hh₁
        obtain ⟨h₂, olds', hrun₂, hredone₂, hn₂, holds, hall⟩ :=
          @ihtodo h₁ _ { v with children := done ++ old' :: olds } ih' partners (done ++ [old']) hv
            (hshift old' olds) hh₁
        rw [← hshift old' olds, ← hshift old' olds'] at hredone₂
        rw [← hshift old' olds'] at hn₂
        refine ⟨h₂, old' :: olds', ?_, hredone₁.trans hredone₂, hn₂, ?_, fun j c c' w hc hc' hw => ?_⟩
        · rw [Diff.siblings, applyAll_append hstep, ← hlen old', hrun₂, ← hshift]
        · rw [List.length_cons, List.length_cons, holds]
        · cases j with
          | zero =>
            cases hc
            cases hc'
            cases hw
            exact hold
          | succ j => exact (hall j c c' w hc hc' hw).mono hredone₁.size_le

/-! ## 4. The order of children -/

/-- The tree that is fresh at a position. -/
def freshAt (ws : List VNode) (k : Nat) : VNode := (ws[k]?).getD default

/-- The insertions of a reordering do to a list what the insertions of the moves do. -/
theorem foldl_insert (ws : List VNode) (inserts : List Insert) (live : Moves.Live VNode) :
    (inserts.map fun ins => (⟨ins.index,
        match ins.oldIndex with
        | some o => .moved o
        | none => .fresh (freshAt ws ins.index)⟩ : Insertion)).foldl
      (Moves.insert VNode.detach) live =
    inserts.foldl (Moves.insertStep fun k => (freshAt ws k).detach) live := by
  induction inserts generalizing live with
  | nil => rfl
  | cons ins inserts ih =>
    obtain ⟨oldIndex, index⟩ := ins
    rw [List.map_cons, List.foldl_cons, ih, List.foldl_cons]
    cases oldIndex <;> rfl

/-- **The order of the children is that of the moves.** What stands there was a child before or is
    new. -/
theorem order_spec (ws : List VNode) (m : Moves) (hv : v.host = some n)
    (hh : HangsBehind h O n nd front v.children) (parent : Handle) :
    ∃ h' live, applyAll (Diff.order ws m) parent ⟨h, v⟩ =
        (.ok (), ⟨h', { v with children := trees live }⟩) ∧
      Redone h (some n) v.children h' (trees live) ∧
      h'.get? n =
        some { nd with children := front.map Subtype.val ++ (trees live).map VNode.top } ∧
      bare live = m.traced (v.children.map VNode.detach) (fun k => (freshAt ws k).detach) ∧
      ∀ p ∈ live, p ∈ Moves.start v.children ∨ p.1 = none ∧ ∀ m ∈ p.2.handles, h.nodes.size ≤ m := by
  rw [Diff.order]
  cases hm : m.isEmpty with
  | true =>
    rw [Moves.isEmpty, Bool.and_eq_true, List.isEmpty_iff, List.isEmpty_iff] at hm
    refine ⟨h, Moves.start v.children, ?_, ?_, ?_, ?_, fun p hp => .inl hp⟩
    · exact applyAll_nil (trees_start _).symm h parent
    · rw [trees_start]
      exact hh.redone_refl
    · rw [trees_start]
      exact hh.node_eq
    · rw [Moves.traced, hm.1, hm.2, bare_eq, Moves.mapItems_start]
      rfl
  | false =>
    obtain ⟨h', live, hrun, hredone, hn, hbare, hkept⟩ := reorderAll_spec m.removes
      (m.inserts.map fun ins => (⟨ins.index,
        match ins.oldIndex with
        | some o => .moved o
        | none => .fresh (freshAt ws ins.index)⟩ : Insertion)) hv hh
    rw [foldl_insert] at hbare
    exact ⟨h', live, applyAll_singleton hrun, hredone, hn, hbare, hkept⟩

/-! ## 5. A node that stays -/

theorem attrs_spec (new : List Attr) (hv : v.host = some n) (hn : h.get? n = some nd)
    (parent : Handle) :
    ∃ h', applyAll (match Diff.attrs v.attrs new with
        | some changes => [.setAttrs changes]
        | none => []) parent ⟨h, v⟩ =
        (.ok (), ⟨h', { v with attrs := Attrs.applyChanges v.attrs (Diff.changes v.attrs new) }⟩) ∧
      Edit h n { nd with attrs := Attrs.applyChanges nd.attrs (Diff.changes v.attrs new) } h' := by
  rw [Diff.changes]
  cases Diff.attrs v.attrs new with
  | none =>
    refine ⟨h, ?_, .refl hn⟩
    cases v
    rfl
  | some changes =>
    obtain ⟨h', hrun, hedit⟩ := applyAttrs_spec changes hv hn
    exact ⟨h', applyAll_singleton hrun, hedit⟩

/-- The listeners of a node once its bindings are to be others. -/
def listenersAfter (listeners : List Binding) (old new : Events) : List Binding :=
  if old = new then listeners else rebound listeners old new

theorem listenersAfter_all (old new : Events) :
    listenersAfter (Events.all old) old new = Events.all new := by
  rw [listenersAfter]
  split
  · rename_i e
    rw [e]
  · exact rebound_all old new

theorem events_spec (new : Events) (hv : v.host = some n) (hn : h.get? n = some nd)
    (parent : Handle) :
    ∃ h', applyAll (if v.events == new then [] else [.rebind new]) parent ⟨h, v⟩ =
        (.ok (), ⟨h', { v with events := new }⟩) ∧
      Edit h n { nd with listeners := listenersAfter nd.listeners v.events new } h' := by
  by_cases e : v.events = new
  · rw [if_pos (beq_iff_eq.mpr e), listenersAfter, if_pos e]
    refine ⟨h, ?_, .refl hn⟩
    rw [← e]
    cases v
    rfl
  · rw [if_neg fun hb => e (beq_iff_eq.mp hb), listenersAfter, if_neg e]
    obtain ⟨h', hrun, hedit⟩ := rebindAll_spec new hv hn
    exact ⟨h', applyAll_singleton hrun, hedit⟩

/-- What stands at a position of the live list, with the old position that it comes from. -/
theorem exists_of_traced {us mids ws : List VNode} {live : Moves.Live VNode}
    (hlen : mids.length = us.length)
    (hbare : bare live = (align (us.map VNode.key) (ws.map VNode.key)).moves.traced
      (mids.map VNode.detach) fun j => (freshAt ws j).detach)
    {j : Nat} {x c : VNode} (hx : ws[j]? = some x) (hc : (trees live)[j]? = some c) :
    ∃ p ∈ live, p.2 = c ∧ some (p.1, c.detach) =
      match (Align.counterparts (us.map VNode.key) (ws.map VNode.key)).idxOf? (some j) with
      | some i => (mids.map VNode.detach)[i]?.map fun a => (some i, a)
      | none => some (none, x.detach) := by
  have hlen' : (mids.map VNode.detach).length = (us.map VNode.key).length := by
    rw [List.length_map, List.length_map, hlen]
  have hj : j < (ws.map VNode.key).length := by
    rw [List.length_map]
    exact (List.getElem?_eq_some_iff.mp hx).1
  rw [List.getElem?_map, Option.map_eq_some_iff] at hc
  obtain ⟨p, hp, rfl⟩ := hc
  have hb : (bare live)[j]? = some (p.1, p.2.detach) := by
    rw [bare, List.getElem?_map, hp, Option.map_some]
  rw [hbare, Align.getElem?_traced_align _ _ hlen' _ hj, freshAt, hx, Option.getD_some] at hb
  exact ⟨p, List.mem_of_getElem? hp, rfl, hb.symm⟩

/-- The children after both steps: those with a counterpart became it, the others are fresh. -/
theorem allBecome_of_traced {k : Nat} {us mids ws : List VNode} {live : Moves.Live VNode}
    (hlen : mids.length = us.length)
    (hmids : ∀ (i j : Nat) (u c x : VNode), Aligned us ws i j → us[i]? = some u →
      mids[i]? = some c → ws[j]? = some x → Becomes k u x c)
    (hbare : bare live = (align (us.map VNode.key) (ws.map VNode.key)).moves.traced
      (mids.map VNode.detach) fun j => (freshAt ws j).detach)
    (hkept : ∀ p ∈ live, p ∈ Moves.start mids ∨ p.1 = none ∧ ∀ m ∈ p.2.handles, k ≤ m) :
    AllBecome k us ws (trees live) := by
  refine ⟨?_, fun {i j u x c} hij hu hx hc => ?_, fun {j x c} hj hx hc => ?_⟩
  · have hl := congrArg List.length hbare
    rw [bare, List.length_map, Align.length_traced_align _ _ (by simp [hlen]), List.length_map] at hl
    rw [trees, List.length_map, hl]
  · obtain ⟨p, hp, rfl, hfrom⟩ := exists_of_traced hlen hbare hx hc
    rw [aligned_iff.mp hij] at hfrom
    obtain ⟨a, _, ha⟩ := Option.map_eq_some_iff.mp hfrom.symm
    have hsource : p.1 = some i := (congrArg Prod.fst ha).symm
    rcases hkept p hp with hstart | ⟨hnone, _⟩
    · obtain ⟨i', hi', hmid⟩ := Moves.mem_start.mp hstart
      obtain rfl : i = i' := Option.some.inj (hsource.symm.trans hi')
      exact hmids i j u p.2 x hij hu hmid hx
    · cases hsource.symm.trans hnone
  · obtain ⟨p, hp, rfl, hfrom⟩ := exists_of_traced hlen hbare hx hc
    have hnone : (Align.counterparts (us.map VNode.key) (ws.map VNode.key)).idxOf? (some j) = none :=
      Option.eq_none_iff_forall_ne_some.mpr fun i e => hj i (aligned_iff.mpr e)
    rw [hnone] at hfrom
    obtain ⟨hsource, hdetach⟩ := Prod.mk.inj (Option.some.inj hfrom)
    refine ⟨hdetach, ?_⟩
    rcases hkept p hp with hstart | ⟨_, hnew⟩
    · obtain ⟨i, hi, _⟩ := Moves.mem_start.mp hstart
      cases hsource.symm.trans hi
    · exact hnew

/-- **A node that stays**: its attributes, its bindings, its children and their order change in this
    order, and nothing but the node and what is below it. -/
theorem node_becomes {v w : VNode} (ih : ∀ c ∈ v.children, Updates c) (hvt : v.kind ≠ .text)
    (hwt : w.kind ≠ .text) (hc : Diff.compatible v w = true) (hv : v.host = some n)
    (hh : HangsBehind h O n nd front v.children) (parent : Handle) :
    ∃ h' cs, applyAll (Diff.tree v w) parent ⟨h, v⟩ = (.ok (), ⟨h', updated v w cs⟩) ∧
      Redone h (some n) v.children h' cs ∧
      h'.get? n = some { nd with
        attrs := Attrs.applyChanges nd.attrs (Diff.changes v.attrs w.attrs)
        listeners := listenersAfter nd.listeners v.events w.events
        children := front.map Subtype.val ++ cs.map VNode.top } ∧
      AllBecome h.nodes.size v.children w.children cs := by
  obtain ⟨h₁, hrun₁, hedit₁⟩ := attrs_spec w.attrs hv hh.node parent
  obtain ⟨h₂, hrun₂, hedit₂⟩ := @events_spec h₁ n _ { v with
    attrs := Attrs.applyChanges v.attrs (Diff.changes v.attrs w.attrs) } w.events hv hedit₁.self parent
  have hedit := hedit₁.trans hedit₂
  have hredone₂ := hh.edit hedit
  have hh₂ := hh.redone hredone₂ hedit.self rfl hh.children
  obtain ⟨h₃, mids, hrun₃, hredone₃, hn₃, hlen, hmids⟩ := @siblings_spec h₂ O n _
    (updated v w v.children) front _ ih (Diff.partners v w) [] hv rfl hh₂ parent
  have hh₃ := hh₂.redone hredone₃ hn₃ rfl rfl
  obtain ⟨h₄, live, hrun₄, hredone₄, hn₄, hbare, hkept⟩ := @order_spec h₃ O n _ (updated v w mids)
    front w.children (align (v.children.map VNode.key) (w.children.map VNode.key)).moves hv hh₃ parent
  refine ⟨h₄, trees live, ?_, hredone₂.trans (hredone₃.trans hredone₄), hn₄, ?_⟩
  · rw [Diff.tree_of_compatible hvt hwt hc, List.append_assoc, List.append_assoc]
    exact (applyAll_append hrun₁).trans
      ((applyAll_append hrun₂).trans ((applyAll_append hrun₃).trans hrun₄))
  · have hsize₃ := Nat.le_trans hredone₂.size_le hredone₃.size_le
    refine allBecome_of_traced hlen ?_ hbare fun p hp => ?_
    · exact fun i j u c x hij hu hc' hx =>
        (hmids i u c x hu hc' (hij.partner hx)).mono hredone₂.size_le
    · exact (hkept p hp).imp_right fun ⟨hnone, hnew⟩ =>
        ⟨hnone, fun m hm => Nat.le_trans hsize₃ (hnew m hm)⟩

/-- A node that stays, with no children besides those of the tree: plain children are alike the new
    ones. -/
theorem node_spec {v w : VNode} (ih : ∀ c ∈ v.children, Updates c) (hvt : v.kind ≠ .text)
    (hwt : w.kind ≠ .text) (hc : Diff.compatible v w = true) (hv : v.host = some n)
    (hh : Hangs h O n nd v.children) (parent : Handle) :
    ∃ h' cs, applyAll (Diff.tree v w) parent ⟨h, v⟩ = (.ok (), ⟨h', updated v w cs⟩) ∧
      Redone h (some n) v.children h' cs ∧
      h'.get? n = some { nd with
        attrs := Attrs.applyChanges nd.attrs (Diff.changes v.attrs w.attrs)
        listeners := listenersAfter nd.listeners v.events w.events
        children := cs.map VNode.top } ∧
      ((∀ c ∈ v.children, c.Plain) → (∀ c ∈ w.children, c.Plain) →
        AlikeAll cs w.children ∧ ∀ c ∈ cs, c.Plain) := by
  obtain ⟨h', cs, hrun, hredone, hn, hall⟩ := node_becomes ih hvt hwt hc hv hh parent
  exact ⟨h', cs, hrun, hredone, hn, hall.alike⟩

/-! ## 6. Up the tree -/

/-- What a tree that is shown below a node has hanging at its top. -/
theorem hangs_top {c : VNode} (hs : Shows h (some n) c) (ho : Around h O n)
    (hapart : ∀ m ∈ c.handles, ¬ O m) (hnodup : c.handles.Nodup) (hc : c.kind ≠ .text) :
    ∃ nc, Hangs h (fun m => m = c.top ∨ O m) c.top nc c.children ∧ nc.parent = some n ∧
      nc.content = contentOf c.kind c.tag c.content ∧ Attrs.Shown c.attrs nc.attrs ∧
      nc.listeners = Events.all c.events := by
  have hchildren := shownChildren_of_ne hc
  have hnot := hs.top_not_below hnodup
  rw [hs.handles_eq, hchildren] at hnodup hapart
  rw [hchildren] at hnot
  have hparent := hs.parent_eq
  have hlt := hs.lt_size hs.top_mem
  have htop := hs.host_eq
  cases hs with
  | @mk p v k nc host node content parent attrs listeners children below =>
    obtain rfl : k = c.top := Option.some.inj (host.symm.trans htop)
    rw [shownAttrs, if_neg hc] at attrs
    rw [shownBindings, if_neg hc] at listeners
    rw [hchildren] at children below
    refine ⟨nc, ⟨node, children, ho.child hparent hlt, ?_, below, ?_⟩, parent, content, attrs,
      listeners⟩
    · rintro m hm (rfl | ho)
      · exact hnot hm
      · exact hapart m (List.mem_cons_of_mem _ hm) ho
    · exact (List.nodup_cons.mp hnodup).2

/-- A child that is no text, with what is below it. -/
theorem hangs_child {a b : List VNode} {c : VNode} (hh : HangsBehind h O n nd front (a ++ c :: b))
    (hc : c.kind ≠ .text) :
    ∃ nc, Hangs h (fun m => m = c.top ∨ O m) c.top nc c.children ∧ nc.parent = some n ∧
      nc.content = contentOf c.kind c.tag c.content ∧ Attrs.Shown c.attrs nc.attrs ∧
      nc.listeners = Events.all c.events := by
  have hs : Shows h (some n) c := (forall_mem_middle.mp hh.shows).1
  obtain ⟨hnodup, _, _⟩ := nodup_handlesAll_middle.mp hh.nodup
  exact hangs_top hs hh.around
    (fun m hm => hh.apart m (mem_handlesAll_middle.mpr (.inl hm))) hnodup hc

/-- What was made anew below a child, seen from the node. -/
theorem redone_child {a b : List VNode} {c c' : VNode} {nc : HostNode} {O' : Handle → Prop}
    {h' : Host}
    (hh : HangsBehind h O n nd front (a ++ c :: b)) (hc : Hangs h O' c.top nc c.children)
    (hs : Shows h' (some n) c') (hr : Redone h (some c.top) c.children h' c'.shownChildren)
    (hkind : c.kind ≠ .text) (htop : c'.top = c.top) :
    Redone h (some n) (a ++ c :: b) h' (a ++ c' :: b) ∧
      h'.get? n =
        some { nd with children := front.map Subtype.val ++ (a ++ c' :: b).map VNode.top } := by
  obtain ⟨hsc, _⟩ := forall_mem_middle.mp hh.shows
  have hold : c.handles = c.top :: handlesAll c.children := by
    rw [hsc.handles_eq, shownChildren_of_ne hkind]
  have hnew : c'.handles = c.top :: handlesAll c'.shownChildren := by rw [hs.handles_eq, htop]
  have hfresh : ∀ m ∈ c'.handles, m ∈ c.handles ∨ h.nodes.size ≤ m := by
    intro m hm
    rw [hnew, List.mem_cons] at hm
    rw [hold, List.mem_cons]
    rcases hm with rfl | hm
    · exact .inl (.inl rfl)
    · exact (hr.fresh m hm).imp_left .inr
  have helse : ∀ m, m ∉ c'.handles → h'.get? m = if m ∈ c.handles then none else h.get? m := by
    intro m hm
    rw [hnew, List.mem_cons, not_or] at hm
    rw [hr.elsewhere m (fun e => hm.1 (Option.some.inj e)) hm.2, hold]
    refine if_congr ?_ rfl rfl
    rw [List.mem_cons]
    exact ⟨.inr, fun e => e.resolve_left hm.1⟩
  have hnodup : c'.handles.Nodup := by
    rw [hnew]
    exact List.nodup_cons.mpr ⟨fun hm => hc.apart_redone hr c.top hm hc.around.self, hr.nodup⟩
  refine ⟨hh.redone_middle hr.size_le hfresh (fun m _ => helse m) hs hnodup, ?_⟩
  -- the node itself is neither in the old child nor in the new one
  have hnc' : n ∉ c'.handles := fun hm =>
    (hfresh n hm).elim hh.not_mem_middle (Nat.not_le.mpr (lt_size_of_get? hh.node))
  rw [helse n hnc', if_neg hh.not_mem_middle, hh.node, List.map_append, List.map_cons, htop,
    ← List.map_cons, ← List.map_append, ← hh.children]

/-- The rendered tree takes the place of the node when the host can be told so, and else the node
    stays what it was. -/
theorem replace_apply {h₁ : Host} {k : Handle} {w w' : VNode} (hv : v.host = some n)
    (hrender : render w h = (.ok (k, w'), h₁)) (parent : Handle) :
    applyAll [.replace w] parent ⟨h, v⟩ =
      match Host.replace parent k n h₁ with
      | (.ok _, h₂) => (.ok (), ⟨h₂, w'⟩)
      | (.error e, h₂) => (.error e, ⟨h₂, v⟩) := by
  have hself : applyOne (.replace w) parent ⟨h, v⟩ =
      (PatchM.onHost (Host.replace parent k n) >>= fun _ => PatchM.onNode fun _ => w') ⟨h₁, v⟩ := by
    rw [applyOne, replaceSelf, Run.bind_ok (patchHandle_apply hv h),
      Run.bind_ok (onHost_apply hrender v)]
  rw [applyAll, Run.bind_apply, hself, Run.bind_apply]
  cases e : Host.replace parent k n h₁ with
  | mk r h₂ =>
    rw [onHost_apply e v]
    cases r <;> rfl

theorem replaceSelf_spec {a b : List VNode} {c : VNode} (w : VNode)
    (hh : HangsBehind h O n nd front (a ++ c :: b)) :
    ∃ h' c', applyAll [.replace w] n ⟨h, c⟩ = (.ok (), ⟨h', c'⟩) ∧
      Redone h (some n) (a ++ c :: b) h' (a ++ c' :: b) ∧
      h'.get? n =
        some { nd with children := front.map Subtype.val ++ (a ++ c' :: b).map VNode.top } ∧
      c'.detach = w.detach ∧ ∀ m ∈ c'.handles, h.nodes.size ≤ m := by
  have hs : Shows h (some n) c := (forall_mem_middle.mp hh.shows).1
  obtain ⟨h₁, c', hrun₁, hr⟩ := render_spec w h
  obtain ⟨h', hrun, hredone, hn⟩ := replace_child hh hr
  refine ⟨h', c', ?_, hredone, hn, hr.detach_eq, fun m => hr.size_le_of_mem⟩
  rw [replace_apply hs.host_eq hrun₁, ← hr.top_eq, hrun]

/-- A child that keeps its identity; its parent is not needed for that. -/
theorem same_spec {v w : VNode} (ih : ∀ c ∈ v.children, Updates c) (hsame : v.SameIdentity w)
    {a b : List VNode} (hh : HangsBehind h O n nd front (a ++ v :: b)) (parent : Handle) :
    ∃ h' v', applyAll (Diff.tree v w) parent ⟨h, v⟩ = (.ok (), ⟨h', v'⟩) ∧
      Redone h (some n) (a ++ v :: b) h' (a ++ v' :: b) ∧
      h'.get? n =
        some { nd with children := front.map Subtype.val ++ (a ++ v' :: b).map VNode.top } ∧
      Becomes h.nodes.size v w v' := by
  rcases Diff.tree_cases v w with ⟨hvt, hwt, hcontent⟩ | ⟨hvt, hwt, hc⟩ | hdifferent
  · refine ⟨h, v, ?_, hh.redone_refl, hh.node_eq, .kept hvt hwt hcontent⟩
    rw [Diff.tree_of_text hvt hwt hcontent]
    rfl
  · have hs : Shows h (some n) v := (forall_mem_middle.mp hh.shows).1
    obtain ⟨nc, hhc, hparent, hnc, hattrs, hlisteners⟩ := hangs_child hh hvt
    obtain ⟨h', cs, hrun, hredone, hn, hall⟩ := node_becomes ih hvt hwt hc hs.host_eq hhc parent
    have hut : (updated v w cs).kind ≠ .text := hvt
    have hshown := shownChildren_updated hvt w cs
    have hs' : Shows h' (some n) (updated v w cs) := by
      refine .mk hs.host_eq hn hnc hparent ?_ ?_ ?_ ?_
      · rw [shownAttrs, if_neg hut]
        exact hattrs.applyChanges _
      · rw [shownBindings, if_neg hut, hlisteners]
        exact listenersAfter_all v.events w.events
      · rw [hshown]
        rfl
      · rw [hshown]
        exact hredone.shows
    obtain ⟨hredone', hn'⟩ := redone_child hh hhc hs' (hshown.symm ▸ hredone) hvt rfl
    exact ⟨h', _, hrun, hredone', hn', hall.stays hvt hwt hc⟩
  · exact absurd hsame hdifferent

/-- **Every node can be updated to every tree.** -/
theorem updates (v : VNode) : Updates v := by
  induction v using VNode.induction with
  | h v ih =>
    intro w h O n nd front a b hh
    by_cases hsame : v.SameIdentity w
    · exact same_spec ih hsame hh n
    · obtain ⟨h', v', hrun, hredone, hn, hdetach, hnew⟩ := replaceSelf_spec w hh
      rw [← Diff.tree_of_not_same hsame] at hrun
      exact ⟨h', v', hrun, hredone, hn, .replaced hsame hdetach hnew⟩

end

end Patch

end Trellis
