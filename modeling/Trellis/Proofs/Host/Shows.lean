import Trellis.Proofs.Host.Attach
import Trellis.Proofs.Tree.Alike

/-!
# Trees that a host shows

`Host.Shows` ties a virtual tree to the nodes that stand for it, `VNode.handles` lists them. It
depends on those nodes alone (`Shows.frame`), so a change elsewhere leaves it be.

`Host.HangsBehind` is the situation below one node: its last children are shown, in order, by
distinct nodes, and none of these is around the node or among its first children; in `Host.Hangs`
there are no first ones. `Host.Redone` says that only what is below a node was made anew; such
changes add up (`Redone.trans`) and lead from one such situation to the next (`HangsBehind.redone`).
-/

namespace Trellis

namespace VNode

/-! ## 1. Virtual nodes -/

/-- The handle of the host node. -/
def top (v : VNode) : Handle := v.host.getD 0

/-- The children that have host nodes: a text has none. -/
def shownChildren (v : VNode) : List VNode := if v.kind = .text then [] else v.children

/-- The attributes that the host knows of. -/
def shownAttrs (v : VNode) : List Attr := if v.kind = .text then [] else v.attrs

/-- The bindings that the host knows of. -/
def shownBindings (v : VNode) : List Binding := if v.kind = .text then [] else Events.all v.events

theorem shownChildren_of_ne {v : VNode} (h : v.kind ≠ .text) : v.shownChildren = v.children :=
  if_neg h

theorem mem_children_of_mem_shown {v c : VNode} (hc : c ∈ v.shownChildren) : c ∈ v.children := by
  rw [shownChildren] at hc
  split at hc
  · exact absurd hc List.not_mem_nil
  · exact hc

mutual

/-- The handles of the host nodes of a tree, each node before what is below it. -/
def handles : VNode → List Handle
  | ⟨kind, _, _, _, _, _, _, children, host⟩ =>
    host.toList ++ if kind = .text then [] else handlesAll children

/-- The handles of the host nodes of trees. -/
def handlesAll : List VNode → List Handle
  | [] => []
  | v :: vs => handles v ++ handlesAll vs

end

theorem handles_eq {v : VNode} {n : Handle} (h : v.host = some n) :
    v.handles = n :: handlesAll v.shownChildren := by
  obtain ⟨kind, tag, component, content, key, attrs, events, children, host⟩ := v
  cases h
  rw [handles, shownChildren]
  split <;> rfl

theorem handles_of_ne_text {v : VNode} {n : Handle} (hv : v.host = some n) (hk : v.kind ≠ .text) :
    v.handles = n :: handlesAll v.children := by
  rw [handles_eq hv, shownChildren_of_ne hk]

theorem mem_handlesAll {vs : List VNode} {m : Handle} :
    m ∈ handlesAll vs ↔ ∃ v ∈ vs, m ∈ v.handles := by
  induction vs with
  | nil => simp [handlesAll]
  | cons v vs ih => simp [handlesAll, ih]

theorem mem_handles_iff {v : VNode} {m : Handle} :
    m ∈ v.handles ↔ v.host = some m ∨ ∃ c ∈ v.shownChildren, m ∈ c.handles := by
  obtain ⟨kind, tag, component, content, key, attrs, events, children, host⟩ := v
  rw [handles, List.mem_append, Option.mem_toList, shownChildren]
  refine or_congr Iff.rfl ?_
  split
  · simp
  · exact mem_handlesAll

theorem handlesAll_append (vs ws : List VNode) :
    handlesAll (vs ++ ws) = handlesAll vs ++ handlesAll ws := by
  induction vs with
  | nil => rfl
  | cons v vs ih => rw [List.cons_append, handlesAll, handlesAll, ih, List.append_assoc]

end VNode

namespace Host

open VNode

/-! ## 2. One tree -/

/-- The host shows a tree below a parent, or nowhere: every node has a known handle, and the host
    node behind it has the right content, attributes, listeners and children. -/
inductive Shows (h : Host) : Option Handle → VNode → Prop
  | mk {p : Option Handle} {v : VNode} {n : Handle} {nd : HostNode}
      (host : v.host = some n) (node : h.get? n = some nd)
      (content : nd.content = contentOf v.kind v.tag v.content) (parent : nd.parent = p)
      (attrs : Attrs.Shown v.shownAttrs nd.attrs) (listeners : nd.listeners = v.shownBindings)
      (children : nd.children = v.shownChildren.map VNode.top)
      (below : ∀ c ∈ v.shownChildren, Shows h (some n) c) : Shows h p v

section

variable {h h' : Host} {p : Option Handle} {v : VNode} {vs : List VNode}

theorem Shows.host_eq (hs : Shows h p v) : v.host = some v.top := by
  cases hs with
  | mk host => rw [VNode.top, host]; rfl

theorem Shows.handles_eq (hs : Shows h p v) : v.handles = v.top :: handlesAll v.shownChildren :=
  VNode.handles_eq hs.host_eq

theorem Shows.top_mem (hs : Shows h p v) : v.top ∈ v.handles := by
  rw [hs.handles_eq]
  exact List.mem_cons_self

theorem Shows.parent_eq (hs : Shows h p v) : h.parent? v.top = p := by
  cases hs with
  | mk host node _ parent => rw [VNode.top, host, Option.getD_some, parent?_of_get? node, parent]

/-- **Only the nodes of a tree matter for how it is shown.** -/
theorem Shows.frame (hs : Shows h p v) (hsame : ∀ m ∈ v.handles, h'.get? m = h.get? m) :
    Shows h' p v := by
  induction hs with
  | @mk p v n nd host node content parent attrs listeners children below ih =>
    rw [VNode.handles_eq host] at hsame
    refine .mk host ((hsame n List.mem_cons_self).trans node) content parent attrs listeners children
      fun c hc => ih c hc fun m hm => hsame m (List.mem_cons_of_mem _ ?_)
    exact mem_handlesAll.mpr ⟨c, hc, hm⟩

theorem shows_frame (hs : ∀ c ∈ vs, Shows h p c) (hsame : ∀ m ∈ handlesAll vs, h'.get? m = h.get? m) :
    ∀ c ∈ vs, Shows h' p c :=
  fun c hc => (hs c hc).frame fun m hm => hsame m (mem_handlesAll.mpr ⟨c, hc, hm⟩)

/-- A tree is shown elsewhere when its top has another parent and all else is as it was. -/
theorem Shows.moved {q : Option Handle} (hs : Shows h p v)
    (htop : ∀ nd, h.get? v.top = some nd → h'.get? v.top = some { nd with parent := q })
    (hsame : ∀ m ∈ handlesAll v.shownChildren, h'.get? m = h.get? m) : Shows h' q v := by
  have htop_eq := hs.host_eq
  cases hs with
  | @mk p v n nd host node content parent attrs listeners children below =>
    have hn : v.top = n := Option.some.inj (htop_eq.symm.trans host)
    rw [hn] at htop
    exact .mk host (htop nd node) content rfl attrs listeners children (shows_frame below hsame)

theorem Carries.append {ns ns' ms ms' : List Handle} (a : Carries h ns ms) (b : Carries h ns' ms') :
    Carries h (ns ++ ns') (ms ++ ms') := by
  induction a with
  | nil => exact b
  | @cons n nd ns below rest hn hbelow _ _ ih =>
    rw [List.cons_append, List.cons_append, List.append_assoc]
    exact .cons hn hbelow ih

theorem carries_tops (hs : ∀ c ∈ vs, Carries h [c.top] c.handles) :
    Carries h (vs.map VNode.top) (handlesAll vs) := by
  induction vs with
  | nil => exact .nil
  | cons v vs ih =>
    exact (hs v List.mem_cons_self).append (ih fun c hc => hs c (List.mem_cons_of_mem _ hc))

theorem Shows.carries (hs : Shows h p v) : Carries h [v.top] v.handles := by
  induction hs with
  | @mk p v n nd host node content parent attrs listeners children below ih =>
    have hbelow : Carries h nd.children (handlesAll v.shownChildren) := children ▸ carries_tops ih
    have htop : v.top = n := by rw [VNode.top, host, Option.getD_some]
    have hall : v.handles = n :: (handlesAll v.shownChildren ++ []) := by
      rw [VNode.handles_eq host, List.append_nil]
    rw [htop, hall]
    exact .cons node hbelow .nil

theorem Shows.known (hs : Shows h p v) : ∀ m ∈ v.handles, ∃ nd, h.get? m = some nd :=
  hs.carries.known

theorem Shows.lt_size (hs : Shows h p v) {m : Handle} (hm : m ∈ v.handles) : m < h.nodes.size := by
  obtain ⟨nd, hnd⟩ := hs.known m hm
  exact lt_size_of_get? hnd

theorem shows_lt_size (hs : ∀ c ∈ vs, Shows h p c) {m : Handle} (hm : m ∈ handlesAll vs) :
    m < h.nodes.size := by
  obtain ⟨c, hc, hm⟩ := mem_handlesAll.mp hm
  exact (hs c hc).lt_size hm

/-- The top of a tree is not below itself when the handles of the tree are distinct. -/
theorem Shows.top_not_below (hs : Shows h p v) (hnodup : v.handles.Nodup) :
    v.top ∉ handlesAll v.shownChildren := by
  rw [hs.handles_eq] at hnodup
  exact (List.nodup_cons.mp hnodup).1

theorem tops_subset (hs : ∀ c ∈ vs, Shows h p c) : vs.map VNode.top ⊆ handlesAll vs := by
  intro m hm
  obtain ⟨c, hc, rfl⟩ := List.mem_map.mp hm
  exact mem_handlesAll.mpr ⟨c, hc, (hs c hc).top_mem⟩

theorem nodup_tops (hs : ∀ c ∈ vs, Shows h p c) (hnodup : (handlesAll vs).Nodup) :
    (vs.map VNode.top).Nodup := by
  induction vs with
  | nil => exact List.nodup_nil
  | cons v vs ih =>
    have hvs : ∀ c ∈ vs, Shows h p c := fun c hc => hs c (List.mem_cons_of_mem _ hc)
    obtain ⟨_, hrest, hapart⟩ := List.nodup_append.mp hnodup
    refine List.nodup_cons.mpr ⟨fun hm => ?_, ih hvs hrest⟩
    exact hapart _ (hs v List.mem_cons_self).top_mem _ (tops_subset hvs hm) rfl

end

/-! ## 3. What is below a node -/

/-- From one host to another nothing changes but what is below a node: trees `vs` give way to trees
    `ws`, which use their handles again or take new ones. The node itself may change. -/
structure Redone (h : Host) (p : Option Handle) (vs : List VNode) (h' : Host) (ws : List VNode) :
    Prop where
  size_le : h.nodes.size ≤ h'.nodes.size
  fresh : ∀ m ∈ handlesAll ws, m ∈ handlesAll vs ∨ h.nodes.size ≤ m
  elsewhere : ∀ m, some m ≠ p → m ∉ handlesAll ws →
    h'.get? m = if m ∈ handlesAll vs then none else h.get? m
  shows : ∀ c ∈ ws, Shows h' p c
  nodup : (handlesAll ws).Nodup

/-- Where there was nothing below the node, all handles are new. -/
theorem Redone.size_le_of_mem {h h' : Host} {p : Option Handle} {ws : List VNode}
    (a : Redone h p [] h' ws) {m : Handle} (hm : m ∈ handlesAll ws) : h.nodes.size ≤ m :=
  (a.fresh m hm).resolve_left List.not_mem_nil

/-- Where there was nothing below the node, the other nodes stay. -/
theorem Redone.get?_eq {h h' : Host} {p : Option Handle} {ws : List VNode} (a : Redone h p [] h' ws)
    {m : Handle} (hp : some m ≠ p) (hm : m ∉ handlesAll ws) : h'.get? m = h.get? m := by
  rw [a.elsewhere m hp hm]
  exact if_neg List.not_mem_nil

/-- **Changes below a node add up.** -/
theorem Redone.trans {h h' h'' : Host} {p : Option Handle} {us vs ws : List VNode}
    (a : Redone h p us h' vs) (b : Redone h' p vs h'' ws) : Redone h p us h'' ws where
  size_le := Nat.le_trans a.size_le b.size_le
  fresh m hm := by
    rcases b.fresh m hm with hv | hge
    · exact a.fresh m hv
    · exact .inr (Nat.le_trans a.size_le hge)
  elsewhere m hp hm := by
    rw [b.elsewhere m hp hm]
    by_cases hv : m ∈ handlesAll vs
    · rw [if_pos hv]
      rcases a.fresh m hv with hu | hge
      · rw [if_pos hu]
      · rw [get?_eq_none_of_le hge, ite_self]
    · rw [if_neg hv, a.elsewhere m hp hv]
  shows := b.shows
  nodup := b.nodup

/-- A node with the trees below it, behind children that were there before: the node has their tops as
    children, the trees are shown by distinct nodes, and none of these is among `O`, what is around
    the node. The children in front are not to be touched either. -/
structure HangsBehind (h : Host) (O : Handle → Prop) (n : Handle) (nd : HostNode)
    (front : List (Subtype O)) (vs : List VNode) : Prop where
  node : h.get? n = some nd
  children : nd.children = front.map Subtype.val ++ vs.map VNode.top
  around : Around h O n
  apart : ∀ m ∈ handlesAll vs, ¬ O m
  shows : ∀ c ∈ vs, Shows h (some n) c
  nodup : (handlesAll vs).Nodup

/-- A node with the trees below it, which are all its children. -/
abbrev Hangs (h : Host) (O : Handle → Prop) (n : Handle) (nd : HostNode) (vs : List VNode) : Prop :=
  HangsBehind h O n nd [] vs

theorem not_mem_front {O : Handle → Prop} {front : List (Subtype O)} {m : Handle} (hm : ¬ O m) :
    m ∉ front.map Subtype.val := by
  intro hmem
  obtain ⟨⟨q, hq⟩, _, rfl⟩ := List.mem_map.mp hmem
  exact hm hq

section

variable {h h' : Host} {O : Handle → Prop} {n : Handle} {nd nd' : HostNode} {vs ws : List VNode}
  {front : List (Subtype O)}

theorem Hangs.children (hh : Hangs h O n nd vs) : nd.children = vs.map VNode.top :=
  HangsBehind.children hh

/-- The node, with its children spelled out. -/
theorem HangsBehind.node_eq (hh : HangsBehind h O n nd front vs) :
    h.get? n = some { nd with children := front.map Subtype.val ++ vs.map VNode.top } := by
  rw [← hh.children]
  exact hh.node

theorem HangsBehind.lt_size (hh : HangsBehind h O n nd front vs) {m : Handle}
    (hm : m ∈ handlesAll vs) :
    m < h.nodes.size := shows_lt_size hh.shows hm

theorem HangsBehind.ne_of_mem (hh : HangsBehind h O n nd front vs) {m : Handle}
    (hm : m ∈ handlesAll vs) : m ≠ n :=
  fun e => hh.apart m hm (e ▸ hh.around.self)

theorem HangsBehind.redone_refl (hh : HangsBehind h O n nd front vs) :
    Redone h (some n) vs h vs where
  size_le := Nat.le_refl _
  fresh _ hm := .inl hm
  elsewhere m _ hm := by rw [if_neg hm]
  shows := hh.shows
  nodup := hh.nodup

/-- What is around the node is apart from what is new below it. -/
theorem HangsBehind.apart_redone (hh : HangsBehind h O n nd front vs)
    (hr : Redone h (some n) vs h' ws) :
    ∀ m ∈ handlesAll ws, ¬ O m := by
  intro m hm ho
  rcases hr.fresh m hm with hv | hge
  · exact hh.apart m hv ho
  · exact Nat.lt_irrefl _ (Nat.lt_of_lt_of_le (hh.around.taken ho) hge)

/-- Around the node nothing changes. -/
theorem HangsBehind.get?_redone (hh : HangsBehind h O n nd front vs)
    (hr : Redone h (some n) vs h' ws) {m : Handle}
    (hm : O m) (hmn : m ≠ n) : h'.get? m = h.get? m := by
  have hv : m ∉ handlesAll vs := fun hv => hh.apart m hv hm
  have hw : m ∉ handlesAll ws := fun hw => hh.apart_redone hr m hw hm
  rw [hr.elsewhere m (fun e => hmn (Option.some.inj e)) hw, if_neg hv]

/-- **What hangs below a node still hangs there once it was made anew.** -/
theorem HangsBehind.redone (hh : HangsBehind h O n nd front vs) (hr : Redone h (some n) vs h' ws)
    (hn : h'.get? n = some nd') (hparent : nd'.parent = nd.parent)
    (hchildren : nd'.children = front.map Subtype.val ++ ws.map VNode.top) :
    HangsBehind h' O n nd' front ws where
  node := hn
  children := hchildren
  around := by
    refine hh.around.of_parents hr.size_le fun m hm => ?_
    by_cases e : m = n
    · rw [e, parent?_of_get? hn, parent?_of_get? hh.node, hparent]
    · rw [parent?, parent?, hh.get?_redone hr hm e]
  apart := hh.apart_redone hr
  shows := hr.shows
  nodup := hr.nodup

theorem Hangs.redone (hh : Hangs h O n nd vs) (hr : Redone h (some n) vs h' ws)
    (hn : h'.get? n = some nd') (hparent : nd'.parent = nd.parent)
    (hchildren : nd'.children = ws.map VNode.top) : Hangs h' O n nd' ws :=
  HangsBehind.redone hh hr hn hparent hchildren

/-- A change of the node itself leaves what is below it as it is. -/
theorem HangsBehind.edit (hh : HangsBehind h O n nd front vs) (he : Edit h n nd' h') :
    Redone h (some n) vs h' vs where
  size_le := Nat.le_of_eq he.size.symm
  fresh _ hm := .inl hm
  elsewhere m hm hv := by rw [if_neg hv, he.others fun e => hm (e ▸ rfl)]
  shows := shows_frame hh.shows fun m hm => he.others (hh.ne_of_mem hm)
  nodup := hh.nodup

end

end Host

end Trellis
