import Trellis.Proofs.Host.Becomes

/-!
# Host nodes follow identity

A handle of the old tree that a tree still uses after an update is used for what the old node has
become (`Becomes.trace`), so for the same item. Below it the old children are looked at one by one:

- `aligned_iff_counterpart`: where no key stands twice, the alignment pairs up the children with the
  same key and, in order, those without a key,
- `AllBecome.host_of_aligned`: a child goes on with its handle when its counterpart is the same
  item, wherever that stands,
- `AllBecome.gone`: of any other child no handle is used again.

`FollowsIdentity` puts these together for two trees and the host (`Becomes.follows`).
-/

namespace Trellis

namespace VNode

/-! ## 1. The nodes of a tree -/

/-- A node is the top of a tree or below it, as far as nodes stand for it in a host. -/
inductive Within : VNode → VNode → Prop
  | here (v : VNode) : Within v v
  | inside {u c v : VNode} (child : c ∈ v.shownChildren) (within : Within u c) : Within u v

section

variable {u v w : VNode} {vs : List VNode} {m : Handle}

theorem Within.trans (hu : u.Within v) (hv : v.Within w) : u.Within w := by
  induction hv with
  | here => exact hu
  | inside child _ ih => exact .inside child ih

theorem Within.child (h : u.Within v) {c : VNode} (hc : c ∈ u.shownChildren) : c.Within v :=
  (Within.inside hc (.here c)).trans h

theorem Within.mem_handles (h : u.Within v) (hm : m ∈ u.handles) : m ∈ v.handles := by
  induction h with
  | here => exact hm
  | inside child _ ih => exact mem_handles_iff.mpr (.inr ⟨_, child, ih⟩)

theorem mem_handles_of_host (hm : v.host = some m) : m ∈ v.handles :=
  mem_handles_iff.mpr (.inl hm)

theorem mem_handlesAll_shownChildren (hm : m ∈ handlesAll v.shownChildren) : m ∈ v.handles :=
  mem_handles_iff.mpr (.inr (mem_handlesAll.mp hm))

theorem handles_eq_append (v : VNode) : v.handles = v.host.toList ++ handlesAll v.shownChildren := by
  obtain ⟨kind, tag, component, content, key, attrs, events, children, host⟩ := v
  rw [handles, shownChildren]
  split <;> rfl

theorem nodup_below (h : v.handles.Nodup) : (handlesAll v.shownChildren).Nodup := by
  rw [handles_eq_append] at h
  exact (List.nodup_append.mp h).2.1

theorem host_not_below (h : v.handles.Nodup) (hm : v.host = some m) :
    m ∉ handlesAll v.shownChildren := by
  rw [handles_eq_append, hm] at h
  exact (List.nodup_cons.mp h).1

theorem nodup_of_mem (h : (handlesAll vs).Nodup) {c : VNode} (hc : c ∈ vs) : c.handles.Nodup := by
  obtain ⟨a, b, rfl⟩ := List.append_of_mem hc
  rw [handlesAll_append, handlesAll] at h
  exact (List.nodup_append.mp (List.nodup_append.mp h).2.1).1

theorem Within.nodup (h : u.Within v) (hv : v.handles.Nodup) : u.handles.Nodup := by
  induction h with
  | here => exact hv
  | inside child _ ih => exact ih (nodup_of_mem (nodup_below hv) child)

/-- Distinct handles tell which of the trees they belong to. -/
theorem index_unique (h : (handlesAll vs).Nodup) {i j : Nat} {a b : VNode} (hi : vs[i]? = some a)
    (hj : vs[j]? = some b) (ha : m ∈ a.handles) (hb : m ∈ b.handles) : i = j := by
  induction vs generalizing i j with
  | nil => cases hi
  | cons v vs ih =>
    obtain ⟨_, hrest, hapart⟩ := List.nodup_append.mp h
    have hmem : ∀ {k : Nat} {c : VNode}, vs[k]? = some c → m ∈ c.handles → m ∈ handlesAll vs :=
      fun hc hm => mem_handlesAll.mpr ⟨_, List.mem_of_getElem? hc, hm⟩
    cases i with
    | zero =>
      cases j with
      | zero => rfl
      | succ j =>
        cases hi
        exact absurd rfl (hapart m ha m (hmem hj hb))
    | succ i =>
      cases j with
      | zero =>
        cases hj
        exact absurd rfl (hapart m hb m (hmem hi ha))
      | succ j => exact congrArg (· + 1) (ih hrest hi hj)

/-- A handle belongs to one node of a tree. -/
theorem Within.unique {u' : VNode} (hu : u.Within v) (h : v.handles.Nodup) (hu' : u'.Within v)
    (hm : u.host = some m) (hm' : u'.host = some m) : u = u' := by
  induction hu with
  | here =>
    cases hu' with
    | here => rfl
    | inside child within =>
      have hbelow := mem_handlesAll.mpr ⟨_, child, within.mem_handles (mem_handles_of_host hm')⟩
      exact absurd hbelow (host_not_below h hm)
  | @inside c v child within ih =>
    have hmc := within.mem_handles (mem_handles_of_host hm)
    cases hu' with
    | here => exact absurd (mem_handlesAll.mpr ⟨c, child, hmc⟩) (host_not_below h hm')
    | @inside c' _ child' within' =>
      obtain ⟨i, hi⟩ := List.getElem?_of_mem child
      obtain ⟨j, hj⟩ := List.getElem?_of_mem child'
      obtain rfl := index_unique (nodup_below h) hi hj hmc
        (within'.mem_handles (mem_handles_of_host hm'))
      obtain rfl := Option.some.inj (hi.symm.trans hj)
      exact ih (nodup_of_mem (nodup_below h) child) within'

/-- Every node of a tree has a handle of its own, all of them below a bound. -/
structure Hosted (k : Nat) (v : VNode) : Prop where
  host : ∀ u : VNode, u.Within v → ∃ m, u.host = some m
  nodup : v.handles.Nodup
  lt : ∀ m ∈ v.handles, m < k

theorem Hosted.within {k : Nat} (h : v.Hosted k) (hu : u.Within v) : u.Hosted k where
  host _ hw := h.host _ (hw.trans hu)
  nodup := hu.nodup h.nodup
  lt m hm := h.lt m (hu.mem_handles hm)

/-! ## 2. Keys -/

/-- Texts have no key, and no key stands twice among siblings. -/
structure WellKeyed (v : VNode) : Prop where
  texts : ∀ u : VNode, u.Within v → u.kind = .text → u.key = ""
  distinct : ∀ u : VNode, u.Within v → Align.Distinct (u.shownChildren.map VNode.key)

theorem wellKeyed_iff :
    v.WellKeyed ↔ (v.kind = .text → v.key = "") ∧
      Align.Distinct (v.shownChildren.map VNode.key) ∧ ∀ c ∈ v.shownChildren, c.WellKeyed := by
  constructor
  · intro h
    refine ⟨h.texts v (.here v), h.distinct v (.here v), fun c hc => ⟨?_, ?_⟩⟩
    · exact fun u hu => h.texts u (.inside hc hu)
    · exact fun u hu => h.distinct u (.inside hc hu)
  · rintro ⟨htexts, hdistinct, hbelow⟩
    refine ⟨fun u hu => ?_, fun u hu => ?_⟩
    · cases hu with
      | here => exact htexts
      | inside child within => exact (hbelow _ child).texts u within
    · cases hu with
      | here => exact hdistinct
      | inside child within => exact (hbelow _ child).distinct u within

theorem WellKeyed.text_child (h : v.WellKeyed) {c : VNode} (hc : c ∈ v.shownChildren)
    (ht : c.kind = .text) : c.key = "" :=
  h.texts c (.inside hc (.here c)) ht

theorem WellKeyed.within (h : v.WellKeyed) (hu : u.Within v) : u.WellKeyed := by
  induction hu with
  | here => exact h
  | inside child _ ih => exact ih ((wellKeyed_iff.mp h).2.2 _ child)

theorem shownChildren_of_detach_eq (h : v.detach = w.detach) :
    v.shownChildren.map detach = w.shownChildren.map detach := by
  obtain ⟨hkind, _, _, _, _, _, _, hchildren⟩ := fields_of_detach_eq h
  rw [shownChildren, shownChildren, hkind]
  split
  · rfl
  · exact hchildren

theorem key_detach (v : VNode) : v.detach.key = v.key := by
  cases v
  rfl

/-- Whatever hosts a tree does not matter for its keys. -/
theorem WellKeyed.of_detach_eq (hw : w.WellKeyed) (h : v.detach = w.detach) : v.WellKeyed := by
  induction v using VNode.induction generalizing w with
  | h v ih =>
    obtain ⟨hkind, _, _, _, hkey, _⟩ := fields_of_detach_eq h
    obtain ⟨htexts, hdistinct, hbelow⟩ := wellKeyed_iff.mp hw
    have hchildren := shownChildren_of_detach_eq h
    have hkeys : v.shownChildren.map VNode.key = w.shownChildren.map VNode.key := by
      have hmap := congrArg (List.map VNode.key) hchildren
      rw [List.map_map, List.map_map] at hmap
      exact (List.map_congr_left fun c _ => (key_detach c).symm).trans
        (hmap.trans (List.map_congr_left fun c _ => key_detach c))
    refine wellKeyed_iff.mpr ⟨?_, hkeys ▸ hdistinct, fun c hc => ?_⟩
    · rw [hkind, hkey]
      exact htexts
    · obtain ⟨x, hx, e⟩ := List.mem_map.mp (hchildren ▸ List.mem_map_of_mem hc)
      exact ih c (mem_children_of_mem_shown hc) (hbelow x hx) e.symm

end

end VNode

namespace Patch

open VNode

variable {k : Nat} {v w v' : VNode} {us ws cs : List VNode}

/-! ## 3. Where a handle goes -/

/-- What has a handle of the old tree has not been replaced. -/
theorem Becomes.same_of_mem (hb : Becomes k v w v') {m : Handle} (hm : m ∈ v'.handles) (hlt : m < k) :
    v.SameIdentity w := by
  rcases hb.replaced_or_kept with ⟨_, _, hnew⟩ | ⟨hsame, _⟩
  · exact absurd hlt (Nat.not_lt.mpr (hnew m hm))
  · exact hsame

/-- **A handle that is used again tells which child has become which.** -/
theorem AllBecome.of_mem (ha : AllBecome k us ws cs) (hnodup : (handlesAll us).Nodup)
    (hold : ∀ m ∈ handlesAll us, m < k) {i j : Nat} {u c : VNode} {m : Handle}
    (hu : us[i]? = some u) (hc : cs[j]? = some c) (hmu : m ∈ u.handles) (hmc : m ∈ c.handles) :
    Aligned us ws i j ∧ ∃ x, ws[j]? = some x ∧ Becomes k u x c := by
  have hlt : m < k := hold m (mem_handlesAll.mpr ⟨u, List.mem_of_getElem? hu, hmu⟩)
  obtain ⟨x, hx⟩ := ha.exists_new hc
  rcases ha.origin hc hx with ⟨i', u', hij, hu', hb⟩ | ⟨_, hnew⟩
  · have hmu' := (hb.mem_handles hmc).resolve_right (Nat.not_le.mpr hlt)
    obtain rfl := index_unique hnodup hu' hu hmu' hmu
    obtain rfl := Option.some.inj (hu'.symm.trans hu)
    exact ⟨hij, x, hx, hb⟩
  · exact absurd hlt (Nat.not_lt.mpr (hnew m hmc))

theorem AllBecome.mem_handlesAll (ha : AllBecome k us ws cs) {m : Handle} (hm : m ∈ handlesAll cs) :
    m ∈ handlesAll us ∨ k ≤ m := by
  obtain ⟨c, hc, hmc⟩ := VNode.mem_handlesAll.mp hm
  obtain ⟨j, hcj⟩ := List.getElem?_of_mem hc
  obtain ⟨x, hx⟩ := ha.exists_new hcj
  rcases ha.origin hcj hx with ⟨i, u, _, hu, hb⟩ | ⟨_, hnew⟩
  · exact (hb.mem_handles hmc).imp_left fun hmu =>
      VNode.mem_handlesAll.mpr ⟨u, List.mem_of_getElem? hu, hmu⟩
  · exact .inr (hnew m hmc)

/-- **A node that has a handle of an old node is what that one has become**, and no handle at or below
    the old node is used elsewhere. -/
theorem Becomes.trace (hb : Becomes k v w v') (hnodup : v.handles.Nodup)
    (hold : ∀ m ∈ v.handles, m < k) {u u' : VNode} {m : Handle} (hu : u.Within v)
    (hu' : u'.Within v') (hm : u.host = some m) (hm' : u'.host = some m) :
    ∃ x, x.Within w ∧ Becomes k u x u' ∧ ∀ q ∈ u.handles, q ∈ v'.handles → q ∈ u'.handles := by
  induction v using VNode.induction generalizing w v' with
  | h v ih =>
    have hmu := mem_handles_of_host hm
    have hmu' := mem_handles_of_host hm'
    rcases hb.replaced_or_kept with ⟨_, _, hnew⟩ | ⟨_, hhost, ha⟩
    · have hge := hnew m (hu'.mem_handles hmu')
      exact absurd (hold m (hu.mem_handles hmu)) (Nat.not_lt.mpr hge)
    · have hnodupAll := nodup_below hnodup
      have holdAll : ∀ q ∈ handlesAll v.shownChildren, q < k :=
        fun q hq => hold q (mem_handlesAll_shownChildren hq)
      cases hu with
      | here =>
        cases hu' with
        | here => exact ⟨w, .here w, hb, fun q _ hq => hq⟩
        | inside child within =>
          -- the handle of the top is not below it
          have hmc := VNode.mem_handlesAll.mpr ⟨_, child, within.mem_handles hmu'⟩
          rcases ha.mem_handlesAll hmc with hmem | hge
          · exact absurd hmem (host_not_below hnodup hm)
          · exact absurd (hold m hmu) (Nat.not_lt.mpr hge)
      | @inside c _ child within =>
        have hbelow : ∀ {q : Handle}, q ∈ c.handles → q ∈ handlesAll v.shownChildren :=
          fun hq => VNode.mem_handlesAll.mpr ⟨c, child, hq⟩
        obtain ⟨i, hci⟩ := List.getElem?_of_mem child
        have hmc := within.mem_handles hmu
        cases hu' with
        | here => exact absurd (hbelow hmc) (host_not_below hnodup (hhost ▸ hm'))
        | inside child' within' =>
          -- both are below, and the child here has become the child there
          obtain ⟨j, hcj⟩ := List.getElem?_of_mem child'
          obtain ⟨hij, x, hx, hbx⟩ :=
            ha.of_mem hnodupAll holdAll hci hcj hmc (within'.mem_handles hmu')
          obtain ⟨y, hy, hby, hback⟩ := ih c (mem_children_of_mem_shown child) hbx
            (nodup_of_mem hnodupAll child) (fun q hq => holdAll q (hbelow hq)) within within'
          refine ⟨y, .inside (List.mem_of_getElem? hx) hy, hby, fun q hq hq' => hback q hq ?_⟩
          have hqc := within.mem_handles hq
          rcases mem_handles_iff.mp hq' with hq' | ⟨d, hd, hqd⟩
          · exact absurd (hbelow hqc) (host_not_below hnodup (hhost ▸ hq'))
          · obtain ⟨j', hdj⟩ := List.getElem?_of_mem hd
            obtain ⟨hij', _⟩ := ha.of_mem hnodupAll holdAll hci hdj hqc hqd
            obtain rfl := hij.unique_right hij'
            exact Option.some.inj (hcj.symm.trans hdj) ▸ hqd

/-! ## 4. Children of a node that stays -/

/-- Where texts have no key, the outcome has the key that it was to get. -/
theorem Becomes.key_eq (hb : Becomes k v w v') (hv : v.kind = .text → v.key = "")
    (hw : w.kind = .text → w.key = "") : v'.key = w.key := by
  rcases hb.outcomes with ⟨hvt, hwt, _, rfl⟩ | ⟨_, hdetach, _⟩ | ⟨_, _, _, hc, rfl, _⟩
  · rw [hv hvt, hw hwt]
  · exact (fields_of_detach_eq hdetach).2.2.2.2.1
  · exact (Diff.compatible_iff.mp hc).2.2.2

theorem AllBecome.keys_eq (ha : AllBecome k us ws cs) (hus : ∀ u ∈ us, u.kind = .text → u.key = "")
    (hws : ∀ x ∈ ws, x.kind = .text → x.key = "") : cs.map VNode.key = ws.map VNode.key := by
  refine List.ext_getElem (by rw [List.length_map, List.length_map, ha.length]) fun j hj hj' => ?_
  rw [List.length_map] at hj hj'
  rw [List.getElem_map, List.getElem_map]
  rcases ha.origin (List.getElem?_eq_getElem hj) (List.getElem?_eq_getElem hj') with
    ⟨_, u, _, hu, hb⟩ | ⟨hdetach, _⟩
  · exact hb.key_eq (hus u (List.mem_of_getElem? hu)) (hws _ (List.getElem_mem hj'))
  · exact (fields_of_detach_eq hdetach).2.2.2.2.1

/-- Two children are counterparts: they have the same key, or they have none and as many children
    without a key stand before each of them. -/
def Counterpart (us ws : List VNode) (i j : Nat) : Prop :=
  ∃ k, (us.map VNode.key)[i]? = some k ∧ (ws.map VNode.key)[j]? = some k ∧
    (k = "" → ((us.map VNode.key).take i).count "" = ((ws.map VNode.key).take j).count "")

/-- Where no key stands twice, the alignment pairs up counterparts. -/
theorem aligned_iff_counterpart (hus : Align.Distinct (us.map VNode.key))
    (hws : Align.Distinct (ws.map VNode.key)) {i j : Nat} :
    Aligned us ws i j ↔ Counterpart us ws i j :=
  (pairing_children us ws).getElem?_iff hus hws

theorem counterpart_of_key {i j : Nat} {u x : VNode} (hu : us[i]? = some u) (hx : ws[j]? = some x)
    (hkey : u.key = x.key) (hne : u.key ≠ "") : Counterpart us ws i j := by
  refine ⟨u.key, ?_, ?_, fun e => absurd e hne⟩
  · rw [List.getElem?_map, hu, Option.map_some]
  · rw [List.getElem?_map, hx, Option.map_some, hkey]

theorem counterpart_self {i : Nat} {u : VNode} (hu : us[i]? = some u) : Counterpart us us i i :=
  ⟨u.key, by rw [List.getElem?_map, hu, Option.map_some],
    by rw [List.getElem?_map, hu, Option.map_some], fun _ => rfl⟩

/-- Seen from the outcome: the alignment has paired up counterparts. -/
theorem AllBecome.aligned_iff_counterpart {u x : VNode}
    (ha : AllBecome k u.shownChildren x.shownChildren cs) (hu : u.WellKeyed) (hx : x.WellKeyed)
    {i j : Nat} :
    Aligned u.shownChildren x.shownChildren i j ↔ Counterpart u.shownChildren cs i j := by
  have hkeys := ha.keys_eq (fun _ hc => hu.text_child hc) fun _ hc => hx.text_child hc
  rw [Patch.aligned_iff_counterpart (hu.distinct u (.here u)) (hx.distinct x (.here x)), Counterpart,
    Counterpart, hkeys]

/-- **A child whose counterpart is the same item goes on with its handle**, wherever that stands. -/
theorem AllBecome.host_of_aligned (ha : AllBecome k us ws cs) {i j : Nat} {u c : VNode}
    (hij : Aligned us ws i j) (hu : us[i]? = some u) (hc : cs[j]? = some c)
    (hsame : u.SameIdentity c) : c.host = u.host := by
  have hx := List.getElem?_eq_getElem hij.lt_right
  exact (ha.paired hij hu hx hc).host_eq (hsame.trans (ha.same hc hx))

/-- **Of a child without a counterpart that is the same item no handle is used again.** -/
theorem AllBecome.gone (ha : AllBecome k us ws cs) (hnodup : (handlesAll us).Nodup)
    (hold : ∀ m ∈ handlesAll us, m < k) {i : Nat} {u : VNode} (hu : us[i]? = some u)
    (hnone : ∀ (j : Nat) (c : VNode), Aligned us ws i j → cs[j]? = some c → ¬ u.SameIdentity c)
    {m : Handle} (hm : m ∈ u.handles) : m ∉ handlesAll cs := by
  intro hmem
  obtain ⟨c, hc, hmc⟩ := VNode.mem_handlesAll.mp hmem
  obtain ⟨j, hcj⟩ := List.getElem?_of_mem hc
  obtain ⟨hij, x, hx, hb⟩ := ha.of_mem hnodup hold hu hcj hm hmc
  have hlt := hold m (VNode.mem_handlesAll.mpr ⟨u, List.mem_of_getElem? hu, hm⟩)
  exact hnone j c hij hcj ((hb.same_of_mem hmc hlt).trans hb.same.symm)

/-! ## 5. Trees -/

/-- The outcome has no repeated keys either. -/
theorem Becomes.wellKeyed (hb : Becomes k v w v') (hv : v.WellKeyed) (hw : w.WellKeyed) :
    v'.WellKeyed := by
  induction v using VNode.induction generalizing w v' with
  | h v ih =>
    rcases hb.replaced_or_kept with ⟨_, hdetach, _⟩ | ⟨_, _, ha⟩
    · exact hw.of_detach_eq hdetach
    · obtain ⟨hkey, _, hus⟩ := wellKeyed_iff.mp hv
      obtain ⟨hkey', hdistinct, hws⟩ := wellKeyed_iff.mp hw
      have hkeys := ha.keys_eq (fun _ hc => hv.text_child hc) fun _ hc => hw.text_child hc
      refine wellKeyed_iff.mpr ⟨fun ht => ?_, hkeys ▸ hdistinct, fun c hc => ?_⟩
      · rw [hb.key_eq hkey hkey']
        exact hkey' (hb.same.1 ▸ ht)
      · obtain ⟨j, hcj⟩ := List.getElem?_of_mem hc
        obtain ⟨x, hx⟩ := ha.exists_new hcj
        have hwx := hws x (List.mem_of_getElem? hx)
        rcases ha.origin hcj hx with ⟨_, u, _, hu, hbu⟩ | ⟨hdetach, _⟩
        · have hmem := List.mem_of_getElem? hu
          exact ih u (mem_children_of_mem_shown hmem) hbu (hus u hmem) hwx
        · exact hwx.of_detach_eq hdetach

end Patch

namespace VNode

/-- Two trees have the same items in the same places. -/
inductive Matches : VNode → VNode → Prop
  | mk {v w : VNode} (same : v.SameIdentity w)
      (length : v.shownChildren.length = w.shownChildren.length)
      (children : ∀ (j : Nat) (c x : VNode), v.shownChildren[j]? = some c →
        w.shownChildren[j]? = some x → Matches c x) : Matches v w

theorem matches_of_detach_eq {v w : VNode} (h : v.detach = w.detach) : Matches v w := by
  induction v using VNode.induction generalizing w with
  | h v ih =>
    have hchildren := shownChildren_of_detach_eq h
    refine .mk (Patch.sameIdentity_of_detach_eq h) ?_ fun j c x hc hx => ?_
    · have hlen := congrArg List.length hchildren
      rwa [List.length_map, List.length_map] at hlen
    · refine ih c (mem_children_of_mem_shown (List.mem_of_getElem? hc)) ?_
      have hj := congrArg (·[j]?) hchildren
      simp only [List.getElem?_map, hc, hx, Option.map_some, Option.some.injEq] at hj
      exact hj

end VNode

namespace Patch

open VNode

/-- **The outcome has the items of the tree that it was to become.** -/
theorem Becomes.matches (hb : Becomes k v w v') : v'.Matches w := by
  induction v using VNode.induction generalizing w v' with
  | h v ih =>
    rcases hb.replaced_or_kept with ⟨_, hdetach, _⟩ | ⟨_, _, ha⟩
    · exact matches_of_detach_eq hdetach
    · refine .mk hb.same ha.length fun j c x hc hx => ?_
      rcases ha.origin hc hx with ⟨_, u, _, hu, hbu⟩ | ⟨hdetach, _⟩
      · exact ih u (mem_children_of_mem_shown (List.mem_of_getElem? hu)) hbu
      · exact matches_of_detach_eq hdetach

/-- A node of the updated tree uses the host node that a node of the old tree had. -/
structure Reuses (old new u u' : VNode) : Prop where
  old : u.Within old
  new : u'.Within new
  host : ∃ m, u.host = some m ∧ u'.host = some m

/-- Below a host node that is used again, every child whose counterpart is the same item keeps its host
    node, wherever that stands. -/
def KeepsCounterparts (old new : VNode) : Prop :=
  ∀ {u u' c c' : VNode} {i j : Nat}, Reuses old new u u' → u.shownChildren[i]? = some c →
    u'.shownChildren[j]? = some c' → Counterpart u.shownChildren u'.shownChildren i j →
    c.SameIdentity c' → Reuses old new c c'

/-- **The host nodes of a tree follow its items**, from before an update to after it. A host node that
    is used again is used for the same item. Below it the children keep theirs that have the same item
    as their counterpart, keyed children in particular, and of all other children no host node is
    left. -/
structure FollowsIdentity (h : Host) (old new : VNode) : Prop where
  same : ∀ {u u' : VNode}, Reuses old new u u' → u.SameIdentity u'
  kept : KeepsCounterparts old new
  keyed : ∀ {u u' c c' : VNode}, Reuses old new u u' → c ∈ u.shownChildren →
    c' ∈ u'.shownChildren → c.key ≠ "" → c.key = c'.key → c.kind = c'.kind → c.tag = c'.tag →
    c.component = c'.component → Reuses old new c c'
  gone : ∀ {u u' c : VNode} {i : Nat}, Reuses old new u u' → u.shownChildren[i]? = some c →
    (∀ (j : Nat) (c' : VNode), Counterpart u.shownChildren u'.shownChildren i j →
      u'.shownChildren[j]? = some c' → ¬ c.SameIdentity c') →
    ∀ m ∈ c.handles, h.knows m = false

/-- Keyed children that are the same item are counterparts. -/
theorem KeepsCounterparts.keyed {old new u u' c c' : VNode} (hk : KeepsCounterparts old new)
    (hold : old.WellKeyed) (hr : Reuses old new u u') (hc : c ∈ u.shownChildren)
    (hc' : c' ∈ u'.shownChildren) (hne : c.key ≠ "") (hkey : c.key = c'.key)
    (hkind : c.kind = c'.kind) (htag : c.tag = c'.tag) (hcomponent : c.component = c'.component) :
    Reuses old new c c' := by
  obtain ⟨i, hci⟩ := List.getElem?_of_mem hc
  obtain ⟨j, hcj⟩ := List.getElem?_of_mem hc'
  have htext := fun ht => hne ((hold.within hr.old).text_child hc ht)
  refine hk hr hci hcj (counterpart_of_key hci hcj hkey hne) ?_
  exact (sameIdentity_iff_compatible htext).mpr
    (Diff.compatible_iff.mpr ⟨hkind, htag, hcomponent, hkey⟩)

/-- A tree that is left as it is follows its items. -/
theorem FollowsIdentity.refl {h : Host} (hv : v.WellKeyed) (hh : v.Hosted k) :
    FollowsIdentity h v v := by
  have hreused : ∀ {u u' : VNode}, Reuses v v u u' → u' = u := by
    rintro u u' ⟨hu, hu', m, hm, hm'⟩
    exact hu'.unique hh.nodup hu hm' hm
  have hkept : KeepsCounterparts v v := by
    intro u u' c c' i j hr hci hcj hij _
    obtain rfl := hreused hr
    have hdistinct := hv.distinct _ hr.old
    have haligned := (aligned_iff_counterpart hdistinct hdistinct).mpr hij
    obtain rfl := haligned.unique_right
      ((aligned_iff_counterpart hdistinct hdistinct).mpr (counterpart_self hci))
    obtain rfl := Option.some.inj (hci.symm.trans hcj)
    have hc := hr.old.child (List.mem_of_getElem? hci)
    obtain ⟨m, hm⟩ := hh.host _ hc
    exact ⟨hc, hc, m, hm, hm⟩
  refine ⟨fun hr => ?_, hkept, hkept.keyed hv, fun {_ _ c i} hr hci hnone => ?_⟩
  · rw [hreused hr]
    exact .refl _
  · obtain rfl := hreused hr
    exact absurd (.refl c) (hnone i c (counterpart_self hci) hci)

/-- A node that is used again has become the node that uses it. -/
theorem Becomes.of_reuses (hb : Becomes k v w v') (hh : v.Hosted k) {u u' : VNode}
    (hr : Reuses v v' u u') :
    ∃ x, x.Within w ∧ u.SameIdentity x ∧ Becomes k u x u' ∧
      AllBecome k u.shownChildren x.shownChildren u'.shownChildren ∧
      ∀ q ∈ u.handles, q ∈ v'.handles → q ∈ u'.handles := by
  obtain ⟨hu, hu', m, hm, hm'⟩ := hr
  obtain ⟨x, hx, hbx, hback⟩ := hb.trace hh.nodup hh.lt hu hu' hm hm'
  have hlt := hh.lt m (hu.mem_handles (mem_handles_of_host hm))
  have hsame := hbx.same_of_mem (mem_handles_of_host hm') hlt
  rcases hbx.replaced_or_kept with ⟨hdifferent, _⟩ | ⟨_, _, ha⟩
  · exact absurd hsame hdifferent
  · exact ⟨x, hx, hsame, hbx, ha, hback⟩

/-- **What an update makes of a tree follows its items**, when the host has forgotten what is used no
    more. -/
theorem Becomes.follows {h : Host} (hb : Becomes k v w v') (hv : v.WellKeyed) (hw : w.WellKeyed)
    (hh : v.Hosted k)
    (hgone : v.SameIdentity w → ∀ m ∈ v.handles, m ∉ v'.handles → h.knows m = false) :
    FollowsIdentity h v v' := by
  have hkept : KeepsCounterparts v v' := by
    intro u u' c c' i j hr hci hcj hij hsame
    obtain ⟨x, hx, _, _, ha, _⟩ := hb.of_reuses hh hr
    have haligned := (ha.aligned_iff_counterpart (hv.within hr.old) (hw.within hx)).mpr hij
    have hc := hr.old.child (List.mem_of_getElem? hci)
    obtain ⟨m, hm⟩ := hh.host _ hc
    exact ⟨hc, hr.new.child (List.mem_of_getElem? hcj), m, hm,
      (ha.host_of_aligned haligned hci hcj hsame).trans hm⟩
  refine ⟨fun hr => ?_, hkept, hkept.keyed hv, fun {u u' c i} hr hci hnone m hm => ?_⟩
  · obtain ⟨x, _, hsame, hbx, _⟩ := hb.of_reuses hh hr
    exact hsame.trans hbx.same.symm
  · obtain ⟨x, hx, _, _, ha, hback⟩ := hb.of_reuses hh hr
    have hhu := hh.within hr.old
    have hnot := ha.gone (nodup_below hhu.nodup)
      (fun q hq => hhu.lt q (mem_handlesAll_shownChildren hq)) hci (fun j c' hij => hnone j c'
        ((ha.aligned_iff_counterpart (hv.within hr.old) (hw.within hx)).mp hij)) hm
    have hbelow := VNode.mem_handlesAll.mpr ⟨c, List.mem_of_getElem? hci, hm⟩
    have hmu := mem_handlesAll_shownChildren hbelow
    obtain ⟨q, hq, hq'⟩ := hr.host
    have hsame := hb.same_of_mem (hr.new.mem_handles (mem_handles_of_host hq'))
      (hhu.lt q (mem_handles_of_host hq))
    refine hgone hsame m (hr.old.mem_handles hmu) fun hm' => ?_
    rcases mem_handles_iff.mp (hback m hmu hm') with hhost | hmem
    · rw [hq', Option.some.injEq] at hhost
      exact host_not_below hhu.nodup (hhost ▸ hq) hbelow
    · exact hnot (VNode.mem_handlesAll.mpr hmem)

end Patch

end Trellis
