import Trellis.Proofs.Host.Identity
import Trellis.Proofs.Host.Reachable
import Trellis.Proofs.Host.Update

/-!
# Mounted trees, update after update

A mounted tree stands in its container (`Host.Standing`): the container stands for its top, or the
tree as a whole is the last child of the container; other children of the container are left alone.
Mounting leads there (`Host.mount_standing`), and from there every update leads there again, also
one that fails (`Patch.update_standing`).

So for every tree that was mounted and updated any number of times: the next update leaves handles
of host nodes only to the items that had them (`Patch.host_nodes_follow_identity`).
-/

namespace Trellis

open VNode

namespace Host

/-! ## 1. Standing trees -/

/-- A mounted tree in its container, behind whatever else the container holds. -/
inductive Standing (h : Host) (container : Handle) (v : VNode) : Prop
  | holds {O : Handle → Prop} {nd : HostNode} {front : List (Subtype O)}
      (host : v.host = some container) (kind : v.kind = .root) (parent : nd.parent ≠ some container)
      (hangs : HangsBehind h O container nd front v.children)
  | stands {O : Handle → Prop} {nd : HostNode} {front : List (Subtype O)}
      (hangs : HangsBehind h O container nd front [v])

section

variable {h h' : Host} {container : Handle} {v w : VNode}

theorem handlesAll_singleton (v : VNode) : handlesAll [v] = v.handles := List.append_nil _

theorem root_ne_text (h : v.kind = .root) : v.kind ≠ .text := by
  rw [h]
  exact VKind.noConfusion

theorem Shows.hosted {p : Option Handle} {u : VNode} (hs : Shows h p v) (hu : u.Within v) :
    ∃ m, u.host = some m := by
  induction hu generalizing p with
  | here => exact ⟨_, hs.host_eq⟩
  | inside child _ ih =>
    cases hs with
    | mk host node content parent attrs listeners children below => exact ih (below _ child)

/-- The nodes of a standing tree have handles of their own, which are taken. -/
theorem Standing.hosted (hs : Standing h container v) : v.Hosted h.nodes.size := by
  cases hs with
  | holds host kind _ hangs =>
    have hhandles := handles_of_ne_text host (root_ne_text kind)
    refine ⟨fun u hu => ?_, ?_, fun m hm => ?_⟩
    · cases hu with
      | here => exact ⟨container, host⟩
      | inside child within => exact (hangs.shows _ (mem_children_of_mem_shown child)).hosted within
    · rw [hhandles]
      exact List.nodup_cons.mpr ⟨fun hm => hangs.ne_of_mem hm rfl, hangs.nodup⟩
    · rw [hhandles] at hm
      rcases List.mem_cons.mp hm with rfl | hm
      · exact lt_size_of_get? hangs.node
      · exact hangs.lt_size hm
  | stands hangs =>
    have hs := hangs.shows v List.mem_cons_self
    exact ⟨fun u hu => hs.hosted hu, handlesAll_singleton v ▸ hangs.nodup, fun m hm => hs.lt_size hm⟩

/-- In a forest every known node can take further trees behind the children it has. -/
theorem Forest.hangsBehind (hf : h.Forest) {nd : HostNode} (hn : h.get? container = some nd) :
    ∃ front : List (Subtype (· < h.nodes.size)), front.map Subtype.val = nd.children ∧
      HangsBehind h (· < h.nodes.size) container nd front [] := by
  have hlt : ∀ m ∈ nd.children, m < h.nodes.size := fun m hm =>
    hf.child_lt (children_of_get? hn ▸ hm)
  have hfront : (nd.children.attachWith _ hlt).map Subtype.val = nd.children :=
    List.attachWith_map_subtype_val hlt
  refine ⟨_, hfront, hn, ?_, ⟨lt_size_of_get? hn, fun _ hq => ?_, id⟩, ?_, ?_, List.nodup_nil⟩
  · rw [hfront, List.map_nil, List.append_nil]
  · obtain ⟨np, hnp, _⟩ := hf.parent_known hq
    exact lt_size_of_get? hnp
  · exact fun m hm => absurd hm List.not_mem_nil
  · exact fun c hc => absurd hc List.not_mem_nil

/-- **Mounting a tree ends well, and the tree stands in its container.** -/
theorem mount_standing (hf : h.Forest) {nd : HostNode} (hn : h.get? container = some nd)
    (v : VNode) :
    ∃ h' w, mount container v h = (.ok w, h') ∧ Standing h' container w ∧ w.detach = v.detach := by
  obtain ⟨front, hfront, hh⟩ := hf.hangsBehind hn
  have hlt : ∀ m ∈ nd.children, m < h.nodes.size := fun m hm =>
    hf.child_lt (children_of_get? hn ▸ hm)
  by_cases hroot : v.kind = .root
  · obtain ⟨h', ws, hrun, hredone, hdetach, hn'⟩ := mount_root_spec hroot hn hh.around hlt
    refine ⟨h', _, hrun, .holds rfl hroot ?_ (hh.redone hredone hn' rfl ?_), ?_⟩
    · exact fun hp => hf.ne_of_parent? ((parent?_of_get? hn).trans hp) rfl
    · rw [hfront]
    · cases v
      rw [VNode.detach, VNode.detach, detachAll_eq_map, detachAll_eq_map, hdetach]
  · obtain ⟨h', w, hrun, hredone, hdetach, hn', _⟩ := mount_spec hroot hn hh.around hlt
    refine ⟨h', w, hrun, .stands (hh.redone hredone hn' rfl ?_), hdetach⟩
    rw [hfront]
    rfl

end

end Host

namespace Patch

open Host

/-! ## 2. One update -/

section

variable {h : Host} {container : Handle} {v w : VNode}

/-- A standing tree that keeps its identity; its parent is not needed for that. -/
theorem update_same (hs : Standing h container v) (hsame : v.SameIdentity w) (parent : Handle) :
    ∃ h' v', applyPatches parent (diff v w) ⟨h, v⟩ = (.ok (), ⟨h', v'⟩) ∧
      Standing h' container v' ∧ Becomes h.nodes.size v w v' ∧
      ∀ m ∈ v.handles, m ∉ v'.handles → h'.get? m = none := by
  cases hs with
  | holds host kind hparent hangs =>
    have hvt := root_ne_text kind
    have hwt : w.kind ≠ .text := hsame.1 ▸ hvt
    have hc := (sameIdentity_iff_compatible hvt).mp hsame
    obtain ⟨h', cs, hrun, hredone, hn, hall⟩ :=
      node_becomes (fun c _ => updates c) hvt hwt hc host hangs parent
    refine ⟨h', _, hrun, .holds host kind ?_ (hangs.redone hredone hn rfl rfl),
      hall.stays hvt hwt hc, fun m hm hm' => ?_⟩
    · exact hparent
    · rw [handles_of_ne_text host hvt, List.mem_cons] at hm
      rw [handles_of_ne_text (v := updated v w cs) host hvt, List.mem_cons, not_or] at hm'
      rw [hredone.elsewhere m (fun e => hm'.1 (Option.some.inj e)) hm'.2,
        if_pos (hm.resolve_left hm'.1)]
  | stands hangs =>
    obtain ⟨h', v', hrun, hredone, hn, hb⟩ :=
      same_spec (fun c _ => updates c) hsame (a := []) (b := []) hangs parent
    refine ⟨h', v', hrun, .stands (hangs.redone hredone hn rfl rfl), hb, fun m hm hm' => ?_⟩
    have hmem : m ∈ handlesAll [v] := handlesAll_singleton v ▸ hm
    have hnot : m ∉ handlesAll [v'] := handlesAll_singleton v' ▸ hm'
    have helse := hredone.elsewhere m (fun e => hangs.ne_of_mem hmem (Option.some.inj e)) hnot
    exact helse.trans (if_pos hmem)

/-- A standing tree that gives way to another one, from its container: it stands there as it is when
    the container stands for its top, and else the other one does. -/
theorem update_other (hs : Standing h container v) (hdifferent : ¬ v.SameIdentity w) :
    ∃ r h' v', applyPatches container (diff v w) ⟨h, v⟩ = (r, ⟨h', v'⟩) ∧
      Standing h' container v' ∧
      (v.host = some container ∧ v' = v ∧ r ≠ .ok () ∨
        r = .ok () ∧ Becomes h.nodes.size v w v') := by
  rw [diff, Diff.tree_of_not_same hdifferent]
  cases hs with
  | holds host kind hparent hangs =>
    obtain ⟨h₁, w', hrun₁, hr⟩ := render_spec w h
    have hh₁ := hr.hangs hangs
    have hnot : h₁.parent? container ≠ some container := by
      rw [parent?_of_get? hh₁.node]
      exact hparent
    have hrequire : requireChild container container h₁ =
        (.error (.notAChild container container), h₁) := by
      rw [requireChild, Run.bind_ok (Run.get_apply h₁), if_pos hnot]
      rfl
    refine ⟨.error (.notAChild container container), h₁, v, ?_, .holds host kind hparent hh₁,
      .inl ⟨host, rfl, by simp⟩⟩
    rw [applyPatches, replace_apply host hrun₁, Host.replace, Run.bind_apply, hrequire]
  | stands hangs =>
    obtain ⟨h', v', hrun, hredone, hn, hdetach, hnew⟩ :=
      replaceSelf_spec w (a := []) (b := []) hangs
    exact ⟨.ok (), h', v', hrun, .stands (hangs.redone hredone hn rfl rfl),
      .inr ⟨rfl, .replaced hdifferent hdetach hnew⟩⟩

/-- A standing tree that gives way to another one, for whatever parent: the other one is fresh, or the
    tree is what it was. -/
theorem update_other_anywhere (hs : Standing h container v) (hdifferent : ¬ v.SameIdentity w)
    (parent : Handle) :
    ∃ r h' v', applyPatches parent (diff v w) ⟨h, v⟩ = (r, ⟨h', v'⟩) ∧
      (r = .ok () ∧ Becomes h.nodes.size v w v' ∨ r ≠ .ok () ∧ v' = v) := by
  obtain ⟨n, hn⟩ := hs.hosted.host v (.here v)
  obtain ⟨h₁, w', hrender, hr⟩ := render_spec w h
  rw [diff, Diff.tree_of_not_same hdifferent, applyPatches, replace_apply hn hrender]
  cases Host.replace parent h.nodes.size n h₁ with
  | mk r h₂ =>
    cases r with
    | error e => exact ⟨.error e, h₂, v, rfl, .inr ⟨by simp, rfl⟩⟩
    | ok _ =>
      refine ⟨.ok (), h₂, w', rfl, .inl ⟨rfl, .replaced hdifferent hr.detach_eq ?_⟩⟩
      exact fun m => hr.size_le_of_mem

/-- **One update of a standing tree**: what host nodes it still uses follow its items, and it ends
    well when the tree keeps its identity or is a child of its container. -/
theorem update_follows (hs : Standing h container v) (hv : v.WellKeyed) (hw : w.WellKeyed)
    (parent : Handle) :
    ∃ r h' v', applyPatches parent (diff v w) ⟨h, v⟩ = (r, ⟨h', v'⟩) ∧ FollowsIdentity h' v v' ∧
      (r = .ok () → v'.Matches w) ∧ (r ≠ .ok () → v' = v) ∧
      (v.SameIdentity w ∨ v.host ≠ some container ∧ parent = container → r = .ok ()) := by
  by_cases hsame : v.SameIdentity w
  · obtain ⟨h', v', hrun, _, hb, hgone⟩ := update_same hs hsame parent
    refine ⟨.ok (), h', v', hrun, ?_, fun _ => hb.matches, fun hne => absurd rfl hne, fun _ => rfl⟩
    refine hb.follows hv hw hs.hosted fun _ m hm hm' => ?_
    rw [Host.knows, hgone m hm hm']
    rfl
  · obtain ⟨r, h', v', hrun, houtcome⟩ := update_other_anywhere hs hsame parent
    refine ⟨r, h', v', hrun, ?_, fun hok => ?_, fun hne => ?_, fun hplace => ?_⟩
    · rcases houtcome with ⟨_, hb⟩ | ⟨_, rfl⟩
      · exact hb.follows hv hw hs.hosted fun h => absurd h hsame
      · exact .refl hv hs.hosted
    · rcases houtcome with ⟨_, hb⟩ | ⟨hne, _⟩
      · exact hb.matches
      · exact absurd hok hne
    · rcases houtcome with ⟨hok, _⟩ | ⟨_, hstays⟩
      · exact absurd hok hne
      · exact hstays
    · obtain ⟨hhost, rfl⟩ := hplace.resolve_left hsame
      obtain ⟨r', h'', v'', hrun', _, hcase⟩ := update_other hs hsame
      rw [(Prod.mk.inj (hrun.symm.trans hrun')).1]
      rcases hcase with ⟨hroot, _⟩ | ⟨hok, _⟩
      · exact absurd hroot hhost
      · exact hok

/-- An update from the container leaves a standing tree, whether it ends well or not. -/
theorem update_standing (hs : Standing h container v) (w : VNode) :
    ∃ r h' v', applyPatches container (diff v w) ⟨h, v⟩ = (r, ⟨h', v'⟩) ∧
      Standing h' container v' ∧ (v.WellKeyed → w.WellKeyed → v'.WellKeyed) := by
  by_cases hsame : v.SameIdentity w
  · obtain ⟨h', v', hrun, hs', hb, _⟩ := update_same hs hsame container
    exact ⟨.ok (), h', v', hrun, hs', hb.wellKeyed⟩
  · obtain ⟨r, h', v', hrun, hs', hcase⟩ := update_other hs hsame
    refine ⟨r, h', v', hrun, hs', ?_⟩
    rcases hcase with ⟨_, rfl, _⟩ | ⟨_, hb⟩
    · exact fun hv _ => hv
    · exact hb.wellKeyed

end

/-! ## 3. Runs of updates -/

/-- Brings a mounted tree to others, one after the other; what a failed update has done stays done. -/
def updateEach (container : Handle) (ws : List VNode) (m : Mounted) : Mounted :=
  ws.foldl (fun m w => (applyPatches container (diff m.node w) m).2) m

theorem updateEach_standing {container : Handle} (ws : List VNode) {m : Mounted}
    (hs : Standing m.host container m.node) :
    Standing (updateEach container ws m).host container (updateEach container ws m).node ∧
      (m.node.WellKeyed → (∀ w ∈ ws, w.WellKeyed) →
        (updateEach container ws m).node.WellKeyed) := by
  induction ws generalizing m with
  | nil => exact ⟨hs, fun hm _ => hm⟩
  | cons w ws ih =>
    obtain ⟨r, h', v', hrun, hs', hkeyed⟩ := update_standing hs w
    have hstep : (applyPatches container (diff m.node w) m).2 = ⟨h', v'⟩ := congrArg Prod.snd hrun
    rw [updateEach, List.foldl_cons, hstep]
    obtain ⟨hstands, hkeyedEach⟩ := @ih ⟨h', v'⟩ hs'
    refine ⟨hstands, fun hm hws => ?_⟩
    obtain ⟨hw, hrest⟩ := List.forall_mem_cons.mp hws
    exact hkeyedEach (hkeyed hm hw) hrest

/-- **Host nodes follow identity.** A tree is mounted in a container that runs of operations lead to
    and updated to others, and it is well keyed then, as it is when all of these were. Then it is
    updated once more. Where its host nodes are used again, they are used for the items that had them;
    keyed children of a node that is used again keep their host nodes wherever they have moved, and
    nothing stays behind of the children that have no counterpart. -/
theorem host_nodes_follow_identity (ops : List Host.Op) {container : Handle}
    (hcontainer : (Host.after ops).knows container = true) (first : VNode) (others : List VNode)
    {new : VNode} (hnew : new.WellKeyed) (parent : Handle) :
    ∃ h₀ v₀ h₁ old, Host.mount container first (Host.after ops) = (.ok v₀, h₀) ∧
      updateEach container others ⟨h₀, v₀⟩ = ⟨h₁, old⟩ ∧
      ((∀ w ∈ first :: others, w.WellKeyed) → old.WellKeyed) ∧
      (old.WellKeyed → ∃ r h₂ old', applyPatches parent (diff old new) ⟨h₁, old⟩ = (r, ⟨h₂, old'⟩) ∧
        FollowsIdentity h₂ old old' ∧ (r = .ok () → old'.Matches new) ∧ (r ≠ .ok () → old' = old) ∧
        (old.SameIdentity new ∨ old.host ≠ some container ∧ parent = container → r = .ok ())) := by
  obtain ⟨nd, hnd⟩ := Option.isSome_iff_exists.mp hcontainer
  obtain ⟨h₀, v₀, hmount, hs₀, hdetach⟩ := mount_standing (forest_after ops) hnd first
  obtain ⟨hs₁, hkeyed⟩ := @updateEach_standing container others ⟨h₀, v₀⟩ hs₀
  refine ⟨h₀, v₀, _, _, hmount, rfl, fun hall => ?_, fun hold => update_follows hs₁ hold hnew parent⟩
  obtain ⟨hfirst, hothers⟩ := List.forall_mem_cons.mp hall
  exact hkeyed (hfirst.of_detach_eq hdetach) hothers

/-- For instance, items of a list of which one moves, one goes and one is new. -/
theorem host_nodes_follow_moved_item :
    let item := fun key : String =>
      { VNode.plain .native "li" with key := key, children := [.ofText key] }
    ∃ h₀ v₀ h₂ v₂,
      Host.mount Host.root (.root [item "a", item "b", item "c"]) Host.empty = (.ok v₀, h₀) ∧
      applyPatches Host.root (diff v₀ (.root [item "c", item "d", item "a"])) ⟨h₀, v₀⟩ =
        (.ok (), ⟨h₂, v₂⟩) ∧
      FollowsIdentity h₂ v₀ v₂ ∧ v₂.Matches (.root [item "c", item "d", item "a"]) := by
  intro item
  have hitem : ∀ key, (item key).WellKeyed := by
    intro key
    refine wellKeyed_iff.mpr ⟨fun h => (nomatch h), List.pairwise_singleton _ _, fun c hc => ?_⟩
    obtain rfl := List.mem_singleton.mp hc
    exact wellKeyed_iff.mpr ⟨fun _ => rfl, .nil, fun c hc => absurd hc List.not_mem_nil⟩
  have hlist : ∀ a b c : String, [a, b, c].Pairwise (fun a b => a = b → a = "") →
      (VNode.root [item a, item b, item c]).WellKeyed := by
    intro a b c hkeys
    refine wellKeyed_iff.mpr ⟨fun h => (nomatch h), hkeys, fun d hd => ?_⟩
    have hd' : d ∈ [item a, item b, item c] := hd
    simp only [List.mem_cons, List.not_mem_nil, or_false] at hd'
    rcases hd' with rfl | rfl | rfl <;> exact hitem _
  obtain ⟨h₀, v₀, h₁, old, hmount, hold, hkeyed, hupdate⟩ :=
    @host_nodes_follow_identity [] Host.root rfl (.root [item "a", item "b", item "c"]) []
      (.root [item "c", item "d", item "a"]) (hlist "c" "d" "a" (by decide)) Host.root
  obtain ⟨rfl, rfl⟩ := Mounted.mk.inj hold
  obtain ⟨r, h₂, v₂, hrun, hfollows, hmatches, _, hok⟩ := hupdate
    (hkeyed fun w hw => List.mem_singleton.mp hw ▸ hlist "a" "b" "c" (by decide))
  have hsame : v₀.SameIdentity (.root [item "c", item "d", item "a"]) := by
    have hv : _ = v₀ := Except.ok.inj (congrArg Prod.fst hmount)
    rw [← hv]
    exact ⟨rfl, rfl, rfl, rfl⟩
  obtain rfl := hok (.inl hsame)
  exact ⟨h₀, v₀, h₂, v₂, hmount, hrun, hfollows, hmatches rfl⟩

end Patch

end Trellis
