import Trellis.Proofs.Host.Shows
import Trellis.Proofs.Tree.Difference

/-!
# What becomes of a tree

`Patch.Becomes` tells, without the run that did it, what an update has made of a tree: a text with
the same content is kept, a node with the same identity stays and goes on with its counterparts, all
else is fresh. Fresh nodes have handles from a bound `k` on, the number of handles that were taken
when the update began.

- `Becomes.alike`: it is alike the tree that it was to become,
- `Becomes.mem_handles`: its handles are handles of the old tree, or new.
-/

namespace Trellis

namespace Patch

open VNode

/-! ## 1. Counterparts -/

/-- The alignment gives the child at position `i` of the old list its counterpart at position `j` of
    the new one. -/
def Aligned (us ws : List VNode) (i j : Nat) : Prop :=
  (align (us.map VNode.key) (ws.map VNode.key)).children[i]? = some (some j)

section

variable {us ws : List VNode} {i j : Nat}

theorem pairing_children (us ws : List VNode) :
    Align.Pairing (us.map VNode.key) (ws.map VNode.key)
      (align (us.map VNode.key) (ws.map VNode.key)).children :=
  Align.pairing_counterparts _ _

theorem Aligned.lt_left (h : Aligned us ws i j) : i < us.length := by
  have hlt := (List.getElem?_eq_some_iff.mp h).1
  rwa [(pairing_children us ws).length, List.length_map] at hlt

theorem Aligned.lt_right (h : Aligned us ws i j) : j < ws.length := by
  have hlt := (pairing_children us ws).lt_length h
  rwa [List.length_map] at hlt

theorem Aligned.unique_right {j' : Nat} (h : Aligned us ws i j)
    (h' : Aligned us ws i j') : j = j' :=
  Option.some.inj (Option.some.inj (h.symm.trans h'))

theorem aligned_iff :
    Aligned us ws i j ↔
      (Align.counterparts (us.map VNode.key) (ws.map VNode.key)).idxOf? (some j) = some i :=
  (Align.pairing_counterparts _ _).idxOf?_eq_some.symm

theorem Aligned.partner {v w x : VNode} (h : Aligned v.children w.children i j)
    (hx : w.children[j]? = some x) : (Diff.partners v w)[i]? = some (some x) := by
  have hpair : (align (v.children.map VNode.key) (w.children.map VNode.key)).children[i]? =
      some (some j) := h
  rw [Diff.partners, List.getElem?_map, hpair, Option.map_some, Option.bind_some, hx]

end

/-! ## 2. Outcomes -/

/-- A node that was changed towards another one, with the children that came of it. -/
def updated (v w : VNode) (cs : List VNode) : VNode :=
  { v with
    attrs := Attrs.applyChanges v.attrs (Diff.changes v.attrs w.attrs)
    events := w.events, children := cs }

/-- **What an update towards a tree makes of a tree.** -/
inductive Becomes (k : Nat) : VNode → VNode → VNode → Prop
  | kept {v w : VNode} (hv : v.kind = .text) (hw : w.kind = .text)
      (content : v.content = w.content) : Becomes k v w v
  | replaced {v w v' : VNode} (different : ¬ v.SameIdentity w) (detach : v'.detach = w.detach)
      (fresh : ∀ m ∈ v'.handles, k ≤ m) : Becomes k v w v'
  | stays {v w : VNode} {cs : List VNode} (hv : v.kind ≠ .text) (hw : w.kind ≠ .text)
      (compatible : Diff.compatible v w = true) (length : cs.length = w.children.length)
      (paired : ∀ {i j : Nat} {u x c : VNode}, Aligned v.children w.children i j →
        v.children[i]? = some u → w.children[j]? = some x → cs[j]? = some c → Becomes k u x c)
      (fresh : ∀ {j : Nat} {x c : VNode}, (∀ i, ¬ Aligned v.children w.children i j) →
        w.children[j]? = some x → cs[j]? = some c → c.detach = x.detach ∧ ∀ m ∈ c.handles, k ≤ m) :
      Becomes k v w (updated v w cs)

/-- What an update makes of children: those with a counterpart become it, the others are fresh. -/
structure AllBecome (k : Nat) (us ws cs : List VNode) : Prop where
  length : cs.length = ws.length
  paired : ∀ {i j : Nat} {u x c : VNode}, Aligned us ws i j → us[i]? = some u →
    ws[j]? = some x → cs[j]? = some c → Becomes k u x c
  fresh : ∀ {j : Nat} {x c : VNode}, (∀ i, ¬ Aligned us ws i j) → ws[j]? = some x →
    cs[j]? = some c → c.detach = x.detach ∧ ∀ m ∈ c.handles, k ≤ m

section

variable {k k' : Nat} {v w v' : VNode} {us ws cs : List VNode}

theorem AllBecome.stays (ha : AllBecome k v.children w.children cs) (hv : v.kind ≠ .text)
    (hw : w.kind ≠ .text) (hc : Diff.compatible v w = true) : Becomes k v w (updated v w cs) :=
  .stays hv hw hc ha.length ha.paired ha.fresh

/-- The outcomes, with those of the children together. -/
theorem Becomes.outcomes (hb : Becomes k v w v') :
    (v.kind = .text ∧ w.kind = .text ∧ v.content = w.content ∧ v' = v) ∨
      (¬ v.SameIdentity w ∧ v'.detach = w.detach ∧ ∀ m ∈ v'.handles, k ≤ m) ∨
      ∃ cs, v.kind ≠ .text ∧ w.kind ≠ .text ∧ Diff.compatible v w = true ∧ v' = updated v w cs ∧
        AllBecome k v.children w.children cs := by
  cases hb with
  | kept hv hw content => exact .inl ⟨hv, hw, content, rfl⟩
  | replaced different detach fresh => exact .inr (.inl ⟨different, detach, fresh⟩)
  | stays hv hw compatible length paired fresh =>
    exact .inr (.inr ⟨_, hv, hw, compatible, rfl, length, paired, fresh⟩)

theorem shownChildren_updated (hv : v.kind ≠ .text) (w : VNode) (cs : List VNode) :
    (updated v w cs).shownChildren = cs :=
  shownChildren_of_ne hv

theorem AllBecome.exists_new (ha : AllBecome k us ws cs) {j : Nat} {c : VNode}
    (hc : cs[j]? = some c) : ∃ x, ws[j]? = some x :=
  ⟨_, List.getElem?_eq_getElem (ha.length ▸ (List.getElem?_eq_some_iff.mp hc).1)⟩

/-- A child has become what it is now, or it is fresh. -/
theorem AllBecome.origin (ha : AllBecome k us ws cs) {j : Nat} {c x : VNode} (hc : cs[j]? = some c)
    (hx : ws[j]? = some x) :
    (∃ i u, Aligned us ws i j ∧ us[i]? = some u ∧ Becomes k u x c) ∨
      c.detach = x.detach ∧ ∀ m ∈ c.handles, k ≤ m := by
  by_cases hj : ∃ i, Aligned us ws i j
  · obtain ⟨i, hij⟩ := hj
    have hu := List.getElem?_eq_getElem hij.lt_left
    exact .inl ⟨i, _, hij, hu, ha.paired hij hu hx hc⟩
  · exact .inr (ha.fresh (fun i hij => hj ⟨i, hij⟩) hx hc)

/-- What was new when fewer handles were taken was new then too. -/
theorem Becomes.mono (hb : Becomes k v w v') (hk : k' ≤ k) : Becomes k' v w v' := by
  induction hb with
  | kept hv hw content => exact .kept hv hw content
  | replaced different detach fresh =>
    exact .replaced different detach fun m hm => Nat.le_trans hk (fresh m hm)
  | stays hv hw compatible length _ fresh ih =>
    refine .stays hv hw compatible length (fun hij hu hx hc => ih hij hu hx hc) fun hj hx hc => ?_
    exact ⟨(fresh hj hx hc).1, fun m hm => Nat.le_trans hk ((fresh hj hx hc).2 m hm)⟩

/-! ## 3. Alike -/

/-- A plain node that stays is alike the other one when its children are. -/
theorem alike_of_compatible {v w : VNode} {cs : List VNode} (hv : v.Plain) (hw : w.Plain)
    (hvt : v.kind ≠ .text) (hwt : w.kind ≠ .text) (hc : Diff.compatible v w = true)
    (halike : AlikeAll cs w.children) (hplain : ∀ c ∈ cs, c.Plain) :
    Alike (updated v w cs) w ∧ Plain (updated v w cs) := by
  obtain ⟨hkind, htag, hcomponent, hkey⟩ := Diff.compatible_iff.mp hc
  have hnodup := Attrs.nodup_names_applyChanges hv.nodup_names (Diff.changes v.attrs w.attrs)
  have hreordered := Attrs.reordered_of_sameOption hnodup hw.nodup_names fun name =>
    Diff.sameOption_applyChanges v.attrs w.attrs (Attrs.length_valuesOf_le_one hnodup name)
  refine ⟨⟨hkind, htag, hcomponent, ?_, hkey, hreordered, rfl, halike⟩, ?_⟩
  · rw [hv.content_eq hvt, hw.content_eq hwt]
  · have hut : (updated v w cs).kind ≠ .text := hvt
    rw [plain_iff, if_neg hut]
    exact ⟨hv.content_eq hvt, hnodup, hplain⟩

/-- Children are alike the new ones when those that became them are. -/
theorem AllBecome.alike_of (ha : AllBecome k us ws cs)
    (hus : ∀ u ∈ us, ∀ {x c : VNode}, Becomes k u x c → u.Plain → x.Plain → Alike c x ∧ c.Plain)
    (hold : ∀ u ∈ us, u.Plain) (hnew : ∀ w ∈ ws, w.Plain) : AlikeAll cs ws ∧ ∀ c ∈ cs, c.Plain := by
  have hat : ∀ (j : Nat) (c x : VNode), cs[j]? = some c → ws[j]? = some x → Alike c x ∧ c.Plain := by
    intro j c x hc hx
    have hxp := hnew x (List.mem_of_getElem? hx)
    rcases ha.origin hc hx with ⟨i, u, _, hu, hb⟩ | ⟨hdetach, _⟩
    · have hmem := List.mem_of_getElem? hu
      exact hus u hmem hb (hold u hmem) hxp
    · exact ⟨alike_of_detach_eq hdetach, plain_detach.mp (hdetach ▸ plain_detach.mpr hxp)⟩
  refine ⟨alikeAll_iff.mpr ⟨ha.length, fun j c x hc hx => (hat j c x hc hx).1⟩, fun c hc => ?_⟩
  obtain ⟨j, hj, rfl⟩ := List.getElem_of_mem hc
  exact (hat j _ _ (List.getElem?_eq_getElem hj) (List.getElem?_eq_getElem (ha.length ▸ hj))).2

/-- **A plain tree becomes alike the tree that it is to become.** -/
theorem Becomes.alike (hb : Becomes k v w v') (hv : v.Plain) (hw : w.Plain) :
    Alike v' w ∧ v'.Plain := by
  induction v using VNode.induction generalizing w v' with
  | h v ih =>
    rcases hb.outcomes with ⟨hvt, hwt, hcontent, rfl⟩ | ⟨_, hdetach, _⟩ | ⟨cs, hvt, hwt, hc, rfl, ha⟩
    · exact ⟨alike_of_text hv hw hvt hwt hcontent, hv⟩
    · exact ⟨alike_of_detach_eq hdetach, plain_detach.mp (hdetach ▸ plain_detach.mpr hw)⟩
    · obtain ⟨halike, hplain⟩ := ha.alike_of ih hv.children hw.children
      exact alike_of_compatible hv hw hvt hwt hc halike hplain

theorem AllBecome.alike (ha : AllBecome k us ws cs) (hold : ∀ u ∈ us, u.Plain)
    (hnew : ∀ w ∈ ws, w.Plain) : AlikeAll cs ws ∧ ∀ c ∈ cs, c.Plain :=
  ha.alike_of (fun _ _ _ _ hb => hb.alike) hold hnew

/-! ## 4. Identity and handles -/

theorem sameIdentity_of_detach_eq (h : v'.detach = w.detach) : v'.SameIdentity w := by
  obtain ⟨hkind, htag, hcomponent, hcontent, hkey, _⟩ := fields_of_detach_eq h
  refine ⟨hkind, ?_⟩
  split
  · exact hcontent
  · exact ⟨htag, hcomponent, hkey⟩

/-- **A tree has the identity of the tree that it was to become.** -/
theorem Becomes.same (hb : Becomes k v w v') : v'.SameIdentity w := by
  cases hb with
  | kept hv hw content => exact sameIdentity_of_text hv hw content
  | replaced _ detach _ => exact sameIdentity_of_detach_eq detach
  | stays hv hw compatible => exact ⟨(Diff.compatible_iff.mp compatible).1, by
      rw [if_neg (show (updated v w _).kind ≠ .text from hv)]
      exact (Diff.compatible_iff.mp compatible).2⟩

/-- A tree that was to become one of the same identity keeps its own host node. -/
theorem Becomes.host_eq (hb : Becomes k v w v') (hsame : v.SameIdentity w) : v'.host = v.host := by
  cases hb with
  | kept => rfl
  | replaced different => exact absurd hsame different
  | stays => rfl

theorem AllBecome.same (ha : AllBecome k us ws cs) {j : Nat} {c x : VNode} (hc : cs[j]? = some c)
    (hx : ws[j]? = some x) : c.SameIdentity x := by
  rcases ha.origin hc hx with ⟨_, _, _, _, hb⟩ | ⟨hdetach, _⟩
  · exact hb.same
  · exact sameIdentity_of_detach_eq hdetach

/-- A tree was replaced, or it has kept its host node and its children have become what they are. -/
theorem Becomes.replaced_or_kept (hb : Becomes k v w v') :
    (¬ v.SameIdentity w ∧ v'.detach = w.detach ∧ ∀ m ∈ v'.handles, k ≤ m) ∨
      v.SameIdentity w ∧ v'.host = v.host ∧
        AllBecome k v.shownChildren w.shownChildren v'.shownChildren := by
  rcases hb.outcomes with ⟨hv, hw, hcontent, rfl⟩ | hreplaced | ⟨cs, hv, hw, hc, rfl, ha⟩
  · refine .inr ⟨sameIdentity_of_text hv hw hcontent, rfl, ?_⟩
    rw [shownChildren, shownChildren, if_pos hv, if_pos hw]
    exact ⟨rfl, fun _ hu => absurd (List.mem_of_getElem? hu) List.not_mem_nil,
      fun _ hx => absurd (List.mem_of_getElem? hx) List.not_mem_nil⟩
  · exact .inl hreplaced
  · refine .inr ⟨(sameIdentity_iff_compatible hv).mpr hc, rfl, ?_⟩
    rw [shownChildren_updated hv, shownChildren_of_ne hv, shownChildren_of_ne hw]
    exact ha

/-- **Handles of the outcome are handles of the old tree, or new.** -/
theorem Becomes.mem_handles (hb : Becomes k v w v') {m : Handle} (hm : m ∈ v'.handles) :
    m ∈ v.handles ∨ k ≤ m := by
  induction v using VNode.induction generalizing w v' with
  | h v ih =>
    rcases hb.replaced_or_kept with ⟨_, _, hnew⟩ | ⟨_, hhost, ha⟩
    · exact .inr (hnew m hm)
    · rcases mem_handles_iff.mp hm with hm | ⟨c, hc, hmc⟩
      · exact .inl (mem_handles_iff.mpr (.inl (hhost ▸ hm)))
      · obtain ⟨j, hcj⟩ := List.getElem?_of_mem hc
        obtain ⟨x, hx⟩ := ha.exists_new hcj
        rcases ha.origin hcj hx with ⟨i, u, _, hu, hbu⟩ | ⟨_, hnew⟩
        · have hmem := List.mem_of_getElem? hu
          exact (ih u (mem_children_of_mem_shown hmem) hbu hmc).imp_left fun hmu =>
            mem_handles_iff.mpr (.inr ⟨u, hmem, hmu⟩)
        · exact .inr (hnew m hmc)

end

end Patch

end Trellis
