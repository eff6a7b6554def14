import Trellis.Proofs.Host.InStep
import Trellis.Proofs.Host.Reachable

/-!
# Sessions that go wrong

In a `Session` a tree was mounted, the host has been changed behind its back since, and patches were
applied, some of which may have failed half way. A session is always sound (`Session.sound`), so
patches keep the tree in step with the host (`Tracks`) unless a reordering fails. `applyPatches_tracks_iff`
says when they do then: at the node whose reordering failed nothing may be left of the children that
the tree listed there or that came there meanwhile, for that node is left without children.
-/

namespace Trellis

open VNode Patch

/-! ## 1. Sessions -/

/-- A tree with its host some time after it was mounted. -/
inductive Session : Mounted → Prop
  /-- A tree is mounted in a node that is known. -/
  | mount {ops : List Host.Op} {container : Handle} {tree w : VNode}
      (known : (Host.after ops).knows container = true) (bare : tree.bareTexts = true)
      (run : (Host.mount container tree (Host.after ops)).1 = .ok w) :
      Session ⟨(Host.mount container tree (Host.after ops)).2, w⟩
  /-- The host is changed behind the back of the tree. -/
  | touch {m : Mounted} (op : Host.Op) (session : Session m) :
      Session { m with host := (op.run m.host).2 }
  /-- Patches are applied, whether that ends well or not. -/
  | patch {m : Mounted} (parent : Handle) {patches : List Patch}
      (bare : ∀ w ∈ bringsAll patches, w.bareTexts = true) (session : Session m) :
      Session (applyPatches parent patches m).2

theorem VNode.bareTexts_children {v : VNode} (hv : v.bareTexts = true) (hk : v.kind ≠ .text) :
    ∀ c ∈ v.children, c.bareTexts = true := by
  obtain ⟨kind, tag, component, content, key, attrs, events, children, host⟩ := v
  rwa [bareTexts, if_neg hk, bareTextsAll_iff] at hv

namespace Host

variable {h h' : Host} {container : Handle} {ws : List VNode}

/-- Trees that are made anew hold new handles, all of them distinct. -/
theorem Redone.held_new {p : Option Handle} (hr : Redone h p [] h' ws)
    (hheld : heldAll ws = handlesAll ws) :
    (heldAll ws).Nodup ∧ ∀ q ∈ heldAll ws, h.nodes.size ≤ q ∧ q < h'.nodes.size := by
  rw [hheld]
  exact ⟨hr.nodup, fun q hq => ⟨hr.size_le_of_mem hq, shows_lt_size hr.shows hq⟩⟩

/-- **A mounted tree is sound.** -/
theorem mount_sound (hf : h.Forest) (hknown : h.knows container = true) {tree w : VNode}
    (hbare : tree.bareTexts = true) (hrun : mount container tree h = (.ok w, h')) :
    Mounted.Sound ⟨h', w⟩ := by
  have hf' : h'.Forest := by
    have hforest := keepsForest_mount container tree h hf
    rwa [hrun] at hforest
  obtain ⟨nd, hnd⟩ := Option.isSome_iff_exists.mp hknown
  have hlt : ∀ m ∈ nd.children, m < h.nodes.size := fun m hm =>
    hf.child_lt (children_of_get? hnd ▸ hm)
  by_cases hroot : tree.kind = .root
  · obtain ⟨h₁, ws, hmount, hr, -⟩ := mount_root_spec hroot hnd (hf.around hnd) hlt
    obtain ⟨hw, rfl⟩ := Prod.mk.inj (hrun.symm.trans hmount)
    obtain rfl := Except.ok.inj hw
    rw [mount, if_pos hroot] at hrun
    obtain ⟨ws', h₂, hinto, hrest⟩ := Run.of_bind_ok hrun
    have hws : ws' = ws := congrArg VNode.children (Except.ok.inj (congrArg Prod.fst hrest))
    have hchildren := tree.bareTexts_children hbare (by rw [hroot]; decide)
    obtain ⟨hnodup, hnew⟩ := hr.held_new (hws ▸
      heldAll_of_renderInto (fun c hc _ _ _ _ hc' => held_of_render (hchildren c hc) hc') hinto)
    have hcontainer := lt_size_of_get? hnd
    refine ⟨hf', nodup_held_iff.mpr ⟨hnodup, fun q hq hq' => ?_⟩, fun q hq => ?_⟩
    · obtain rfl := Option.some.inj hq
      exact Nat.not_lt.mpr (hnew _ hq').1 hcontainer
    · rcases mem_held_iff.mp hq with hq | hq
      · obtain rfl := Option.some.inj hq
        exact Nat.lt_of_lt_of_le hcontainer hr.size_le
      · exact (hnew q (mem_heldAll.mpr hq)).2
  · obtain ⟨h₁, w', hmount, hr, -⟩ := mount_spec hroot hnd (hf.around hnd) hlt
    obtain ⟨hw, rfl⟩ := Prod.mk.inj (hrun.symm.trans hmount)
    obtain rfl := Except.ok.inj hw
    rw [mount, if_neg hroot] at hrun
    obtain ⟨⟨n, w'⟩, h₂, hrender, hrest⟩ := Run.of_bind_ok hrun
    obtain ⟨-, h₃, -, hrest⟩ := Run.of_bind_ok hrest
    obtain rfl : w' = w := Except.ok.inj (congrArg Prod.fst hrest)
    have hall : heldAll [w'] = handlesAll [w'] := by
      rw [heldAll, handlesAll, held_of_render hbare hrender]
      rfl
    obtain ⟨hnodup, hnew⟩ := hr.held_new hall
    rw [heldAll, heldAll, List.append_nil] at hnodup hnew
    exact ⟨hf', hnodup, fun q hq => (hnew q hq).2⟩

end Host

/-- **Sessions are sound**, whatever happens in them. -/
theorem Session.sound {m : Mounted} (hm : Session m) : m.Sound := by
  induction hm with
  | mount known bare run =>
    exact Host.mount_sound (Host.forest_after _) known bare (Prod.ext run rfl)
  | touch op _ ih =>
    exact ⟨(op.settles ih.forest).forest ih.forest, ih.nodup,
      fun p hp => Nat.lt_of_lt_of_le (ih.lt p hp) (Host.Op.size_le ih.forest op)⟩
  | patch parent bare _ ih => exact (outcome_applyAll _ parent bare ih).keeps.sound

/-! ## 2. Failures -/

/-- From before to after a change every node of the tree keeps track of what stands below its host
    node: its children are among them, but for what stood there before without being one of them. -/
def Tracks (m m' : Mounted) : Prop :=
  ∀ (u : VNode) (p k : Handle), u.Inside m'.node → u.host = some p → m'.host.parent? k = some p →
    (∃ c ∈ u.children, c.host = some k) ∨ m.host.parent? k = some p ∧ ¬ m.node.Lists p k

/-- **Only a reordering that fails loses track of children.** In a session patches keep track, whether
    they end well or fail, if and only if no reordering fails, or below the node of the one that fails
    nothing stands but what stood there before without being listed. That node is left without
    children. -/
theorem applyPatches_tracks_iff {m : Mounted} (hm : Session m) (parent : Handle)
    {patches : List Patch} (hbare : ∀ w ∈ bringsAll patches, w.bareTexts = true) :
    (Tracks m (applyPatches parent patches m).2 ↔
      ∀ n, failedAll patches parent m = some n →
        ∀ k, (applyPatches parent patches m).2.host.parent? k = some n →
          m.host.parent? k = some n ∧ ¬ m.node.Lists n k) ∧
    ∀ n, failedAll patches parent m = some n →
      (∃ e, (applyPatches parent patches m).1 = .error e) ∧
        ∃ u : VNode, u.Inside (applyPatches parent patches m).2.node ∧ u.host = some n ∧
          u.children = [] := by
  have ho := outcome_applyAll patches parent hbare hm.sound
  rw [← applyPatches] at ho
  refine ⟨⟨fun ht n hn k hk => ?_, fun hleft u p k hu hp hk => ?_⟩, ho.fails⟩
  · obtain ⟨-, u, hu, hhost, hempty⟩ := ho.fails n hn
    refine (ht u n k hu hhost hk).resolve_left fun ⟨c, hc, _⟩ => ?_
    rw [hempty] at hc
    exact List.not_mem_nil hc
  · by_cases hlost : failedAll patches parent m = some p
    · exact .inr (hleft p hlost k hk)
    · rw [← hu.lists_iff ho.keeps.sound.nodup hp]
      exact ho.keeps.listed p k (hu.mem_held hp) hlost hk

/-- For instance, the first of two items has gone from the host, so a third one cannot be put before
    it. The second item still stands in the host, but the tree does not know of it any more. -/
theorem failed_reorder_loses_item :
    let item := fun key : String =>
      { VNode.plain .native "p" with key := key, children := [.ofText key] }
    let mounted := Host.mount Host.root (.root [item "a", item "b"]) Host.empty
    ∃ v, mounted.1 = .ok v ∧
      let before : Mounted := ⟨((Host.Op.remove 0 1).run mounted.2).2, v⟩
      let after := (applyPatches Host.root [.reorder [] [⟨0, .fresh (item "c")⟩]] before).2
      v.Lists 0 3 ∧ after.host.parent? 3 = some 0 ∧ ¬ Tracks before after := by
  intro item mounted
  have hok : mounted.1 = .ok (mounted.1.toOption.getD default) := by
    have hsome : mounted.1.toOption.isSome = true := by decide +kernel
    cases h : mounted.1 with
    | ok v => rfl
    | error e =>
      rw [h] at hsome
      cases hsome
  refine ⟨mounted.1.toOption.getD default, hok, ?_⟩
  intro before after
  have hmounted : Session ⟨mounted.2, mounted.1.toOption.getD default⟩ :=
    @Session.mount [] Host.root (.root [item "a", item "b"]) _ rfl (by decide +kernel) hok
  have hs : Session before := by
    have htouched := hmounted.touch (.remove 0 1)
    exact htouched
  have hlists : before.node.Lists 0 3 := by
    refine (lists_top_iff hs.sound.nodup (by decide +kernel)).mpr ?_
    have hany : (before.node.children.any fun c => c.host == some 3) = true := by decide +kernel
    obtain ⟨c, hc, hk⟩ := List.any_eq_true.mp hany
    exact ⟨c, hc, beq_iff_eq.mp hk⟩
  have hparent : after.host.parent? 3 = some 0 := by decide +kernel
  have hfailed : failedAll [.reorder [] [⟨0, .fresh (item "c")⟩]] Host.root before = some 0 := by
    decide +kernel
  have hbare : ∀ w ∈ bringsAll [.reorder [] [⟨0, .fresh (item "c")⟩]], w.bareTexts = true := by
    decide +kernel
  refine ⟨hlists, hparent, fun ht => ?_⟩
  have htracks := (applyPatches_tracks_iff hs Host.root hbare).1.mp ht
  exact (htracks 0 hfailed 3 hparent).2 hlists

end Trellis
