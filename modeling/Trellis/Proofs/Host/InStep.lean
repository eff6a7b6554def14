import Mathlib.Data.List.Perm.Basic
import Trellis.Proofs.Host.Keeps
import Trellis.Proofs.Host.Update

/-!
# Patches that keep a tree in step

What each patch comes to on a sound tree, whatever stands in the host and whether the patch ends well or
fails half way (`Outcome`). All of them keep the tree in step with the host but one: a reordering
that fails leaves its node without children. `failedAll` is the node at which that happens.

- `quiet_applyAttrs`, `quiet_rebindAll`: nothing comes to stand anywhere,
- `removeAt_inStep`, `insertOne_inStep`: the steps of a reordering keep the node in step, the live list
  being its children, so all of them do (`foldlM_inStep`), up to where one fails,
- `removeSelf_inStep`, `replaceSelf_inStep`: the tree goes or gives way to another one,
- `outcome_applyAll`: whole patches, one after the other and down the tree.
-/

namespace Trellis

/-! ## 1. What patches bring and where they fail -/

namespace Patch

mutual

/-- The trees that a patch brings into the tree. -/
def brings : Patch → List VNode
  | .replace new => [new]
  | .updateChild _ patches => bringsAll patches
  | .reorder _ inserts => inserts.filterMap fun ins =>
    match ins.source with
    | .fresh node => some node
    | .moved _ => none
  | .remove | .setAttrs _ | .rebind _ => []

/-- The trees that patches bring into the tree. -/
def bringsAll : List Patch → List VNode
  | [] => []
  | p :: ps => brings p ++ bringsAll ps

end

mutual

/-- The node whose reordering fails when a patch is carried out. -/
def failedOne : Patch → Handle → Mounted → Option Handle
  | .reorder removes inserts, _, m =>
    match (reorderAll removes inserts m).1 with
    | .error _ => m.node.host
    | .ok _ => none
  | .updateChild i patches, _, m =>
    match m.node.host, m.node.children[i]? with
    | some n, some child => failedAll patches n ⟨m.host, child⟩
    | _, _ => none
  | .remove, _, _ | .replace _, _, _ | .setAttrs _, _, _ | .rebind _, _, _ => none

/-- The node whose reordering fails when patches are carried out one after the other. -/
def failedAll : List Patch → Handle → Mounted → Option Handle
  | [], _, _ => none
  | p :: ps, parent, m =>
    match applyOne p parent m with
    | (.ok _, m') => failedAll ps parent m'
    | (.error _, _) => failedOne p parent m

end

open VNode Host Mounted

/-! ## 2. Attributes and bindings -/

/-- The node keeps its handle and its children, and nothing comes to stand anywhere. -/
structure Stays (m m' : Mounted) : Prop where
  gains : Gains m.host (fun _ _ => False) m'.host
  host : m'.node.host = m.node.host
  children : m'.node.children = m.node.children

/-- A run after which the node stays as it was, whether it ends well or not. -/
def Quiet {α : Type} (act : PatchM α) : Prop := ∀ m : Mounted, m.host.Forest → Stays m (act m).2

section

variable {α β : Type} {parent n : Handle} {h : Host} {v : VNode}

theorem Stays.refl {m : Mounted} (hf : m.host.Forest) : Stays m m := ⟨.refl hf, rfl, rfl⟩

theorem Stays.trans {m m' m'' : Mounted} (a : Stays m m') (b : Stays m' m'') : Stays m m'' where
  gains := (a.gains.trans b.gains).mono fun _ _ hnew => hnew.elim id id
  host := b.host.trans a.host
  children := b.children.trans a.children

theorem Stays.inStep {m' : Mounted} (hs : Sound ⟨h, v⟩) (hv : v.host = some n)
    (a : Stays ⟨h, v⟩ m') : InStep parent ⟨h, v⟩ m' :=
  keeps_same hs hv a.host a.children a.gains fun _ _ hnew => hnew.elim

theorem Quiet.bind {act : PatchM α} {f : α → PatchM β} (hact : Quiet act) (hf : ∀ a, Quiet (f a)) :
    Quiet (act >>= f) := by
  intro m hforest
  have hfirst := hact m hforest
  rw [Run.bind_apply]
  cases e : act m with
  | mk r m₁ =>
    rw [e] at hfirst
    cases r with
    | error err => exact hfirst
    | ok a => exact hfirst.trans (hf a m₁ hfirst.gains.forest)

theorem Quiet.forM {act : α → PatchM Unit} (hact : ∀ a, Quiet (act a)) (as : List α) :
    Quiet (as.forM act) := by
  induction as with
  | nil => exact fun m hf => .refl hf
  | cons a as ih => exact (hact a).bind fun _ => ih

theorem quiet_get : Quiet (get : PatchM Mounted) := fun _ hf => .refl hf

theorem quiet_onHost {act : HostM Unit}
    (hact : ∀ h : Host, h.Forest → Gaining (fun _ _ => False) act h) :
    Quiet (PatchM.onHost act) := fun m hf => ⟨(hact m.host hf).gains hf, rfl, rfl⟩

theorem quiet_onNode (f : VNode → VNode) (hhost : ∀ v, (f v).host = v.host)
    (hchildren : ∀ v, (f v).children = v.children) : Quiet (PatchM.onNode f) :=
  fun m hf => ⟨.refl hf, hhost m.node, hchildren m.node⟩

theorem quiet_handle : Quiet handle := by
  refine quiet_get.bind fun m => fun m' hf => ?_
  rw [VNode.handle]
  cases m.node.host <;> exact .refl hf

/-- **Attributes change quietly.** -/
theorem quiet_applyAttrs (changes : List AttrChange) : Quiet (applyAttrs changes) := by
  refine quiet_handle.bind fun n => Quiet.forM (fun c => ?_) changes
  rw [applyAttr]
  split
  · exact (quiet_onHost fun _ hf => setAttr_gaining hf n _ _).bind fun _ =>
      quiet_onNode _ (fun _ => rfl) fun _ => rfl
  · exact (quiet_onHost fun _ hf => removeAttr_gaining hf n _).bind fun _ =>
      quiet_onNode _ (fun _ => rfl) fun _ => rfl

/-- **Bindings change quietly.** -/
theorem quiet_rebindAll (events : Events) : Quiet (rebindAll events) := by
  refine quiet_handle.bind fun n => quiet_get.bind fun m => ?_
  refine (Quiet.forM (fun b => quiet_onHost fun _ hf => unlisten_gaining hf n b) _).bind fun _ => ?_
  refine (Quiet.forM (fun b => quiet_onHost fun _ hf => listen_gaining hf n b) _).bind fun _ => ?_
  exact quiet_onNode _ (fun _ => rfl) fun _ => rfl

end

/-! ## 3. Reorderings -/

/-- The node with a live list for its children. -/
def withLive (v : VNode) (live : Moves.Live VNode) : VNode := { v with children := trees live }

/-- A run on a live list keeps the node in step, up to where it fails: by then the list has become
    another one. -/
def LiveInStep (parent : Handle) (v : VNode) (live : Moves.Live VNode)
    (act : HostM (Moves.Live VNode)) : Prop :=
  ∀ h : Host, Sound ⟨h, withLive v live⟩ →
    ∃ r h' live', act h = (r, h') ∧ (r = .ok live' ∨ ∃ e, r = .error e) ∧
      InStep parent ⟨h, withLive v live⟩ ⟨h', withLive v live'⟩

section

variable {parent n : Handle} {h : Host} {v : VNode} {live : Moves.Live VNode} {i : Nat}
  {item : Option Nat × VNode}

theorem LiveInStep.pure (live : Moves.Live VNode) :
    LiveInStep parent v live (pure live) :=
  fun h hs => ⟨.ok live, h, live, rfl, .inl rfl, .refl hs⟩

/-- **Steps that keep the node in step do so one after the other.** -/
theorem foldlM_inStep {α : Type} {step : Moves.Live VNode → α → HostM (Moves.Live VNode)}
    {as : List α} (hstep : ∀ a ∈ as, ∀ live, LiveInStep parent v live (step live a))
    (live : Moves.Live VNode) : LiveInStep parent v live (as.foldlM step live) := by
  induction as generalizing live with
  | nil => exact .pure live
  | cons a as ih =>
    intro h hs
    obtain ⟨r, h₁, live₁, hrun, hr, hinStep⟩ := hstep a List.mem_cons_self live h hs
    rw [List.foldlM_cons, Run.bind_apply, hrun]
    rcases hr with rfl | ⟨e, rfl⟩
    · obtain ⟨r, h₂, live₂, hrun₂, hr₂, hinStep₂⟩ :=
        ih (fun b hb => hstep b (List.mem_cons_of_mem _ hb)) live₁ h₁ hinStep.sound
      exact ⟨r, h₂, live₂, hrun₂, hr₂, hinStep.trans hinStep₂⟩
    · exact ⟨.error e, h₁, live₁, rfl, .inr ⟨e, rfl⟩, hinStep⟩

theorem perm_cons_eraseIdx {α : Type} {l : List α} {x : α} (hi : l[i]? = some x) :
    l.Perm (x :: l.eraseIdx i) := by
  obtain ⟨hlt, rfl⟩ := List.getElem?_eq_some_iff.mp hi
  exact (List.getElem_cons_eraseIdx_perm hlt).symm

theorem trees_eraseIdx_perm (hi : live[i]? = some item) :
    (trees live).Perm (item.2 :: trees (live.eraseIdx i)) := (perm_cons_eraseIdx hi).map Prod.snd

theorem trees_putAt_perm (live : Moves.Live VNode) (i : Nat) (item : Option Nat × VNode) :
    (trees (Moves.putAt live i item)).Perm (item.2 :: trees live) := by
  rw [trees_putAt]
  refine List.perm_middle.trans ?_
  rw [trees_take_drop]

theorem handle_none (hv : v.host = none) (h : Host) :
    VNode.handle v h = (.error .detached, h) := by
  rw [VNode.handle, hv]
  rfl

/-- **A removal keeps the node in step**: it changes nothing, or the child has gone. -/
theorem removeAt_inStep (hv : v.host = some n) (i : Nat) (live : Moves.Live VNode) :
    LiveInStep parent v live (removeAt n live i) := by
  intro h hs
  rw [removeAt]
  cases hi : live[i]? with
  | none => exact LiveInStep.pure live h hs
  | some item =>
    obtain ⟨o, c⟩ := item
    have hperm := trees_eraseIdx_perm hi
    show ∃ r h' live', (c.handle >>= fun k => Host.remove n k >>= fun _ =>
      pure (Moves.removeAt live i)) h = (r, h') ∧ _
    cases hc : c.host with
    | none =>
      rw [Run.bind_apply, handle_none hc]
      exact ⟨_, h, live, rfl, .inr ⟨_, rfl⟩, .refl hs⟩
    | some k =>
      rw [Run.bind_ok (handle_apply hc h), Run.bind_apply]
      rcases hs.forest.remove_gains n k with ⟨e, hrun⟩ | ⟨h', hrun, hg, hgone⟩
      · rw [hrun]
        exact ⟨_, h, live, rfl, .inr ⟨e, rfl⟩, .refl hs⟩
      · rw [hrun]
        refine ⟨_, h', live.eraseIdx i, rfl, .inl rfl,
          keeps_children hs hv hv (hg.mono fun _ _ hnew => hnew.elim) ?_ (fun d hd => .inl ?_) ?_⟩
        · exact ((nodup_heldAll_cons hperm).mp (nodup_held_iff.mp hs.nodup).1).2.1
        · exact hperm.mem_iff.mpr (List.mem_cons_of_mem _ hd)
        · -- only the child that was removed is not there any more
          intro d hd hd' k' hk'
          obtain rfl := (List.mem_cons.mp (hperm.mem_iff.mp hd)).resolve_right hd'
          obtain rfl := Option.some.inj (hc.symm.trans hk')
          rw [hgone]
          exact (Option.some_ne_none n).symm

/-- An insertion changes nothing, or its node alone comes to stand below the parent. -/
theorem putAt_cases (hf : h.Forest) (live : Moves.Live VNode) (i : Nat)
    (item : Option Nat × VNode) :
    (∃ e, putAt n live i item h = (.error e, h)) ∨
      ∃ k h', item.2.host = some k ∧ putAt n live i item h = (.ok (Moves.putAt live i item), h') ∧
        Gains h (fun q k' => q = n ∧ k' = k) h' := by
  have hput : putAt n live i item = (item.2.handle >>= fun k => Host.insertBefore n k
      (live[min i live.length]?.bind fun p => p.2.host) >>= fun _ =>
        pure (Moves.putAt live i item)) := rfl
  rw [hput]
  cases hk : item.2.host with
  | none => exact .inl ⟨_, by rw [Run.bind_apply, handle_none hk]⟩
  | some k =>
    rw [Run.bind_ok (handle_apply hk h), Run.bind_apply]
    rcases hf.insertBefore_gaining n k (live[min i live.length]?.bind fun p => p.2.host) with
      ⟨e, hrun⟩ | ⟨h', hrun, hg⟩
    · exact .inl ⟨e, by rw [hrun]⟩
    · exact .inr ⟨k, h', rfl, by rw [hrun]; rfl, hg⟩

/-- **A child that is moved stays in step**: the children are the same as before. -/
theorem putAt_moved_inStep (hv : v.host = some n) {j : Nat} (hj : live[j]? = some item) (i : Nat) :
    LiveInStep parent v live (putAt n (live.eraseIdx j) i item) := by
  intro h hs
  rcases putAt_cases hs.forest (live.eraseIdx j) i item with ⟨e, hrun⟩ | ⟨k, h', hk, hrun, hg⟩
  · exact ⟨_, h, live, hrun, .inr ⟨e, rfl⟩, .refl hs⟩
  · have hperm : (trees (Moves.putAt (live.eraseIdx j) i item)).Perm (trees live) :=
      (trees_putAt_perm _ i item).trans (trees_eraseIdx_perm hj).symm
    have hitem : item.2 ∈ trees live := List.mem_map_of_mem (List.mem_of_getElem? hj)
    refine ⟨_, h', _, hrun, .inl rfl, keeps_children hs hv hv (hg.mono fun q k' hnew => .inl ?_) ?_
      (fun d hd => .inl (hperm.mem_iff.mp hd)) fun d hd hd' => absurd (hperm.mem_iff.mpr hd) hd'⟩
    · exact ⟨hnew.1, item.2, hperm.mem_iff.mpr hitem, hnew.2 ▸ hk⟩
    · exact (heldAll_perm hperm).nodup_iff.mpr (nodup_held_iff.mp hs.nodup).1

/-- **A fresh child comes in step**, or nothing of it stands below the tree. -/
theorem putAt_fresh_inStep (hv : v.host = some n) {h₁ : Host} {w : VNode}
    (hs : Sound ⟨h, withLive v live⟩) (hfresh : Fresh h h₁ w) (i : Nat) :
    ∃ r h' live', putAt n live i (none, w) h₁ = (r, h') ∧ (r = .ok live' ∨ ∃ e, r = .error e) ∧
      InStep parent ⟨h, withLive v live⟩ ⟨h', withLive v live'⟩ := by
  have hold : ∀ {q}, q ∈ heldAll (trees live) → q < h.nodes.size := fun hq =>
    hs.lt _ (mem_held_iff.mpr (.inr (mem_heldAll.mp hq)))
  rcases putAt_cases hfresh.gains.forest live i (none, w) with
    ⟨e, hrun⟩ | ⟨k, h', hk, hrun, hg⟩
  · exact ⟨_, h₁, live, hrun, .inr ⟨e, rfl⟩, keeps_same hs hv rfl rfl hfresh.gains fun _ _ hnew => hnew.1⟩
  · have hperm := trees_putAt_perm live i (none, w)
    have hw : w ∈ trees (Moves.putAt live i (none, w)) := hperm.mem_iff.mpr List.mem_cons_self
    refine ⟨_, h', _, hrun, .inl rfl, keeps_children hs hv hv
      ((hfresh.gains.trans hg).mono fun q k' hnew => ?_) ?_ (fun d hd => ?_) fun d hd hd' => ?_⟩
    · rcases hnew with ⟨hge, hlists⟩ | ⟨hq, hk'⟩
      · refine .inr ⟨hge, fun hmem => ⟨w, hw, hlists ?_⟩⟩
        exact ((mem_heldAll_cons hperm).mp hmem).resolve_right fun hq => Nat.not_lt.mpr hge (hold hq)
      · exact .inl ⟨hq, w, hw, hk' ▸ hk⟩
    · exact (nodup_heldAll_cons hperm).mpr ⟨hfresh.nodup, (nodup_held_iff.mp hs.nodup).1,
        fun q hq hq' => Nat.not_lt.mpr (hfresh.new q hq).1 (hold hq')⟩
    · rcases List.mem_cons.mp (hperm.mem_iff.mp hd) with rfl | hd
      · exact .inr fun q hq =>
          ⟨(hfresh.new q hq).1, Nat.lt_of_lt_of_le (hfresh.new q hq).2 hg.size_le⟩
      · exact .inl hd
    · exact absurd (hperm.mem_iff.mpr (List.mem_cons_of_mem _ hd)) hd'

/-- **An insertion keeps the node in step.** -/
theorem insertOne_inStep (hv : v.host = some n) (ins : Insertion)
    (hbare : ∀ w, ins.source = .fresh w → w.bareTexts = true) (live : Moves.Live VNode) :
    LiveInStep parent v live (insertOne n live ins) := by
  obtain ⟨index, source⟩ := ins
  cases source with
  | fresh node =>
    intro h hs
    obtain ⟨h₁, w, hrender, hfresh⟩ := render_fresh (hbare node rfl) hs.forest
    show ∃ r h' live', (render node >>= fun p => putAt n live index (none, p.2)) h = (r, h') ∧ _
    rw [Run.bind_ok hrender]
    exact putAt_fresh_inStep hv hs hfresh index
  | moved old =>
    cases hfind : Moves.find? live old with
    | none =>
      simp only [insertOne, hfind]
      exact .pure live
    | some j =>
      cases hj : live[j]? with
      | none =>
        simp only [insertOne, hfind, hj]
        exact .pure live
      | some item =>
        simp only [insertOne, hfind, hj]
        exact putAt_moved_inStep hv hj index

/-- **A reordering keeps the node in step when it ends well.** One that fails leaves the node without
    children, whatever still stands below it in the host. -/
theorem reorderAll_cases (removes : List Nat) (inserts : List Insertion)
    (hbare : ∀ w ∈ (Patch.reorder removes inserts).brings, w.bareTexts = true)
    (hs : Sound ⟨h, v⟩) (hv : v.host = some n) :
    (∃ m', reorderAll removes inserts ⟨h, v⟩ = (.ok (), m') ∧ InStep parent ⟨h, v⟩ m') ∨
      ∃ e m', reorderAll removes inserts ⟨h, v⟩ = (.error e, m') ∧
        Keeps parent (· = n) ⟨h, v⟩ m' ∧ m'.node.host = some n ∧ m'.node.children = [] := by
  have hstart : withLive v (Moves.start v.children) = v := by
    rw [withLive, trees_start]
    cases v
    rfl
  have hs₀ : Sound ⟨h, withLive v (Moves.start v.children)⟩ := hstart.symm ▸ hs
  have hinsert : ∀ ins ∈ inserts, ∀ live, LiveInStep parent v live (insertOne n live ins) := by
    refine fun ins hins => insertOne_inStep hv ins fun w hw => hbare w ?_
    rw [brings]
    exact List.mem_filterMap.mpr ⟨ins, hins, by rw [hw]⟩
  -- where a step fails, the node is left behind without the live list
  have hfails : ∀ {h' : Host} {live : Moves.Live VNode},
      InStep parent ⟨h, withLive v (Moves.start v.children)⟩ ⟨h', withLive v live⟩ →
      Keeps parent (· = n) ⟨h, v⟩ ⟨h', { v with children := [] }⟩ := by
    intro h' live hinStep
    rw [hstart] at hinStep
    exact hinStep.trans (keeps_emptied hinStep.sound hv)
  have hrun : reorderAll removes inserts ⟨h, v⟩ =
      (PatchM.onHost (removes.foldlM (removeAt n) (Moves.start v.children)) >>= fun live =>
        PatchM.onHost (inserts.foldlM (insertOne n) live) >>= fun live =>
          PatchM.onNode fun node => { node with children := live.map Prod.snd })
        ⟨h, { v with children := [] }⟩ := by
    rw [reorderAll, Run.bind_ok (patchHandle_apply hv h), Run.bind_ok (Run.get_apply _),
      Run.bind_ok (onNode_apply _ _)]
  have hremove : ∀ i ∈ removes, ∀ live, LiveInStep parent v live (removeAt n live i) :=
    fun i _ => removeAt_inStep hv i
  obtain ⟨r₁, h₁, live₁, hrun₁, hr₁, hinStep₁⟩ := foldlM_inStep hremove _ h hs₀
  rw [hrun, Run.bind_apply, onHost_apply hrun₁]
  rcases hr₁ with rfl | ⟨e, rfl⟩
  · obtain ⟨r₂, h₂, live₂, hrun₂, hr₂, hinStep₂⟩ :=
      foldlM_inStep hinsert live₁ h₁ hinStep₁.sound
    have hinStep := hinStep₁.trans hinStep₂
    dsimp only
    rw [Run.bind_apply, onHost_apply hrun₂]
    rcases hr₂ with rfl | ⟨e, rfl⟩
    · exact .inl ⟨_, rfl, hstart ▸ hinStep⟩
    · exact .inr ⟨e, _, rfl, hfails hinStep, hv, rfl⟩
  · exact .inr ⟨e, _, rfl, hfails hinStep₁, hv, rfl⟩

end

/-! ## 4. Whole patches -/

section

variable {parent n : Handle} {h : Host} {v : VNode}

theorem handle_fails {α : Type} (hv : v.host = none) (f : Handle → PatchM α) (h : Host) :
    (handle >>= f) ⟨h, v⟩ = (.error .detached, ⟨h, v⟩) := by
  have hhandle : handle ⟨h, v⟩ = (.error .detached, ⟨h, v⟩) := by
    rw [handle, Run.bind_ok (Run.get_apply _)]
    exact onHost_apply (handle_none hv h) v
  rw [Run.bind_apply, hhandle]

/-- Without hosts there are no handles. -/
theorem held_detach (v : VNode) : v.detach.held = [] := by
  induction v using VNode.induction with
  | h v ih =>
    obtain ⟨kind, tag, component, content, key, attrs, events, children, host⟩ := v
    rw [detach, held_eq, detachAll_eq_map]
    show [] ++ heldAll (children.map detach) = []
    rw [heldAll_eq_flatMap, List.flatMap_map]
    exact List.flatMap_eq_nil_iff.mpr ih

/-- **A node that is taken away** leaves a tree behind that stands nowhere. -/
theorem removeSelf_inStep (parent : Handle) (hs : Sound ⟨h, v⟩) :
    InStep parent ⟨h, v⟩ (removeSelf parent ⟨h, v⟩).2 := by
  cases hv : v.host with
  | none =>
    rw [removeSelf, handle_fails hv]
    exact .refl hs
  | some n =>
    rw [removeSelf, Run.bind_ok (patchHandle_apply hv h), Run.bind_apply]
    rcases hs.forest.remove_gains parent n with ⟨e, hrun⟩ | ⟨h', hrun, hg, hgone⟩
    · rw [onHost_apply hrun]
      exact .refl hs
    · rw [onHost_apply hrun]
      dsimp only
      rw [onNode_apply]
      refine keeps_replaced hg ?_ (fun q hq => ?_) (fun _ _ hnew => hnew.elim) (fun k hk => ?_) hs.forest
      · rw [held_detach]
        exact .nil
      · rw [held_detach] at hq
        exact absurd hq List.not_mem_nil
      · obtain rfl := Option.some.inj (hv.symm.trans hk)
        rw [hgone]
        exact (Option.some_ne_none parent).symm

/-- **A fresh tree takes the place of the node**, or the node stays where it is. -/
theorem replaceSelf_inStep (parent : Handle) {new : VNode} (hbare : new.bareTexts = true)
    (hs : Sound ⟨h, v⟩) : InStep parent ⟨h, v⟩ (replaceSelf parent new ⟨h, v⟩).2 := by
  cases hv : v.host with
  | none =>
    rw [replaceSelf, handle_fails hv]
    exact .refl hs
  | some old =>
    obtain ⟨h₁, w, hrender, hfresh⟩ := render_fresh hbare hs.forest
    rw [replaceSelf, Run.bind_ok (patchHandle_apply hv h), Run.bind_ok (onHost_apply hrender v)]
    dsimp only
    rw [Run.bind_apply]
    rcases hfresh.gains.forest.replace_gains parent h.nodes.size old with
      ⟨e, hrun⟩ | ⟨h', hrun, hpar, hg, hgone⟩
    · rw [onHost_apply hrun]
      exact keeps_same hs hv rfl rfl hfresh.gains fun _ _ hnew => hnew.1
    · rw [onHost_apply hrun]
      dsimp only
      rw [onNode_apply]
      -- the old node is not new, so its parent is not new either
      have hparent : parent < h.nodes.size := by
        rw [parent?, hfresh.old old (hs.top_lt hv)] at hpar
        exact hs.forest.parent_lt hpar
      refine keeps_replaced (hfresh.gains.trans hg) hfresh.nodup (fun q hq => ?_)
        (fun q k hnew => ?_) (fun k hk => ?_) hs.forest
      · exact ⟨(hfresh.new q hq).1, Nat.lt_of_lt_of_le (hfresh.new q hq).2 hg.size_le⟩
      · rcases hnew with hnew | ⟨rfl, rfl⟩
        · exact .inr hnew
        · exact .inl ⟨rfl, hfresh.host, hparent⟩
      · obtain rfl := Option.some.inj (hv.symm.trans hk)
        rw [hgone]
        exact (Option.some_ne_none parent).symm

/-- What a run of patches comes to, when the reordering of a node fails or of none. -/
structure Outcome (parent : Handle) (failed : Option Handle) (m : Mounted)
    (r : Except HostError Unit × Mounted) : Prop where
  keeps : Keeps parent (failed = some ·) m r.2
  fails : ∀ n, failed = some n → (∃ e, r.1 = .error e) ∧
    ∃ u : VNode, u.Inside r.2.node ∧ u.host = some n ∧ u.children = []

theorem Outcome.of_inStep {m : Mounted} {r : Except HostError Unit × Mounted}
    (hinStep : InStep parent m r.2) : Outcome parent none m r :=
  ⟨hinStep.mono fun _ hlost => hlost.elim, nofun⟩

/-- A patch at the node itself that moves nothing. -/
theorem outcome_quiet {f : Handle → PatchM Unit} (hact : Quiet (handle >>= f)) (hs : Sound ⟨h, v⟩) :
    Outcome parent none ⟨h, v⟩ ((handle >>= f) ⟨h, v⟩) := by
  refine .of_inStep ?_
  cases hv : v.host with
  | none =>
    rw [handle_fails hv]
    exact .refl hs
  | some n => exact (hact ⟨h, v⟩ hs.forest).inStep hs hv

theorem outcome_reorder (removes : List Nat) (inserts : List Insertion) (parent : Handle)
    (hbare : ∀ w ∈ (Patch.reorder removes inserts).brings, w.bareTexts = true)
    (hs : Sound ⟨h, v⟩) :
    Outcome parent (failedOne (.reorder removes inserts) parent ⟨h, v⟩) ⟨h, v⟩
      (applyOne (.reorder removes inserts) parent ⟨h, v⟩) := by
  rw [applyOne, failedOne]
  cases hv : v.host with
  | none =>
    rw [reorderAll, handle_fails hv]
    exact .of_inStep (.refl hs)
  | some n =>
    rcases reorderAll_cases removes inserts hbare hs hv with
      ⟨m', hrun, hinStep⟩ | ⟨e, m', hrun, hkeeps, hhost, hchildren⟩
    · rw [hrun]
      exact .of_inStep hinStep
    · rw [hrun]
      refine ⟨hkeeps.mono fun q hq => congrArg some hq.symm, fun k hk => ?_⟩
      obtain rfl := Option.some.inj hk
      exact ⟨⟨e, rfl⟩, m'.node, .here _, hhost, hchildren⟩

/-- Patches for a child do to its parent what they do to the child. -/
theorem outcome_updateChild {patches : List Patch} (parent : Handle) (hs : Sound ⟨h, v⟩) (i : Nat)
    (hchild : ∀ {n : Handle} {c : VNode}, v.host = some n → v.children[i]? = some c →
      Outcome n (failedAll patches n ⟨h, c⟩) ⟨h, c⟩ (applyAll patches n ⟨h, c⟩)) :
    Outcome parent (failedOne (.updateChild i patches) parent ⟨h, v⟩) ⟨h, v⟩
      (applyOne (.updateChild i patches) parent ⟨h, v⟩) := by
  rw [applyOne, failedOne]
  cases hv : v.host with
  | none =>
    rw [handle_fails hv]
    exact .of_inStep (.refl hs)
  | some n =>
    rw [Run.bind_ok (patchHandle_apply hv h)]
    cases hc : v.children[i]? with
    | none =>
      refine .of_inStep ?_
      simp only [PatchM.onChild, hc]
      exact .refl hs
    | some c =>
      have ho := hchild hv hc
      cases hrun : applyAll patches n ⟨h, c⟩ with
      | mk r m' =>
        rw [hrun] at ho
        rw [onChild_apply hc hrun]
        have hlt := (List.getElem?_eq_some_iff.mp hc).1
        have hch' : (v.children.set i m'.node).Perm (m'.node :: v.children.eraseIdx i) :=
          List.set_perm_cons_eraseIdx hlt m'.node
        refine ⟨ho.keeps.child hs hv rfl (perm_cons_eraseIdx hc) hch', fun k hk => ?_⟩
        obtain ⟨herror, u, hu, hhost, hempty⟩ := ho.fails k hk
        exact ⟨herror, u, .deeper (hch'.mem_iff.mpr List.mem_cons_self) hu, hhost, hempty⟩

mutual

/-- **One patch keeps a sound tree in step**, but for the node whose reordering fails. -/
theorem outcome_applyOne : ∀ (p : Patch) (parent : Handle) {h : Host} {v : VNode},
    (∀ w ∈ p.brings, w.bareTexts = true) → Sound ⟨h, v⟩ →
    Outcome parent (failedOne p parent ⟨h, v⟩) ⟨h, v⟩ (applyOne p parent ⟨h, v⟩)
  | .remove, parent, _, _, _, hs => .of_inStep (removeSelf_inStep parent hs)
  | .replace _, parent, _, _, hbare, hs =>
    .of_inStep (replaceSelf_inStep parent (hbare _ List.mem_cons_self) hs)
  | .setAttrs changes, _, _, _, _, hs => outcome_quiet (quiet_applyAttrs changes) hs
  | .rebind events, _, _, _, _, hs => outcome_quiet (quiet_rebindAll events) hs
  | .updateChild i patches, parent, _, _, hbare, hs =>
    outcome_updateChild parent hs i fun _ hc =>
      outcome_applyAll patches _ hbare (hs.child (List.mem_of_getElem? hc))
  | .reorder removes inserts, parent, _, _, hbare, hs =>
    outcome_reorder removes inserts parent hbare hs

/-- **Patches keep a sound tree in step one after the other.** -/
theorem outcome_applyAll : ∀ (ps : List Patch) (parent : Handle) {h : Host} {v : VNode},
    (∀ w ∈ bringsAll ps, w.bareTexts = true) → Sound ⟨h, v⟩ →
    Outcome parent (failedAll ps parent ⟨h, v⟩) ⟨h, v⟩ (applyAll ps parent ⟨h, v⟩)
  | [], _, _, _, _, hs => .of_inStep (.refl hs)
  | p :: ps, parent, h, v, hbare, hs => by
    rw [bringsAll, List.forall_mem_append] at hbare
    have hfirst := outcome_applyOne p parent hbare.1 hs
    rw [applyAll, failedAll, Run.bind_apply]
    cases hrun : applyOne p parent ⟨h, v⟩ with
    | mk r m' =>
      rw [hrun] at hfirst
      cases r with
      | error e => exact hfirst
      | ok _ =>
        -- a patch that ends well loses no node
        have hinStep : InStep parent ⟨h, v⟩ m' := hfirst.keeps.mono fun q hq => by
          obtain ⟨⟨e, he⟩, -⟩ := hfirst.fails q hq
          cases he
        have hrest := outcome_applyAll ps parent hbare.2 hinStep.sound
        exact ⟨hinStep.trans hrest.keeps, hrest.fails⟩

end

end

end Patch

end Trellis
