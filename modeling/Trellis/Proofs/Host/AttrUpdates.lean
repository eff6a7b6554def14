import Trellis.Proofs.Host.Reachable
import Trellis.Proofs.Host.Update
import Trellis.Proofs.Tree.AttrRun

/-!
# Attributes of a node that is updated again and again

An element that was mounted is updated to one list of attributes after the other. What becomes of the
list it keeps and of the one its host node has is `Attrs.carried` (`updateAll_spec`), so the run
leaves every value right exactly when it is steady for every name (`Attrs.Steady`).
-/

namespace Trellis

namespace Patch

open VNode Host

/-! ## 1. Runs of updates -/

/-- Updates a node to trees, one after the other; a failure ends the run. -/
def updateAll (parent : Handle) : List VNode → PatchM Unit
  | [] => pure ()
  | w :: ws => do
    applyAll (diff (← get).node w) parent
    updateAll parent ws

/-- A node stands for the tree it was last updated to, but for its attributes. -/
structure Follows (v w : VNode) : Prop where
  compatible : Diff.compatible v w = true
  events : v.events = w.events
  children : AlikeAll v.children w.children
  plain : ∀ c ∈ v.children, c.Plain
  plain' : ∀ c ∈ w.children, c.Plain

section

variable {h : Host} {O : Handle → Prop} {n : Handle} {nd : HostNode} {v : VNode}

/-- What is left to do for a node that follows a tree is to change attributes. -/
theorem diff_eq_nil_iff {w : VNode} (hf : Follows v w) (hv : v.kind ≠ .text) :
    diff v w = [] ↔ ∀ name, Value.sameOption (Attrs.last? v.attrs name) (Attrs.last? w.attrs name) := by
  have hw : w.kind ≠ .text := (Diff.compatible_iff.mp hf.compatible).1 ▸ hv
  rw [← Diff.changes_eq_nil_iff]
  refine Diff.tree_eq_nil_iff hv hw hf.compatible hf.events (map_key_of_alikeAll hf.children) ?_
  intro k a b ha hb
  exact Diff.tree_eq_nil_of_alike ((alikeAll_iff.mp hf.children).2 k a b ha hb)
    (hf.plain a (List.mem_of_getElem? ha)) (hf.plain' b (List.mem_of_getElem? hb))

/-- **A run of updates ends well**; the attributes of the node and of its host node are carried along,
    in all else the node follows the last tree. -/
theorem updateAll_spec {w : VNode} {ws : List VNode} (hf : Follows v w) (hvt : v.kind ≠ .text)
    (hc : ∀ w' ∈ ws, Diff.compatible v w' = true) (hplain : ∀ w' ∈ ws, ∀ c ∈ w'.children, c.Plain)
    (hv : v.host = some n) (hh : Hangs h O n nd v.children) (parent : Handle) :
    ∃ h' v' nd', updateAll parent ws ⟨h, v⟩ = (.ok (), ⟨h', v'⟩) ∧ v'.host = some n ∧
      h'.get? n = some nd' ∧ v'.kind = v.kind ∧ Follows v' (ws.getLastD w) ∧
      (v'.attrs, nd'.attrs) = Attrs.carried v.attrs nd.attrs (ws.map VNode.attrs) := by
  induction ws generalizing h nd v w with
  | nil => exact ⟨h, v, nd, rfl, hv, hh.node, rfl, hf, rfl⟩
  | cons u ws ih =>
    have hcu := hc u List.mem_cons_self
    have hpu := hplain u List.mem_cons_self
    have hut : u.kind ≠ .text := (Diff.compatible_iff.mp hcu).1 ▸ hvt
    obtain ⟨h₁, cs, hrun₁, hredone, hn₁, hall⟩ := node_spec (fun c _ => updates c) hvt hut hcu hv hh
      parent
    obtain ⟨halike, hcs⟩ := hall hf.plain hpu
    obtain ⟨h₂, v', nd', hrun₂, hv', hn₂, hkind, hf', hattrs⟩ :=
      @ih h₁ _ (updated v u cs) u ⟨hcu, rfl, halike, hcs, hpu⟩ hvt
        (fun w' hw' => hc w' (List.mem_cons_of_mem _ hw'))
        (fun w' hw' => hplain w' (List.mem_cons_of_mem _ hw')) hv (hh.redone hredone hn₁ rfl rfl)
    refine ⟨h₂, v', nd', ?_, hv', hn₂, hkind, ?_, hattrs⟩
    · rw [updateAll, Run.bind_ok (Run.get_apply _)]
      exact (Run.bind_ok hrun₁).trans hrun₂
    · rwa [List.getLastD_cons]

/-! ## 2. From mounting on -/

/-- A tree that was mounted has its own attributes, and setting them one after the other made those of
    its host node. -/
theorem mount_hangs (ops : List Host.Op) {container : Handle} {nd : HostNode}
    (hcontainer : (Host.after ops).get? container = some nd) {v : VNode} (hroot : v.kind ≠ .root)
    (htext : v.kind ≠ .text) :
    ∃ h O w nw, Host.mount container v (Host.after ops) = (.ok w, h) ∧ w.detach = v.detach ∧
      w.host = some w.top ∧ Hangs h O w.top nw w.children ∧ nw.attrs = Attrs.settled v.attrs := by
  have ho := Host.around_after ops hcontainer
  obtain ⟨h, w, hrun, hredone, hdetach, _, ho', nw, hnw, hattrs⟩ := Host.mount_spec hroot hcontainer ho
    fun c hc => (Host.forest_after ops).child_lt (Host.children_of_get? hcontainer ▸ hc)
  have hs : Shows h (some container) w := hredone.shows w List.mem_cons_self
  have hkind : w.kind ≠ .text := (fields_of_detach_eq hdetach).1 ▸ htext
  have hall : handlesAll [w] = w.handles := List.append_nil _
  have hnodup : w.handles.Nodup := hall ▸ hredone.nodup
  have hapart : ∀ m ∈ w.handles, m ∉ (Host.after ops).path container :=
    fun m hm hm' => Nat.not_lt.mpr (hredone.size_le_of_mem (hall.symm ▸ hm)) (ho.taken hm')
  obtain ⟨nc, hh, _⟩ := hangs_top hs ho' hapart hnodup hkind
  obtain rfl := Option.some.inj (hh.node.symm.trans hnw)
  rw [shownAttrs, if_neg htext] at hattrs
  exact ⟨h, _, w, _, hrun, hdetach, hs.host_eq, hh, hattrs⟩

/-- A tree follows the one it was mounted from. -/
theorem follows_of_detach {w : VNode} (h : w.detach = v.detach) (hv : ∀ c ∈ v.children, c.Plain) :
    Follows w v := by
  obtain ⟨hkind, htag, hcomponent, _, hkey, _, hevents, hchildren⟩ := fields_of_detach_eq h
  exact ⟨Diff.compatible_iff.mpr ⟨hkind, htag, hcomponent, hkey⟩, hevents,
    alikeAll_of_map_detach hchildren, plain_of_map_detach hchildren hv, hv⟩

end

/-- **When attributes are right after a run of updates.** An element is mounted and updated to trees
    that differ from it in attributes, bindings and children. Its host node then has for every name
    the last value of the last tree, and there is nothing left to update, exactly when the run is
    steady for every name. -/
theorem attrs_right_iff (ops : List Host.Op) {container : Handle}
    (hcontainer : (Host.after ops).knows container = true) {v : VNode} {ws : List VNode}
    (hroot : v.kind ≠ .root) (htext : v.kind ≠ .text)
    (hc : ∀ w ∈ ws, Diff.compatible v w = true)
    (hplain : ∀ w ∈ v :: ws, ∀ c ∈ w.children, c.Plain) (parent : Handle) :
    ∃ h₁ h₂ v₁ v₂ n, Host.mount container v (Host.after ops) = (.ok v₁, h₁) ∧
      updateAll parent ws ⟨h₁, v₁⟩ = (.ok (), ⟨h₂, v₂⟩) ∧ v₂.host = some n ∧
      ((∀ name, Value.sameOption (h₂.attr? n name) (Attrs.last? (ws.getLastD v).attrs name)) ∧
          diff v₂ (ws.getLastD v) = [] ↔
        ∀ name, Attrs.Steady v.attrs (ws.map VNode.attrs) name) := by
  obtain ⟨nd, hnd⟩ := Option.isSome_iff_exists.mp hcontainer
  obtain ⟨h₁, O, v₁, nw, hmount, hdetach, hv₁, hh, hsettled⟩ := mount_hangs ops hnd hroot htext
  obtain ⟨hkind, htag, hcomponent, _, hkey, hattrs, _⟩ := fields_of_detach_eq hdetach
  have hf := follows_of_detach hdetach (hplain v List.mem_cons_self)
  have hc₁ : ∀ w ∈ ws, Diff.compatible v₁ w = true := by
    intro w hw
    have := Diff.compatible_iff.mp (hc w hw)
    rw [← hkind, ← htag, ← hcomponent, ← hkey] at this
    exact Diff.compatible_iff.mpr this
  obtain ⟨h₂, v₂, nd₂, hrun, hv₂, hn₂, hkind₂, hf₂, hcarried⟩ := updateAll_spec hf (hkind ▸ htext) hc₁
    (fun w hw => hplain w (List.mem_cons_of_mem _ hw)) hv₁ hh parent
  refine ⟨h₁, h₂, v₁, v₂, v₁.top, hmount, hrun, hv₂, ?_⟩
  rw [hsettled, hattrs] at hcarried
  have hlast : (ws.getLastD v).attrs = (ws.map VNode.attrs).getLastD v.attrs := by
    rw [List.getLastD_eq_getLast?, List.getLastD_eq_getLast?, List.getLast?_map]
    cases ws.getLast? <;> rfl
  have hhost : ∀ name, h₂.attr? v₁.top name = Attrs.get? nd₂.attrs name := by
    intro name
    rw [Host.attr?, hn₂, Option.bind_some]
  rw [diff_eq_nil_iff hf₂ (hkind₂ ▸ hkind ▸ htext), ← forall_and]
  refine forall_congr' fun name => ?_
  rw [← Attrs.carried_right_iff, ← hcarried, hlast, hhost]
  exact Iff.rfl

/-- For instance, a repeated name that changes and changes back: the first value is set, the last one
    is what differences are read off. -/
theorem attrs_wrong_when_repeated :
    let element := fun values : List String =>
      { VNode.plain .native "p" with attrs := values.map fun s => ⟨"x", .string s⟩ }
    ∃ h₁ h₂ v₁ v₂ n, Host.mount Host.root (element ["1", "2"]) Host.empty = (.ok v₁, h₁) ∧
      updateAll Host.root [element ["1", "3"], element ["1", "2"]] ⟨h₁, v₁⟩ = (.ok (), ⟨h₂, v₂⟩) ∧
      v₂.host = some n ∧
      ¬ ((∀ name, Value.sameOption (h₂.attr? n name) (Attrs.last? (element ["1", "2"]).attrs name)) ∧
        diff v₂ (element ["1", "2"]) = []) := by
  intro element
  have hsteady : ¬ Attrs.Steady [⟨"x", .string "1"⟩, ⟨"x", .string "2"⟩]
      [[⟨"x", .string "1"⟩, ⟨"x", .string "3"⟩], [⟨"x", .string "1"⟩, ⟨"x", .string "2"⟩]] "x" := by
    rintro (hle | ⟨next, hmem, hnone⟩ | hall)
    · exact absurd hle (by decide)
    · simp only [List.mem_cons, List.not_mem_nil, or_false] at hmem
      rcases hmem with rfl | rfl <;> cases hnone
    · have hsame : Value.same (.string "3") (.string "2") = true := hall _ List.mem_cons_self
      exact absurd hsame (by decide)
  have hplain : ∀ w ∈ [element ["1", "2"], element ["1", "3"], element ["1", "2"]],
      ∀ c ∈ w.children, c.Plain := by
    intro w hw c hc
    have hnil : w.children = [] := by
      simp only [List.mem_cons, List.not_mem_nil, or_false] at hw
      rcases hw with rfl | rfl | rfl <;> rfl
    exact absurd (hnil ▸ hc) List.not_mem_nil
  obtain ⟨h₁, h₂, v₁, v₂, n, hmount, hrun, hv₂, hiff⟩ :=
    @attrs_right_iff [] Host.root rfl (element ["1", "2"]) [element ["1", "3"], element ["1", "2"]]
      (by decide) (by decide) (by decide) hplain Host.root
  exact ⟨h₁, h₂, v₁, v₂, n, hmount, hrun, hv₂, fun h => hsteady (hiff.mp h "x")⟩

end Patch

end Trellis
