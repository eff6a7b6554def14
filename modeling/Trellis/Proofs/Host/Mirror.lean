import Trellis.Proofs.Host.Reachable
import Trellis.Proofs.Host.Update

/-!
# Difference and patch

A tree that is mounted in an empty container and patched by its difference to another one becomes
alike it and mirrors the host (`Host.MirroredTop`), and the host holds nothing besides.

The container stands for the top of a tree, so the tops must not replace each other: they have to
agree in tag, component and key. And a text keeps what it carries besides its content.
-/

namespace Trellis

open VNode

/-! ## 1. Mirrors -/

/-- A node below the top mirrors the host: it has a live handle, and the host node behind it has the
    right tag or text, attributes, listeners and children. -/
inductive Host.Mirrored (h : Host) : VNode → Prop
  | mk {v : VNode} {n : Handle} {nd : HostNode} (host : v.host = some n) (node : h.get? n = some nd)
      (content : nd.content = Host.contentOf v.kind v.tag v.content) (attrs : nd.attrs = v.attrs)
      (listeners : nd.listeners = Events.all v.events)
      (children : nd.children.map some = v.children.map VNode.host)
      (below : ∀ c ∈ v.children, Host.Mirrored h c) : Host.Mirrored h v

/-- A tree mirrors the host: the container stands for its top, every node below has a handle of its
    own. -/
structure Host.MirroredTop (h : Host) (container : Handle) (v : VNode) : Prop where
  host : v.host = some container
  node : ∃ nd, h.get? container = some nd ∧ nd.children.map some = v.children.map VNode.host
  below : ∀ c ∈ v.children, h.Mirrored c
  distinct : v.handles.Nodup

/-- The top of a plain tree, with no attributes or bindings of its own. -/
structure VNode.PlainTop (v : VNode) : Prop where
  kind : v.kind = .root
  attrs : v.attrs = []
  events : v.events = []
  plain : v.Plain

namespace Host

theorem map_host_of_shows {h : Host} {p : Option Handle} {vs : List VNode}
    (hs : ∀ c ∈ vs, Shows h p c) : (vs.map VNode.top).map some = vs.map VNode.host := by
  rw [List.map_map]
  exact List.map_congr_left fun c hc => (hs c hc).host_eq.symm

/-- A plain tree that is shown is mirrored. -/
theorem Shows.mirrored {h : Host} {p : Option Handle} {v : VNode} (hs : Shows h p v)
    (hv : v.Plain) : h.Mirrored v := by
  induction hs with
  | @mk p v n nd host node content parent attrs listeners children below ih =>
    by_cases hk : v.kind = .text
    · obtain ⟨_, _, _, hattrs, hevents, hchildren⟩ := hv.of_text hk
      rw [shownAttrs, if_pos hk] at attrs
      rw [shownBindings, if_pos hk] at listeners
      rw [shownChildren, if_pos hk] at children
      refine .mk host node content ?_ ?_ ?_ ?_
      · rw [hattrs]
        exact attrs.eq_of_nodup List.nodup_nil
      · rw [listeners, hevents]
        rfl
      · rw [children, hchildren]
        rfl
      · rw [hchildren]
        exact fun c hc => absurd hc List.not_mem_nil
    · rw [shownAttrs, if_neg hk] at attrs
      rw [shownBindings, if_neg hk] at listeners
      rw [shownChildren_of_ne hk] at children below ih
      refine .mk host node content (attrs.eq_of_nodup hv.nodup_names) listeners ?_ ?_
      · rw [children, map_host_of_shows below]
      · exact fun c hc => ih c hc (hv.children c hc)

section

variable {h h' : Host} {n : Handle} {v : VNode}

/-- What hangs below the container makes a tree that mirrors the host. -/
theorem mirroredTop_of {O : Handle → Prop} {nd : HostNode} (hv : v.host = some n)
    (hk : v.kind ≠ .text) (hh : Hangs h O n nd v.children) (hplain : ∀ c ∈ v.children, c.Plain) :
    h.MirroredTop n v := by
  refine ⟨hv, ⟨nd, hh.node, ?_⟩, fun c hc => (hh.shows c hc).mirrored (hplain c hc), ?_⟩
  · rw [hh.children, map_host_of_shows hh.shows]
  · rw [handles_of_ne_text hv hk]
    exact List.nodup_cons.mpr ⟨fun hm => hh.ne_of_mem hm rfl, hh.nodup⟩

/-- The host holds what it held before and what stands for the tree. -/
theorem knows_of_redone (hv : v.host = some n) (hk : v.kind ≠ .text)
    (hr : Redone h (some n) [] h' v.children) (hn : h.knows n = true) (hn' : h'.knows n = true)
    (m : Handle) : h'.knows m ↔ h.knows m ∨ m ∈ v.handles := by
  rw [handles_of_ne_text hv hk, List.mem_cons]
  by_cases e : m = n
  · rw [e]
    exact ⟨fun _ => .inl hn, fun _ => hn'⟩
  · by_cases hm : m ∈ handlesAll v.children
    · obtain ⟨c, hc, hmc⟩ := mem_handlesAll.mp hm
      obtain ⟨nc, hnc⟩ := (hr.shows c hc).known m hmc
      exact ⟨fun _ => .inr (.inr hm), fun _ => by rw [knows, hnc]; rfl⟩
    · rw [knows, knows, hr.get?_eq (fun h => e (Option.some.inj h)) hm]
      exact ⟨.inl, fun h => h.resolve_right fun h => h.elim e hm⟩

end

end Host

/-! ## 2. Difference and patch -/

/-- **Mounting a tree and carrying out its difference to another one** makes it alike that one and
    leaves it mirroring the host, which holds nothing besides. -/
theorem diff_apply (ops : List Host.Op) {container : Handle} {nd : HostNode}
    (hcontainer : (Host.after ops).get? container = some nd) (hempty : nd.children = [])
    {old new : VNode} (hold : old.PlainTop) (hnew : new.PlainTop)
    (htop : old.tag = new.tag ∧ old.component = new.component ∧ old.key = new.key)
    (parent : Handle) :
    ∃ h₁ h₂ old₁ old₂, Host.mount container old (Host.after ops) = (.ok old₁, h₁) ∧
      applyPatches parent (diff old₁ new) ⟨h₁, old₁⟩ = (.ok (), ⟨h₂, old₂⟩) ∧
      old₂.Alike new ∧ h₂.MirroredTop container old₂ ∧
      ∀ m, h₂.knows m ↔ (Host.after ops).knows m ∨ m ∈ old₂.handles := by
  have ho := Host.around_after ops hcontainer
  have hh : Host.Hangs (Host.after ops) _ container nd [] :=
    ⟨hcontainer, hempty, ho, fun m hm => absurd hm List.not_mem_nil,
      fun c hc => absurd hc List.not_mem_nil, List.nodup_nil⟩
  obtain ⟨h₁, ws, hmount, hredone₁, hdetach, hn₁⟩ := Host.mount_root_spec hold.kind hcontainer ho
    fun m hm => absurd (hempty ▸ hm) List.not_mem_nil
  have hh₁ := hh.redone hredone₁ hn₁ rfl (by rw [hempty]; rfl)
  have hkind : old.kind ≠ .text := by rw [hold.kind]; exact VKind.noConfusion
  have hkind' : new.kind ≠ .text := by rw [hnew.kind]; exact VKind.noConfusion
  have hws : ∀ c ∈ ws, c.Plain := plain_of_map_detach hdetach hold.plain.children
  have hplain : VNode.Plain { old with children := ws, host := some container } := by
    rw [plain_iff, if_neg hkind]
    exact ⟨hold.plain.content_eq hkind, hold.plain.nodup_names, hws⟩
  have hc : Diff.compatible { old with children := ws, host := some container } new = true :=
    Diff.compatible_iff.mpr ⟨hold.kind.trans hnew.kind.symm, htop⟩
  obtain ⟨h₂, cs, hrun, hredone₂, hn₂, hall⟩ := Patch.node_spec
    (v := { old with children := ws, host := some container }) (fun c _ => Patch.updates c) hkind
    hkind' hc rfl hh₁ parent
  obtain ⟨halike, hcs⟩ := hall hws hnew.plain.children
  have hredone := hredone₁.trans hredone₂
  have hh₂ := hh₁.redone hredone₂ hn₂ rfl rfl
  refine ⟨h₁, h₂, _, _, hmount, hrun, ?_, Host.mirroredTop_of rfl hkind hh₂ hcs,
    Host.knows_of_redone rfl hkind hredone ?_ ?_⟩
  · exact (Patch.alike_of_compatible hplain hnew.plain hkind hkind' hc halike hcs).1
  · rw [Host.knows, hcontainer]
    rfl
  · rw [Host.knows, hn₂]
    rfl

/-- For instance, a text that gives way to an element in the root of a fresh host. -/
theorem diff_apply_text_to_element :
    ∃ h₁ h₂ old₁ old₂, Host.mount Host.root (.root [.ofText "a"]) Host.empty = (.ok old₁, h₁) ∧
      applyPatches Host.root (diff old₁ (.root [.plain .native "p"])) ⟨h₁, old₁⟩ =
        (.ok (), ⟨h₂, old₂⟩) ∧
      old₂.Alike (.root [.plain .native "p"]) ∧ h₂.MirroredTop Host.root old₂ ∧
      ∀ m, h₂.knows m ↔ Host.empty.knows m ∨ m ∈ old₂.handles := by
  have hold : (VNode.root [.ofText "a"]).PlainTop :=
    ⟨rfl, rfl, rfl, rfl, List.nodup_nil, ⟨⟨rfl, rfl, rfl, rfl, rfl, rfl⟩, List.nodup_nil, trivial⟩,
      trivial⟩
  have hnew : (VNode.root [.plain .native "p"]).PlainTop :=
    ⟨rfl, rfl, rfl, rfl, List.nodup_nil, ⟨rfl, List.nodup_nil, trivial⟩, trivial⟩
  exact diff_apply [] rfl rfl hold hnew ⟨rfl, rfl, rfl⟩ Host.root

/-- Tops with different keys replace each other, and the container is no child of anything. A text
    keeps a tag that it has no use for. -/
theorem diff_apply_needs_same_top :
    (∃ h₁ old₁, Host.mount Host.root { VNode.root [] with key := "a" } Host.empty = (.ok old₁, h₁) ∧
      (applyPatches Host.root (diff old₁ (.root [])) ⟨h₁, old₁⟩).1 =
        .error (.notAChild Host.root Host.root)) ∧
    ∃ h₁ h₂ old₁ old₂,
      Host.mount Host.root (.root [{ VNode.ofText "a" with tag := "b" }]) Host.empty =
        (.ok old₁, h₁) ∧
      applyPatches Host.root (diff old₁ (.root [.ofText "a"])) ⟨h₁, old₁⟩ = (.ok (), ⟨h₂, old₂⟩) ∧
      ¬ old₂.Alike (.root [.ofText "a"]) := by
  refine ⟨⟨_, _, rfl, ?_⟩, ⟨_, _, _, _, rfl, rfl, ?_⟩⟩
  · rfl
  · rintro ⟨_, _, _, _, _, _, _, ⟨_, htag, _⟩, _⟩
    exact absurd htag (by decide)

end Trellis
