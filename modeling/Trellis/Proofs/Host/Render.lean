import Trellis.Proofs.Host.Shows

/-!
# Rendering

`render_spec`: a rendered tree is shown by new nodes that stand nowhere yet, and nothing else changed.
`renderInto_spec`: rendered children come behind those a node had before. `mount_root_spec` and
`mount_spec` say so of a whole tree in a container.
-/

namespace Trellis

namespace Host

open VNode

/-! ## 1. Many changes of one node -/

/-- A run over a list of which every step changes one part of one node, changes that part step by
    step. -/
theorem forM_edit {α β : Type} {n : Handle} {act : α → HostM Unit} (put : β → HostNode)
    (step : β → α → β)
    (hact : ∀ (a : α) (b : β) (h : Host), h.get? n = some (put b) →
      ∃ h', act a h = (.ok (), h') ∧ Edit h n (put (step b a)) h')
    (as : List α) {h : Host} {b : β} (hn : h.get? n = some (put b)) :
    ∃ h', (as.forM act) h = (.ok (), h') ∧ Edit h n (put (as.foldl step b)) h' := by
  induction as generalizing h b with
  | nil => exact ⟨h, rfl, .refl hn⟩
  | cons a as ih =>
    obtain ⟨h₁, hrun₁, hedit₁⟩ := hact a b h hn
    obtain ⟨h₂, hrun₂, hedit₂⟩ := ih hedit₁.self
    refine ⟨h₂, ?_, hedit₁.trans hedit₂⟩
    show (act a >>= fun _ => as.forM act) h = _
    rw [Run.bind_ok hrun₁, hrun₂]

theorem forM_setAttr (attrs : List Attr) {h : Host} {n : Handle} {nd : HostNode}
    (hn : h.get? n = some nd) :
    ∃ h', (attrs.forM fun a => setAttr n a.name a.value) h = (.ok (), h') ∧
      Edit h n { nd with attrs := attrs.foldl (fun acc a => Attrs.set acc a.name a.value) nd.attrs }
        h' :=
  forM_edit (fun attrs => { nd with attrs }) (fun acc a => Attrs.set acc a.name a.value)
    (fun a _ _ hn => setAttr_spec hn a.name a.value) attrs hn

theorem forM_listen (bs : List Binding) {h : Host} {n : Handle} {nd : HostNode}
    (hn : h.get? n = some nd) :
    ∃ h', (bs.forM (listen n)) h = (.ok (), h') ∧
      Edit h n { nd with listeners := nd.listeners ++ bs } h' := by
  have hfold : ∀ ls : List Binding, bs.foldl (fun ls b => ls ++ [b]) ls = ls ++ bs := by
    intro ls
    induction bs generalizing ls with
    | nil => rw [List.append_nil, List.foldl_nil]
    | cons b bs ih => rw [List.foldl_cons, ih, List.append_assoc, List.singleton_append]
  rw [← hfold nd.listeners]
  exact forM_edit (fun listeners => { nd with listeners }) (fun ls b => ls ++ [b])
    (fun b _ _ hn => listen_spec hn b) bs hn

theorem forM_unlisten (bs : List Binding) {h : Host} {n : Handle} {nd : HostNode}
    (hn : h.get? n = some nd) :
    ∃ h', (bs.forM (unlisten n)) h = (.ok (), h') ∧
      Edit h n { nd with listeners := bs.foldl List.erase nd.listeners } h' :=
  forM_edit (fun listeners => { nd with listeners }) List.erase
    (fun b _ _ hn => unlisten_spec hn b) bs hn

/-! ## 2. Rendering -/

/-- New trees behind new trees. -/
theorem Redone.append_new {h h' h'' : Host} {p : Option Handle} {us vs : List VNode}
    (hp : ∀ n, p = some n → n < h.nodes.size) (a : Redone h p [] h' us) (b : Redone h' p [] h'' vs) :
    Redone h p [] h'' (us ++ vs) := by
  refine ⟨Nat.le_trans a.size_le b.size_le, ?_, ?_, ?_, ?_⟩
  · intro m hm
    rw [handlesAll_append, List.mem_append] at hm
    rcases hm with hm | hm
    · exact .inr (a.size_le_of_mem hm)
    · exact .inr (Nat.le_trans a.size_le (b.size_le_of_mem hm))
  · intro m hmp hm
    rw [handlesAll_append, List.mem_append, not_or] at hm
    rw [b.get?_eq hmp hm.2, a.elsewhere m hmp hm.1]
  · intro c hc
    rcases List.mem_append.mp hc with hc | hc
    · refine (a.shows c hc).frame fun m hm => b.get?_eq ?_ ?_
      · have hge := a.size_le_of_mem (mem_handlesAll.mpr ⟨c, hc, hm⟩)
        exact fun e => Nat.not_lt.mpr hge (hp m e.symm)
      · have hlt := (a.shows c hc).lt_size hm
        exact fun hv => Nat.not_lt.mpr (b.size_le_of_mem hv) hlt
    · exact b.shows c hc
  · rw [handlesAll_append]
    refine List.nodup_append.mpr ⟨a.nodup, b.nodup, fun m hm m' hm' e => ?_⟩
    have hlt := shows_lt_size a.shows hm
    exact Nat.not_lt.mpr (b.size_le_of_mem hm') (e ▸ hlt)

/-- What rendering a tree comes to: new nodes that stand nowhere show it, its top with the attributes
    that setting them one after the other leaves. -/
structure Rendered (h : Host) (v : VNode) (h' : Host) (w : VNode) : Prop where
  redone : Redone h none [] h' [w]
  top_eq : w.top = h.nodes.size
  detach_eq : w.detach = v.detach
  attrs_eq : ∃ nd, h'.get? w.top = some nd ∧ nd.attrs = Attrs.settled v.shownAttrs

section

variable {h h₁ : Host} {v w : VNode}

theorem Rendered.shows (hr : Rendered h v h₁ w) : Shows h₁ none w :=
  hr.redone.shows w List.mem_cons_self

theorem Rendered.size_le_of_mem (hr : Rendered h v h₁ w) {m : Handle} (hm : m ∈ w.handles) :
    h.nodes.size ≤ m :=
  hr.redone.size_le_of_mem (mem_handlesAll.mpr ⟨w, List.mem_cons_self, hm⟩)

theorem Rendered.not_lt (hr : Rendered h v h₁ w) {m : Handle} (hm : m ∈ w.handles) :
    ¬ m < h.nodes.size := Nat.not_lt.mpr (hr.size_le_of_mem hm)

theorem Rendered.nodup (hr : Rendered h v h₁ w) : w.handles.Nodup := by
  have hall := hr.redone.nodup
  rwa [handlesAll, handlesAll, List.append_nil] at hall

/-- Rendering leaves what was there as it is. -/
theorem Rendered.get?_eq (hr : Rendered h v h₁ w) {m : Handle} (hm : m < h.nodes.size) :
    h₁.get? m = h.get? m :=
  hr.redone.get?_eq (Option.some_ne_none m) fun hw =>
    Nat.not_lt.mpr (hr.redone.size_le_of_mem hw) hm

theorem Rendered.around (hr : Rendered h v h₁ w) {O : Handle → Prop} {n : Handle}
    (ho : Around h O n) : Around h₁ O n :=
  ho.of_parents hr.redone.size_le fun m hm => by rw [parent?, parent?, hr.get?_eq (ho.taken hm)]

theorem Rendered.hangs (hr : Rendered h v h₁ w) {O : Handle → Prop} {n : Handle} {nd : HostNode}
    {front : List (Subtype O)} {vs : List VNode} (hh : HangsBehind h O n nd front vs) :
    HangsBehind h₁ O n nd front vs where
  node := (hr.get?_eq (lt_size_of_get? hh.node)).trans hh.node
  children := hh.children
  around := hr.around hh.around
  apart := hh.apart
  shows := shows_frame hh.shows fun _ hm => hr.get?_eq (hh.lt_size hm)
  nodup := hh.nodup

end

/-- A rendered tree comes to stand below a node as its last child. -/
theorem append_rendered {h h₁ : Host} {O : Handle → Prop} {n : Handle} {nd : HostNode} {v w : VNode}
    (hn : h.get? n = some nd) (ho : Around h O n) (hlt : ∀ m ∈ nd.children, m < h.nodes.size)
    (hr : Rendered h v h₁ w) :
    ∃ h', append n w.top h₁ = (.ok (), h') ∧ Redone h (some n) [] h' [w] ∧
      h'.get? n = some { nd with children := nd.children ++ [w.top] } ∧
      Around h' O n ∧
      ∃ nw, h'.get? w.top = some nw ∧ nw.attrs = Attrs.settled v.shownAttrs := by
  have hnlt := lt_size_of_get? hn
  have hn₁ : h₁.get? n = some nd := (hr.get?_eq hnlt).trans hn
  have ho₁ : Around h₁ O n := hr.around ho
  have htop_new : ¬ w.top < h.nodes.size := hr.not_lt hr.shows.top_mem
  have hntop : n ≠ w.top := fun e => htop_new (e ▸ hnlt)
  have hOw : ¬ O w.top := fun hm => htop_new (ho.taken hm)
  obtain ⟨nw, hw, hattrs⟩ := hr.attrs_eq
  have hfree : nw.parent = none := (parent?_of_get? hw).symm.trans hr.shows.parent_eq
  obtain ⟨h', hrun, hsize, hget⟩ := append_spec ho₁ hOw hn₁ hw hfree fun hm => htop_new (hlt _ hm)
  have htop : h'.get? w.top = some { nw with parent := some n } := by rw [hget, if_pos rfl]
  have hself : h'.get? n = some { nd with children := nd.children ++ [w.top] } := by
    rw [hget, if_neg hntop, if_pos rfl]
  have hrest : ∀ {m : Handle}, m ≠ n → m ≠ w.top → h'.get? m = h₁.get? m := by
    intro m hmn hmw
    rw [hget, if_neg hmw, if_neg hmn]
  refine ⟨h', hrun, ⟨?_, hr.redone.fresh, ?_, ?_, hr.redone.nodup⟩, hself, ?_, _, htop, hattrs⟩
  · rw [hsize]
    exact hr.redone.size_le
  · intro m hmn hm
    have hmw : m ≠ w.top := fun e =>
      hm (mem_handlesAll.mpr ⟨w, List.mem_cons_self, e ▸ hr.shows.top_mem⟩)
    rw [hrest (fun e => hmn (e ▸ rfl)) hmw, hr.redone.elsewhere m (Option.some_ne_none m) hm]
  · intro c hc
    obtain rfl := List.mem_singleton.mp hc
    refine hr.shows.moved (fun nd hnd => ?_) fun m hm => ?_
    · rw [htop, Option.some.inj (hnd.symm.trans hw)]
    · have hmem : m ∈ c.handles := by
        rw [hr.shows.handles_eq]
        exact List.mem_cons_of_mem _ hm
      refine hrest (fun e => hr.not_lt hmem (e ▸ hnlt)) fun e => ?_
      exact hr.shows.top_not_below hr.nodup (e ▸ hm)
  · refine ho₁.of_parents (Nat.le_of_eq hsize.symm) fun m hm => ?_
    by_cases e : m = n
    · rw [e, parent?_of_get? hself, parent?_of_get? hn₁]
    · rw [parent?, parent?, hrest e fun e => hOw (e ▸ hm)]

/-- Rendering children, given that each of them can be rendered. -/
theorem renderInto_spec_of {vs : List VNode}
    (hvs : ∀ v ∈ vs, ∀ h : Host, ∃ h' w, render v h = (.ok (h.nodes.size, w), h') ∧ Rendered h v h' w)
    {h : Host} {O : Handle → Prop} {n : Handle} {nd : HostNode} (hn : h.get? n = some nd)
    (ho : Around h O n) (hlt : ∀ m ∈ nd.children, m < h.nodes.size) :
    ∃ h' ws, renderInto n vs h = (.ok ws, h') ∧ Redone h (some n) [] h' ws ∧
      ws.map VNode.detach = vs.map VNode.detach ∧
      h'.get? n = some { nd with children := nd.children ++ ws.map VNode.top } := by
  induction vs generalizing h nd with
  | nil =>
    refine ⟨h, [], rfl, ⟨Nat.le_refl _, ?_, ?_, ?_, List.nodup_nil⟩, rfl, ?_⟩
    · exact fun m hm => .inl hm
    · exact fun m _ hm => (if_neg hm).symm
    · exact fun c hc => absurd hc List.not_mem_nil
    · rw [List.map_nil, List.append_nil, hn]
  | cons v vs ih =>
    obtain ⟨h₁, w, hrun₁, hr⟩ := hvs v List.mem_cons_self h
    obtain ⟨h₂, hrun₂, hredone, hn₂, ho₂, _⟩ := append_rendered hn ho hlt hr
    have hlt₂ : ∀ m ∈ nd.children ++ [w.top], m < h₂.nodes.size := by
      intro m hm
      rcases List.mem_append.mp hm with hm | hm
      · exact Nat.lt_of_lt_of_le (hlt m hm) hredone.size_le
      · exact shows_lt_size hredone.shows (tops_subset hredone.shows hm)
    obtain ⟨h₃, ws, hrun₃, hredone₃, hdetach, hn₃⟩ :=
      ih (fun v hv => hvs v (List.mem_cons_of_mem _ hv)) hn₂ ho₂ hlt₂
    refine ⟨h₃, w :: ws, ?_, ?_, ?_, ?_⟩
    · rw [renderInto, Run.bind_ok hrun₁]
      show (append n h.nodes.size >>= fun _ => renderInto n vs >>= fun ws => pure (w :: ws)) h₁ = _
      rw [← hr.top_eq, Run.bind_ok hrun₂, Run.bind_ok hrun₃]
      rfl
    · refine Redone.append_new (fun m e => ?_) hredone hredone₃
      rw [← Option.some.inj e]
      exact lt_size_of_get? hn
    · rw [List.map_cons, List.map_cons, hdetach, hr.detach_eq]
    · rw [hn₃, List.map_cons, List.append_assoc]
      rfl

/-- A new node with rendered children below it makes a rendered tree. -/
theorem rendered_of {h h₁ h₂ : Host} {v w : VNode} {nd : HostNode}
    (hhost : w.host = some h.nodes.size) (hsize : h₁.nodes.size = h.nodes.size + 1)
    (hsame : ∀ {m : Handle}, m ≠ h.nodes.size → h₁.get? m = h.get? m)
    (hr : Redone h₁ (some h.nodes.size) [] h₂ w.shownChildren)
    (hn : h₂.get? h.nodes.size = some nd)
    (hcontent : nd.content = contentOf w.kind w.tag w.content) (hparent : nd.parent = none)
    (hattrs : nd.attrs = Attrs.settled w.shownAttrs) (hlisteners : nd.listeners = w.shownBindings)
    (hchildren : nd.children = w.shownChildren.map VNode.top) (hshown : w.shownAttrs = v.shownAttrs)
    (hdetach : w.detach = v.detach) : Rendered h v h₂ w := by
  have htop : w.top = h.nodes.size := by rw [VNode.top, hhost, Option.getD_some]
  have hhandles : handlesAll [w] = h.nodes.size :: handlesAll w.shownChildren := by
    rw [handlesAll, handlesAll, List.append_nil, VNode.handles_eq hhost]
  refine ⟨⟨?_, ?_, ?_, ?_, ?_⟩, htop, hdetach, nd, htop.symm ▸ hn, hshown ▸ hattrs⟩
  · exact Nat.le_trans (hsize ▸ Nat.le_succ _) hr.size_le
  · intro m hm
    rw [hhandles, List.mem_cons] at hm
    rcases hm with rfl | hm
    · exact .inr (Nat.le_refl _)
    · exact .inr (Nat.le_trans (hsize ▸ Nat.le_succ _) (hr.size_le_of_mem hm))
  · intro m _ hm
    rw [hhandles, List.mem_cons, not_or] at hm
    rw [hr.get?_eq (fun e => hm.1 (Option.some.inj e)) hm.2, hsame hm.1]
    exact (if_neg List.not_mem_nil).symm
  · intro c hc
    obtain rfl := List.mem_singleton.mp hc
    refine .mk hhost hn hcontent hparent ?_ hlisteners hchildren hr.shows
    rw [hattrs]
    exact Attrs.shown_settled _
  · rw [hhandles]
    refine List.nodup_cons.mpr ⟨fun hm => ?_, hr.nodup⟩
    have hge := hr.size_le_of_mem hm
    rw [hsize] at hge
    exact Nat.not_succ_le_self _ hge

/-- **A tree is rendered by new nodes that stand nowhere.** -/
theorem render_spec (v : VNode) (h : Host) :
    ∃ h' w, render v h = (.ok (h.nodes.size, w), h') ∧ Rendered h v h' w := by
  induction v using VNode.induction generalizing h with
  | h v ih =>
    obtain ⟨kind, tag, component, content, key, attrs, events, children, host⟩ := v
    let nd := HostNode.bare (contentOf kind tag content)
    let h₀ : Host := ⟨h.nodes.push (some nd), .create h.nodes.size :: h.log⟩
    have hcreate : create (contentOf kind tag content) h = (.ok h.nodes.size, h₀) :=
      create_apply _ h
    have hsize₀ : h₀.nodes.size = h.nodes.size + 1 := Array.size_push _
    have hn₀ : h₀.get? h.nodes.size = some nd := by rw [get?_push, if_pos rfl]
    have hsame₀ : ∀ {m : Handle}, m ≠ h.nodes.size → h₀.get? m = h.get? m := by
      intro m hm
      rw [get?_push, if_neg hm]
    by_cases hkind : kind = .text
    · subst hkind
      refine ⟨h₀, ⟨.text, tag, component, content, key, attrs, events, children, some h.nodes.size⟩,
        ?_, ?_⟩
      · rw [render, Run.bind_ok hcreate, if_pos rfl]
        rfl
      · refine rendered_of rfl hsize₀ hsame₀ ⟨Nat.le_refl _, ?_, ?_, ?_, ?_⟩ hn₀ rfl rfl rfl rfl rfl
          rfl rfl
        · exact fun m hm => .inl hm
        · exact fun m _ hm => (if_neg hm).symm
        · exact fun c hc => absurd hc List.not_mem_nil
        · exact List.nodup_nil
    · obtain ⟨h₁, hrun₁, hedit₁⟩ := forM_setAttr attrs hn₀
      obtain ⟨h₂, hrun₂, hedit₂⟩ := forM_listen (Events.all events) hedit₁.self
      have hedit := hedit₁.trans hedit₂
      have hsize₂ : h₂.nodes.size = h.nodes.size + 1 := hedit.size.trans hsize₀
      have ho : Around h₂ (· = h.nodes.size) h.nodes.size :=
        .alone (parent?_of_get? hedit.self) (hsize₂ ▸ Nat.lt_succ_self _)
      obtain ⟨h₃, ws, hrun₃, hredone, hdetach, hn₃⟩ := renderInto_spec_of ih hedit.self ho
        fun m hm => absurd hm List.not_mem_nil
      refine ⟨h₃, ⟨kind, tag, component, content, key, attrs, events, ws, some h.nodes.size⟩, ?_, ?_⟩
      · rw [render, Run.bind_ok hcreate, if_neg hkind, Run.bind_ok hrun₁, Run.bind_ok hrun₂,
          Run.bind_ok hrun₃]
        rfl
      · have hch : VNode.shownChildren
            ⟨kind, tag, component, content, key, attrs, events, ws, some h.nodes.size⟩ = ws :=
          if_neg hkind
        refine rendered_of rfl hsize₂ (fun hm => (hedit.others hm).trans (hsame₀ hm)) ?_ hn₃ rfl rfl
          ?_ ?_ ?_ rfl ?_
        · rw [hch]
          exact hredone
        · rw [shownAttrs, if_neg hkind]
          rfl
        · rw [shownBindings, if_neg hkind]
          rfl
        · rw [hch]
          rfl
        · rw [VNode.detach, VNode.detach, detachAll_eq_map, detachAll_eq_map, hdetach]

/-- Rendered children come behind those a node had before. -/
theorem renderInto_spec (vs : List VNode) {h : Host} {O : Handle → Prop} {n : Handle} {nd : HostNode}
    (hn : h.get? n = some nd) (ho : Around h O n) (hlt : ∀ m ∈ nd.children, m < h.nodes.size) :
    ∃ h' ws, renderInto n vs h = (.ok ws, h') ∧ Redone h (some n) [] h' ws ∧
      ws.map VNode.detach = vs.map VNode.detach ∧
      h'.get? n = some { nd with children := nd.children ++ ws.map VNode.top } :=
  renderInto_spec_of (fun v _ h => render_spec v h) hn ho hlt

/-! ## 3. Mounting -/

/-- **The top of a tree is the container; the children of the tree come to stand in it.** -/
theorem mount_root_spec {v : VNode} (hroot : v.kind = .root) {h : Host} {O : Handle → Prop}
    {n : Handle} {nd : HostNode} (hn : h.get? n = some nd) (ho : Around h O n)
    (hlt : ∀ m ∈ nd.children, m < h.nodes.size) :
    ∃ h' ws, mount n v h = (.ok { v with children := ws, host := some n }, h') ∧
      Redone h (some n) [] h' ws ∧ ws.map VNode.detach = v.children.map VNode.detach ∧
      h'.get? n = some { nd with children := nd.children ++ ws.map VNode.top } := by
  obtain ⟨h', ws, hrun, hr⟩ := renderInto_spec v.children hn ho hlt
  refine ⟨h', ws, ?_, hr⟩
  rw [mount, if_pos hroot, Run.bind_ok hrun]
  rfl

/-- **Another tree comes to stand in the container as a whole.** -/
theorem mount_spec {v : VNode} (hroot : v.kind ≠ .root) {h : Host} {O : Handle → Prop} {n : Handle}
    {nd : HostNode} (hn : h.get? n = some nd) (ho : Around h O n)
    (hlt : ∀ m ∈ nd.children, m < h.nodes.size) :
    ∃ h' w, mount n v h = (.ok w, h') ∧ Redone h (some n) [] h' [w] ∧ w.detach = v.detach ∧
      h'.get? n = some { nd with children := nd.children ++ [w.top] } ∧ Around h' O n ∧
      ∃ nw, h'.get? w.top = some nw ∧ nw.attrs = Attrs.settled v.shownAttrs := by
  obtain ⟨h₁, w, hrun₁, hr⟩ := render_spec v h
  obtain ⟨h', hrun, hredone, hn', ho', hattrs⟩ := append_rendered hn ho hlt hr
  refine ⟨h', w, ?_, hredone, hr.detach_eq, hn', ho', hattrs⟩
  rw [mount, if_neg hroot, Run.bind_ok hrun₁]
  show (append n h.nodes.size >>= fun _ => pure w) h₁ = _
  rw [← hr.top_eq, Run.bind_ok hrun]
  rfl

end Host

end Trellis
