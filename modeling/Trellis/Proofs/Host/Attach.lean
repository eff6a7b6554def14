import Mathlib.Data.List.Nodup
import Trellis.Proofs.Host.Run

/-!
# Where a handle stands

The operations that move nodes, read off as what each handle stands for afterwards.

- `attach_spec`: a node comes to stand below another one. What is around the parent is closed under
  going outwards (`Around`), so a node outside of it makes no cycle.
- `discardAll_spec`: forgetting a node forgets exactly the handles that `Carries` lists.
- `remove_spec`, `replace_spec`: a child leaves with everything below it.
-/

namespace Trellis

namespace Host

/-! ## 1. What is around a node -/

/-- Handles among them a node and everything around it, all of them taken. -/
structure Around (h : Host) (O : Handle → Prop) (n : Handle) : Prop where
  self : O n
  outwards : ∀ {m q : Handle}, O m → h.parent? m = some q → O q
  taken : ∀ {m : Handle}, O m → m < h.nodes.size

theorem Around.of_mem_outwards {h : Host} {O : Handle → Prop} {n : Handle} (ho : Around h O n)
    {fuel : Nat} {p m : Handle} (hp : O p) (hm : m ∈ h.outwards fuel p) : O m := by
  induction fuel generalizing p with
  | zero => exact absurd hm List.not_mem_nil
  | succ fuel ih =>
    rw [Host.outwards, List.mem_cons] at hm
    rcases hm with rfl | hm
    · exact hp
    · cases hq : h.parent? p with
      | none =>
        rw [hq] at hm
        exact absurd hm List.not_mem_nil
      | some q =>
        rw [hq] at hm
        exact ih (ho.outwards hp hq) hm

/-- A node that is not around another one does not hold it. -/
theorem Around.holds_eq_false {h : Host} {O : Handle → Prop} {n c : Handle} (ho : Around h O n)
    (hc : ¬ O c) : h.holds c n = false := by
  rw [holds, Bool.eq_false_iff, ne_eq, List.contains_iff_mem]
  exact fun hm => hc (ho.of_mem_outwards ho.self hm)

/-- What is around a node stays so when no node around it changes its parent. -/
theorem Around.of_parents {h h' : Host} {O : Handle → Prop} {n : Handle} (ho : Around h O n)
    (hsize : h.nodes.size ≤ h'.nodes.size) (hp : ∀ m, O m → h'.parent? m = h.parent? m) :
    Around h' O n where
  self := ho.self
  outwards hm hq := ho.outwards hm (by rwa [hp _ hm] at hq)
  taken hm := Nat.lt_of_lt_of_le (ho.taken hm) hsize

/-- A child has its parent around it. -/
theorem Around.child {h : Host} {O : Handle → Prop} {n c : Handle} (ho : Around h O n)
    (hc : h.parent? c = some n) (hlt : c < h.nodes.size) :
    Around h (fun m => m = c ∨ O m) c where
  self := .inl rfl
  outwards hm hq := by
    rcases hm with rfl | hm
    · rw [hc, Option.some.injEq] at hq
      exact .inr (hq ▸ ho.self)
    · exact .inr (ho.outwards hm hq)
  taken hm := by
    rcases hm with rfl | hm
    · exact hlt
    · exact ho.taken hm

/-- A node without a parent has nothing else around it. -/
theorem Around.alone {h : Host} {n : Handle} (hn : h.parent? n = none) (hlt : n < h.nodes.size) :
    Around h (· = n) n where
  self := rfl
  outwards hm hq := by
    rw [hm, hn] at hq
    cases hq
  taken hm := hm ▸ hlt

/-! ## 2. Changes of one node -/

/-- Only the node of one handle changes. -/
structure Edit (h : Host) (n : Handle) (nd : HostNode) (h' : Host) : Prop where
  size : h'.nodes.size = h.nodes.size
  self : h'.get? n = some nd
  others : ∀ {m : Handle}, m ≠ n → h'.get? m = h.get? m

theorem Edit.refl {h : Host} {n : Handle} {nd : HostNode} (hn : h.get? n = some nd) :
    Edit h n nd h := ⟨rfl, hn, fun _ => rfl⟩

theorem Edit.trans {h h' h'' : Host} {n : Handle} {nd nd' : HostNode} (a : Edit h n nd h')
    (b : Edit h' n nd' h'') : Edit h n nd' h'' where
  size := b.size.trans a.size
  self := b.self
  others hm := (b.others hm).trans (a.others hm)

/-- Changing the node of a handle changes only that. -/
theorem Edit.update {h : Host} {n : Handle} {nd : HostNode} (hn : h.get? n = some nd)
    (f : HostNode → HostNode) (log : List Mutation) :
    Edit h n (f nd) { h.update n f with log } where
  size := size_update h n f
  self := by rw [get?_log, get?_update, if_pos rfl, hn, Option.map_some]
  others hm := by rw [get?_log, get?_update, if_neg hm]

theorem setAttr_spec {h : Host} {n : Handle} {nd : HostNode} (hn : h.get? n = some nd)
    (name : String) (v : Value) :
    ∃ h', setAttr n name v h = (.ok (), h') ∧
      Edit h n { nd with attrs := Attrs.set nd.attrs name v } h' :=
  ⟨_, setAttr_apply hn name v,
    .update hn (fun nd => { nd with attrs := Attrs.set nd.attrs name v }) _⟩

theorem removeAttr_spec {h : Host} {n : Handle} {nd : HostNode} (hn : h.get? n = some nd)
    (name : String) :
    ∃ h', removeAttr n name h = (.ok (), h') ∧
      Edit h n { nd with attrs := Attrs.remove nd.attrs name } h' :=
  ⟨_, removeAttr_apply hn name,
    .update hn (fun nd => { nd with attrs := Attrs.remove nd.attrs name }) _⟩

theorem listen_spec {h : Host} {n : Handle} {nd : HostNode} (hn : h.get? n = some nd) (b : Binding) :
    ∃ h', listen n b h = (.ok (), h') ∧
      Edit h n { nd with listeners := nd.listeners ++ [b] } h' :=
  ⟨_, listen_apply hn b, .update hn (fun nd => { nd with listeners := nd.listeners ++ [b] }) _⟩

theorem unlisten_spec {h : Host} {n : Handle} {nd : HostNode} (hn : h.get? n = some nd)
    (b : Binding) :
    ∃ h', unlisten n b h = (.ok (), h') ∧
      Edit h n { nd with listeners := nd.listeners.erase b } h' :=
  ⟨_, unlisten_apply hn b, .update hn (fun nd => { nd with listeners := nd.listeners.erase b }) _⟩

/-! ## 3. Attaching -/

theorem requireChild_apply {h : Host} {p c : Handle} (hc : h.parent? c = some p) :
    requireChild p c h = (.ok (), h) := by
  simp [requireChild, hc]

theorem unlink_of_free {h : Host} {c : Handle} {nc : HostNode} (hc : h.get? c = some nc)
    (hfree : nc.parent = none) : unlink c h = (.ok (), h) := by
  rw [unlink, Run.bind_ok (require_apply hc), hfree]
  rfl

theorem unlink_of_child {h : Host} {c p : Handle} {nc np : HostNode} (hc : h.get? c = some nc)
    (hp : h.get? p = some np) (hparent : nc.parent = some p) (hne : p ≠ c) :
    ∃ h', unlink c h = (.ok (), h') ∧ h'.nodes.size = h.nodes.size ∧
      ∀ m, h'.get? m =
        if m = c then some { nc with parent := none }
        else if m = p then some { np with children := np.children.filter (· ≠ c) }
        else h.get? m := by
  have hreq : (h.update c fun n => { n with parent := none }).get? p = some np := by
    rw [get?_update, if_neg hne, hp]
  refine ⟨(h.update c fun n => { n with parent := none }).update p
      fun n => { n with children := n.children.filter (· ≠ c) }, ?_, ?_, fun m => ?_⟩
  · rw [unlink, Run.bind_ok (require_apply hc), hparent]
    simp only [Run.bind_apply, Run.modify_apply, require_apply hreq]
  · rw [size_update, size_update]
  · rw [get?_update, get?_update]
    by_cases hmp : m = p
    · subst hmp
      rw [if_pos rfl, if_neg hne, if_neg hne, if_pos rfl, hp, Option.map_some]
    · rw [if_neg hmp]
      by_cases hmc : m = c
      · subst hmc
        rw [if_pos rfl, if_pos rfl, hc, Option.map_some]
      · rw [if_neg hmc, if_neg hmc, if_neg hmp]

theorem filter_ne_of_not_mem {l : List Handle} {c : Handle} (h : c ∉ l) : l.filter (· ≠ c) = l := by
  refine List.filter_eq_self.mpr fun m hm => decide_eq_true fun e => ?_
  exact h (e ▸ hm)

/-- Parts a node from where it stands: nowhere, or below the given node. -/
theorem unlink_spec {h : Host} {c p : Handle} {nc np : HostNode} (hc : h.get? c = some nc)
    (hp : h.get? p = some np) (hne : p ≠ c)
    (hat : nc.parent = some p ∨ nc.parent = none ∧ c ∉ np.children) :
    ∃ h', unlink c h = (.ok (), h') ∧ h'.nodes.size = h.nodes.size ∧
      ∀ m, h'.get? m =
        if m = c then some { nc with parent := none }
        else if m = p then some { np with children := np.children.filter (· ≠ c) }
        else h.get? m := by
  rcases hat with hparent | ⟨hfree, hnot⟩
  · exact unlink_of_child hc hp hparent hne
  · refine ⟨h, unlink_of_free hc hfree, rfl, fun m => ?_⟩
    have hself : { nc with parent := none } = nc := by rw [← hfree]
    rw [filter_ne_of_not_mem hnot, hself]
    split
    · rename_i e
      rw [e, hc]
    · split
      · rename_i e
        rw [e, hp]
      · rfl

/-- Attaching a node that its new parent does not stand below, once it has been parted from where it
    stood. -/
theorem attach_apply {h h₁ : Host} {p c : Handle} {np nc np₁ nc₁ : HostNode}
    {before : Option Handle} (hp : h.get? p = some np) (hc : h.get? c = some nc)
    (hcycle : h.holds c p = false) (hbefore : ∀ r, before = some r → h.parent? r = some p ∧ r ≠ c)
    (hrun : unlink c h = (.ok (), h₁)) (hp₁ : h₁.get? p = some np₁) (hc₁ : h₁.get? c = some nc₁)
    (hne : p ≠ c) :
    ∃ h', attach p c before h = (.ok (), h') ∧ h'.nodes.size = h₁.nodes.size ∧
      ∀ m, h'.get? m =
        if m = c then some { nc₁ with parent := some p }
        else if m = p then some { np₁ with children := placed np₁.children c before }
        else h₁.get? m := by
  have hc₂ : (h₁.update p fun n => { n with children := placed n.children c before }).get? c =
      some nc₁ := by
    rw [get?_update, if_neg hne.symm, hc₁]
  refine ⟨(h₁.update p fun n => { n with children := placed n.children c before }).update c
      fun n => { n with parent := some p }, ?_, ?_, fun m => ?_⟩
  · have hrest : (do
          unlink c
          let _ ← require p
          modify fun h => h.update p fun n => { n with children := placed n.children c before }
          let _ ← require c
          modify fun h => h.update c fun n => { n with parent := some p } : HostM Unit) h =
        (.ok (), (h₁.update p fun n => { n with children := placed n.children c before }).update c
          fun n => { n with parent := some p }) := by
      rw [Run.bind_ok hrun, Run.bind_ok (require_apply hp₁), Run.bind_ok (Run.modify_apply _ _),
        Run.bind_ok (require_apply hc₂)]
      rfl
    rw [attach, Run.bind_ok (require_apply hp), Run.bind_ok (require_apply hc),
      Run.bind_ok (Run.get_apply h), hcycle, if_neg Bool.false_ne_true]
    cases before with
    | none => exact hrest
    | some r =>
      obtain ⟨hr, hrc⟩ := hbefore r rfl
      have hguard : ¬ (h.parent? r ≠ some p ∨ r = c) := fun e => e.elim (· hr) hrc
      dsimp only
      rw [Run.bind_ok (Run.get_apply h), if_neg hguard]
      exact hrest
  · rw [size_update, size_update]
  · rw [get?_update]
    by_cases hmc : m = c
    · subst hmc
      rw [if_pos rfl, if_pos rfl, hc₂, Option.map_some]
    · rw [if_neg hmc, if_neg hmc, get?_update]
      by_cases hmp : m = p
      · subst hmp
        rw [if_pos rfl, if_pos rfl, hp₁, Option.map_some]
      · rw [if_neg hmp, if_neg hmp]

/-- **A node comes to stand below another one**, from nowhere or from another place below it. -/
theorem attach_spec {h : Host} {O : Handle → Prop} {p c : Handle} {np nc : HostNode}
    {before : Option Handle} (ho : Around h O p) (hO : ¬ O c) (hp : h.get? p = some np)
    (hc : h.get? c = some nc) (hat : nc.parent = some p ∨ nc.parent = none ∧ c ∉ np.children)
    (hbefore : ∀ r, before = some r → h.parent? r = some p ∧ r ≠ c) :
    ∃ h', attach p c before h = (.ok (), h') ∧ h'.nodes.size = h.nodes.size ∧
      ∀ m, h'.get? m =
        if m = c then some { nc with parent := some p }
        else if m = p then
          some { np with children := placed (np.children.filter (· ≠ c)) c before }
        else h.get? m := by
  have hne : p ≠ c := fun e => hO (e ▸ ho.self)
  obtain ⟨h₁, hrun, hsize, hget⟩ := unlink_spec hc hp hne hat
  have hp₁ : h₁.get? p = some { np with children := np.children.filter (· ≠ c) } := by
    rw [hget, if_neg hne, if_pos rfl]
  have hc₁ : h₁.get? c = some { nc with parent := none } := by rw [hget, if_pos rfl]
  obtain ⟨h', hrun', hsize', hget'⟩ := attach_apply hp hc (ho.holds_eq_false hO) hbefore hrun hp₁ hc₁ hne
  refine ⟨h', hrun', hsize'.trans hsize, fun m => ?_⟩
  rw [hget']
  by_cases hmc : m = c
  · rw [if_pos hmc, if_pos hmc]
  · rw [if_neg hmc, if_neg hmc]
    by_cases hmp : m = p
    · rw [if_pos hmp, if_pos hmp]
    · rw [if_neg hmp, if_neg hmp, hget, if_neg hmc, if_neg hmp]

/-! ## 4. Forgetting -/

/-- Nodes, and the handles of all that is at or below them, each node before what is below it. -/
inductive Carries (h : Host) : List Handle → List Handle → Prop
  | nil : Carries h [] []
  | cons {n : Handle} {nd : HostNode} {ns below rest : List Handle} :
      h.get? n = some nd → Carries h nd.children below → Carries h ns rest →
      Carries h (n :: ns) (n :: (below ++ rest))

theorem Carries.known {h : Host} {ns ms : List Handle} (hc : Carries h ns ms) :
    ∀ m ∈ ms, ∃ nd, h.get? m = some nd := by
  induction hc with
  | nil => exact fun m hm => absurd hm List.not_mem_nil
  | cons hn _ _ ihbelow ihrest =>
    intro m hm
    rw [List.mem_cons, List.mem_append] at hm
    rcases hm with rfl | hm | hm
    · exact ⟨_, hn⟩
    · exact ihbelow m hm
    · exact ihrest m hm

/-- What nodes carry depends on nothing but the children of what they carry. -/
theorem Carries.of_children {h h' : Host} {ns ms : List Handle} (hc : Carries h ns ms)
    (heq : ∀ m ∈ ms, (h'.get? m).map HostNode.children = (h.get? m).map HostNode.children) :
    Carries h' ns ms := by
  induction hc with
  | nil => exact .nil
  | @cons n nd ns below rest hn _ _ ihbelow ihrest =>
    have hn' := heq n List.mem_cons_self
    rw [hn, Option.map_some, Option.map_eq_some_iff] at hn'
    obtain ⟨nd', hget, hch⟩ := hn'
    refine .cons hget ?_ (ihrest fun m hm => heq m ?_)
    · rw [hch]
      exact ihbelow fun m hm => heq m (List.mem_cons_of_mem _ (List.mem_append_left _ hm))
    · exact List.mem_cons_of_mem _ (List.mem_append_right _ hm)

theorem length_le_size {h : Host} {ms : List Handle} (hnodup : ms.Nodup)
    (hknown : ∀ m ∈ ms, ∃ nd, h.get? m = some nd) : ms.length ≤ h.nodes.size := by
  have hsub : ms ⊆ List.range h.nodes.size := by
    intro m hm
    obtain ⟨nd, hnd⟩ := hknown m hm
    exact List.mem_range.mpr (lt_size_of_get? hnd)
  have hle := hnodup.length_le_of_subset hsub
  rwa [List.length_range] at hle

theorem discardAll_cons {h : Host} {n : Handle} {nd : HostNode} (hn : h.get? n = some nd) (fuel : Nat)
    (ns : List Handle) :
    discardAll (fuel + 1) (n :: ns) h =
      discardAll (fuel + 1) ns (discardAll fuel nd.children (h.forget n)) := by
  rw [discardAll, List.foldl_cons, hn]
  rfl

/-- **Forgetting nodes forgets exactly what they carry.** The host may have changed elsewhere since
    it was known what they carry. -/
theorem discardAll_spec {h h' : Host} {ns ms : List Handle} (hc : Carries h ns ms)
    (hnodup : ms.Nodup) (hsame : ∀ m ∈ ms, h'.get? m = h.get? m) {fuel : Nat}
    (hfuel : ms.length ≤ fuel) :
    (discardAll fuel ns h').nodes.size = h'.nodes.size ∧
      ∀ m, (discardAll fuel ns h').get? m = if m ∈ ms then none else h'.get? m := by
  induction hc generalizing h' fuel with
  | nil =>
    have hnil : discardAll fuel [] h' = h' := by cases fuel <;> rfl
    rw [hnil]
    exact ⟨rfl, fun m => by rw [if_neg List.not_mem_nil]⟩
  | @cons n nd ns below rest hn _ _ ihbelow ihrest =>
    obtain ⟨hnot, hnodup⟩ := List.nodup_cons.mp hnodup
    obtain ⟨hbelow, hrest, hapart⟩ := List.nodup_append.mp hnodup
    rw [List.mem_append, not_or] at hnot
    rw [List.length_cons, List.length_append] at hfuel
    cases fuel with
    | zero => omega
    | succ fuel =>
      have hn' : h'.get? n = some nd := (hsame n List.mem_cons_self).trans hn
      -- what is below the node goes once the node itself is forgotten
      have hsame₁ : ∀ m ∈ below, (h'.forget n).get? m = h.get? m := by
        intro m hm
        have hmn : m ≠ n := fun e => hnot.1 (e ▸ hm)
        rw [get?_forget, if_neg hmn]
        exact hsame m (List.mem_cons_of_mem _ (List.mem_append_left _ hm))
      have hfuel₁ : below.length ≤ fuel := by omega
      obtain ⟨hsize₁, hget₁⟩ := ihbelow hbelow hsame₁ hfuel₁
      have hsame₂ : ∀ m ∈ rest, (discardAll fuel nd.children (h'.forget n)).get? m = h.get? m :=
        fun m hm => by
          have hmb : m ∉ below := fun e => hapart m e m hm rfl
          have hmn : m ≠ n := fun e => hnot.2 (e ▸ hm)
          rw [hget₁, if_neg hmb, get?_forget, if_neg hmn]
          exact hsame m (List.mem_cons_of_mem _ (List.mem_append_right _ hm))
      have hfuel₂ : rest.length ≤ fuel + 1 := by omega
      obtain ⟨hsize₂, hget₂⟩ := ihrest hrest hsame₂ hfuel₂
      rw [discardAll_cons hn']
      refine ⟨by rw [hsize₂, hsize₁, size_forget], fun m => ?_⟩
      rw [hget₂, hget₁, get?_forget]
      by_cases hr : m ∈ rest
      · rw [if_pos hr, if_pos (List.mem_cons_of_mem _ (List.mem_append_right _ hr))]
      · rw [if_neg hr]
        by_cases hb : m ∈ below
        · rw [if_pos hb, if_pos (List.mem_cons_of_mem _ (List.mem_append_left _ hb))]
        · rw [if_neg hb]
          by_cases he : m = n
          · rw [if_pos he, if_pos (he ▸ List.mem_cons_self)]
          · rw [if_neg he, if_neg]
            rw [List.mem_cons, List.mem_append]
            exact fun hm => hm.elim he fun hm => hm.elim hb hr

/-- Forgetting one node. -/
theorem discard_spec {h : Host} {n : Handle} {ms : List Handle} (hc : Carries h [n] ms)
    (hnodup : ms.Nodup) :
    (h.discard n).nodes.size = h.nodes.size ∧
      ∀ m, (h.discard n).get? m = if m ∈ ms then none else h.get? m :=
  discardAll_spec hc hnodup (fun _ _ => rfl) (length_le_size hnodup hc.known)

/-! ## 5. Moving and leaving -/

theorem append_spec {h : Host} {O : Handle → Prop} {p c : Handle} {np nc : HostNode}
    (ho : Around h O p) (hO : ¬ O c) (hp : h.get? p = some np) (hc : h.get? c = some nc)
    (hfree : nc.parent = none) (hnot : c ∉ np.children) :
    ∃ h', append p c h = (.ok (), h') ∧ h'.nodes.size = h.nodes.size ∧
      ∀ m, h'.get? m =
        if m = c then some { nc with parent := some p }
        else if m = p then some { np with children := np.children ++ [c] }
        else h.get? m := by
  obtain ⟨h', hrun, hsize, hget⟩ := attach_spec ho hO hp hc (.inr ⟨hfree, hnot⟩)
    fun r (hr : none = some r) => nomatch hr
  refine ⟨{ h' with log := .append p c :: h'.log }, ?_, hsize, fun m => ?_⟩
  · rw [append, Run.bind_ok hrun, record_apply]
  · rw [get?_log, hget, filter_ne_of_not_mem hnot]
    rfl

theorem insertBefore_spec {h : Host} {O : Handle → Prop} {p c : Handle} {np nc : HostNode}
    {before : Option Handle} (ho : Around h O p) (hO : ¬ O c) (hp : h.get? p = some np)
    (hc : h.get? c = some nc) (hat : nc.parent = some p ∨ nc.parent = none ∧ c ∉ np.children)
    (hbefore : ∀ r, before = some r → h.parent? r = some p ∧ r ≠ c) :
    ∃ h', insertBefore p c before h = (.ok (), h') ∧ h'.nodes.size = h.nodes.size ∧
      ∀ m, h'.get? m =
        if m = c then some { nc with parent := some p }
        else if m = p then
          some { np with children := placed (np.children.filter (· ≠ c)) c before }
        else h.get? m := by
  obtain ⟨h', hrun, hsize, hget⟩ := attach_spec ho hO hp hc hat hbefore
  refine ⟨{ h' with log := .insertBefore p c :: h'.log }, ?_, hsize, fun m => ?_⟩
  · rw [insertBefore, Run.bind_ok hrun, record_apply]
  · rw [get?_log, hget]

/-- **A child leaves with everything it carries.** -/
theorem remove_spec {h : Host} {p c : Handle} {np nc : HostNode} {ms : List Handle}
    (hp : h.get? p = some np) (hc : h.get? c = some nc) (hparent : nc.parent = some p)
    (hcarries : Carries h [c] ms) (hnodup : ms.Nodup) (hnot : p ∉ ms) :
    ∃ h', remove p c h = (.ok (), h') ∧ h'.nodes.size = h.nodes.size ∧
      ∀ m, h'.get? m =
        if m ∈ ms then none
        else if m = p then some { np with children := np.children.filter (· ≠ c) }
        else h.get? m := by
  have hcm : c ∈ ms := by cases hcarries with | cons => exact List.mem_cons_self
  have hpar : h.parent? c = some p := by rw [parent?_of_get? hc, hparent]
  obtain ⟨h₁, hrun, hsize₁, hget₁⟩ := unlink_of_child hc hp hparent fun e => hnot (e ▸ hcm)
  have hcarries₁ : Carries h₁ [c] ms := hcarries.of_children fun m hm => by
    have hmp : m ≠ p := fun e => hnot (e ▸ hm)
    rw [hget₁, if_neg hmp]
    split
    · rename_i e
      rw [e, hc]
      rfl
    · rfl
  obtain ⟨hsize₂, hget₂⟩ := discard_spec hcarries₁ hnodup
  refine ⟨{ h₁.discard c with log := .remove p c :: (h₁.discard c).log }, ?_, ?_, fun m => ?_⟩
  · rw [remove, Run.bind_ok (requireChild_apply hpar), Run.bind_ok hrun,
      Run.bind_ok (Run.modify_apply _ _), record_apply]
  · exact hsize₂.trans hsize₁
  · rw [get?_log, hget₂]
    by_cases hm : m ∈ ms
    · rw [if_pos hm, if_pos hm]
    · have hmc : m ≠ c := fun e => hm (e ▸ hcm)
      rw [if_neg hm, if_neg hm, hget₁, if_neg hmc]

/-- **A node takes the place of a child, which leaves with everything it carries.** -/
theorem replace_spec {h : Host} {O : Handle → Prop} {p new old : Handle} {np nn nc : HostNode}
    {ms : List Handle} (ho : Around h O p) (hO : ¬ O new) (hp : h.get? p = some np)
    (hnew : h.get? new = some nn) (hfree : nn.parent = none) (hnotin : new ∉ np.children)
    (hold : h.get? old = some nc) (hparent : nc.parent = some p)
    (hcarries : Carries h [old] ms) (hnodup : ms.Nodup) (hnot : p ∉ ms) (hnew' : new ∉ ms) :
    ∃ h', replace p new old h = (.ok (), h') ∧ h'.nodes.size = h.nodes.size ∧
      ∀ m, h'.get? m =
        if m ∈ ms then none
        else if m = new then some { nn with parent := some p }
        else if m = p then
          some { np with children := (placed np.children new (some old)).filter (· ≠ old) }
        else h.get? m := by
  have hom : old ∈ ms := by cases hcarries with | cons => exact List.mem_cons_self
  have hpar : h.parent? old = some p := by rw [parent?_of_get? hold, hparent]
  have hon : old ≠ new := fun e => hnew' (e ▸ hom)
  have hpo : p ≠ old := fun e => hnot (e ▸ hom)
  have hpn : p ≠ new := fun e => hO (e ▸ ho.self)
  obtain ⟨h₁, hrun₁, hsize₁, hget₁⟩ := attach_spec ho hO hp hnew (.inr ⟨hfree, hnotin⟩)
    (fun r (hr : some old = some r) => by
      rw [← Option.some.inj hr]
      exact ⟨hpar, hon⟩)
  rw [filter_ne_of_not_mem hnotin] at hget₁
  have hold₁ : h₁.get? old = some nc := by rw [hget₁, if_neg hon, if_neg hpo.symm, hold]
  have hp₁ : h₁.get? p = some { np with children := placed np.children new (some old) } := by
    rw [hget₁, if_neg hpn, if_pos rfl]
  obtain ⟨h₂, hrun₂, hsize₂, hget₂⟩ := unlink_of_child hold₁ hp₁ hparent hpo
  have hcarries₂ : Carries h₂ [old] ms := hcarries.of_children fun m hm => by
    have hmn : m ≠ new := fun e => hnew' (e ▸ hm)
    have hmp : m ≠ p := fun e => hnot (e ▸ hm)
    rw [hget₂, if_neg hmp]
    split
    · rename_i e
      rw [e, hold]
      rfl
    · rw [hget₁, if_neg hmn, if_neg hmp]
  obtain ⟨hsize₃, hget₃⟩ := discard_spec hcarries₂ hnodup
  refine ⟨{ h₂.discard old with log := .replace p new old :: (h₂.discard old).log }, ?_, ?_,
    fun m => ?_⟩
  · rw [replace, Run.bind_ok (requireChild_apply hpar), Run.bind_ok hrun₁, Run.bind_ok hrun₂,
      Run.bind_ok (Run.modify_apply _ _), record_apply]
  · exact hsize₃.trans (hsize₂.trans hsize₁)
  · rw [get?_log, hget₃]
    by_cases hm : m ∈ ms
    · rw [if_pos hm, if_pos hm]
    · have hmo : m ≠ old := fun e => hm (e ▸ hom)
      rw [if_neg hm, if_neg hm, hget₂, if_neg hmo, hget₁]
      by_cases hmn : m = new
      · rw [if_pos hmn, if_pos hmn, if_neg]
        exact fun e => hpn (e.symm.trans hmn)
      · rw [if_neg hmn, if_neg hmn]
        split <;> rfl

end Host

end Trellis
