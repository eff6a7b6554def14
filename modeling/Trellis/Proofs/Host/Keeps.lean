import Trellis.Proofs.Host.Held

/-!
# A tree kept in step with its host

`Mounted.Keeps` compares a tree with its host before and after a change, seen from the node that is the
parent of the tree in the host. Wherever a child stands below a node of the tree afterwards, the tree
lists it, or it stood there before without being listed; nodes at which this may fail are `lost`.
Beside the tree nothing comes to stand anywhere, but for a new top below the parent.

Such changes add up (`Keeps.trans`) and go from a child to its parent (`Keeps.child`). There are three
kinds of them at the node itself: its children become others (`keeps_children`), it loses sight of
all its children (`keeps_emptied`), another tree or nothing takes its place (`keeps_replaced`).
-/

namespace Trellis

open VNode

/-! ## 1. Sound trees -/

/-- A tree of distinct handles that were all given out, by a host that is a forest. -/
structure Mounted.Sound (m : Mounted) : Prop where
  forest : m.host.Forest
  nodup : m.node.held.Nodup
  lt : ∀ p ∈ m.node.held, p < m.host.nodes.size

namespace VNode

variable {c : VNode} {vs ws : List VNode} {m : Handle}

theorem heldAll_perm (h : vs.Perm ws) : (heldAll vs).Perm (heldAll ws) := by
  rw [heldAll_eq_flatMap, heldAll_eq_flatMap]
  exact h.flatMap_right _

theorem mem_heldAll_cons (h : vs.Perm (c :: ws)) :
    m ∈ heldAll vs ↔ m ∈ c.held ∨ m ∈ heldAll ws := by
  rw [(heldAll_perm h).mem_iff, heldAll, List.mem_append]

theorem nodup_heldAll_cons (h : vs.Perm (c :: ws)) :
    (heldAll vs).Nodup ↔ c.held.Nodup ∧ (heldAll ws).Nodup ∧ ∀ m ∈ c.held, m ∉ heldAll ws := by
  rw [(heldAll_perm h).nodup_iff, heldAll, List.nodup_append]
  constructor
  · rintro ⟨hc, hws, hapart⟩
    exact ⟨hc, hws, fun m hm hm' => hapart m hm m hm' rfl⟩
  · rintro ⟨hc, hws, hapart⟩
    exact ⟨hc, hws, fun m hm m' hm' e => hapart m hm (e ▸ hm')⟩

end VNode

namespace Mounted

variable {h h' : Host} {v v' c c' : VNode} {vs : List VNode} {n parent : Handle}
  {lost : Handle → Prop}

namespace Sound

theorem child (hs : Sound ⟨h, v⟩) (hc : c ∈ v.children) : Sound ⟨h, c⟩ where
  forest := hs.forest
  nodup := nodup_of_mem_heldAll (nodup_held_iff.mp hs.nodup).1 hc
  lt p hp := hs.lt p (mem_held_of_child hc hp)

theorem top_lt (hs : Sound ⟨h, v⟩) (hv : v.host = some n) : n < h.nodes.size :=
  hs.lt n (mem_held_of_host hv)

theorem top_not_below (hs : Sound ⟨h, v⟩) (hv : v.host = some n) : n ∉ heldAll v.children :=
  (nodup_held_iff.mp hs.nodup).2 n hv

end Sound

/-! ## 2. Changes that keep a tree in step -/

/-- From before to after a change the tree stays in step with the host. -/
structure Keeps (parent : Handle) (lost : Handle → Prop) (m m' : Mounted) : Prop where
  sound : m'.Sound
  size_le : m.host.nodes.size ≤ m'.host.nodes.size
  held : ∀ p ∈ m'.node.held, p ∈ m.node.held ∨ m.host.nodes.size ≤ p
  /-- What comes to stand below a node that is not of the tree is a new top below the parent. -/
  outside : ∀ q k, q ∉ m.node.held → q < m.host.nodes.size → m'.host.parent? k = some q →
    m.host.parent? k = some q ∨ q = parent ∧ m'.node.host = some k
  /-- An old top is no longer below the parent. -/
  top : ∀ k, parent ∉ m.node.held → parent < m.host.nodes.size → m.node.host = some k →
    m'.host.parent? k = some parent → m'.node.host = some k
  listed : ∀ p k, p ∈ m'.node.held → ¬ lost p → m'.host.parent? k = some p →
    m'.node.Lists p k ∨ m.host.parent? k = some p ∧ ¬ m.node.Lists p k

/-- A change after which no node is lost. -/
abbrev InStep (parent : Handle) (m m' : Mounted) : Prop := Keeps parent (fun _ => False) m m'

theorem Keeps.mono {lost' : Handle → Prop} {m m' : Mounted} (a : Keeps parent lost m m')
    (hlost : ∀ p, lost p → lost' p) : Keeps parent lost' m m' :=
  { a with listed := fun p k hp hl => a.listed p k hp fun hp' => hl (hlost p hp') }

theorem InStep.refl {m : Mounted} (hs : m.Sound) : InStep parent m m where
  sound := hs
  size_le := Nat.le_refl _
  held _ hp := .inl hp
  outside _ _ _ _ hk := .inl hk
  top _ _ _ hk _ := hk
  listed p k _ _ hk := by
    by_cases hl : m.node.Lists p k
    · exact .inl hl
    · exact .inr ⟨hk, hl⟩

/-- **Changes add up.** -/
theorem Keeps.trans {m m' m'' : Mounted} (a : InStep parent m m') (b : Keeps parent lost m' m'') :
    Keeps parent lost m m'' := by
  -- a node that is not of the first tree and not new is not of the second one either
  have hnot : ∀ {q}, q ∉ m.node.held → q < m.host.nodes.size → q ∉ m'.node.held :=
    fun hq hlt hq' => (a.held _ hq').elim hq (Nat.not_le.mpr hlt)
  refine ⟨b.sound, Nat.le_trans a.size_le b.size_le, fun p hp => ?_, fun q k hq hlt hk => ?_,
    fun k hq hlt hk hk' => ?_, fun p k hp hl hk => ?_⟩
  · rcases b.held p hp with hp | hge
    · exact a.held p hp
    · exact .inr (Nat.le_trans a.size_le hge)
  · have hlt' := Nat.lt_of_lt_of_le hlt a.size_le
    rcases b.outside q k (hnot hq hlt) hlt' hk with hk' | hnew
    · rcases a.outside q k hq hlt hk' with hk'' | ⟨rfl, htop⟩
      · exact .inl hk''
      · exact .inr ⟨rfl, b.top k (hnot hq hlt) hlt' htop hk⟩
    · exact .inr hnew
  · have hlt' := Nat.lt_of_lt_of_le hlt a.size_le
    rcases b.outside parent k (hnot hq hlt) hlt' hk' with hk'' | ⟨-, hnew⟩
    · exact b.top k (hnot hq hlt) hlt' (a.top k hq hlt hk hk'') hk'
    · exact hnew
  · rcases b.listed p k hp hl hk with hlists | ⟨hk', hnl⟩
    · exact .inl hlists
    · rcases b.held p hp with hp' | hge
      · exact .inr ((a.listed p k hp' not_false hk').resolve_left hnl)
      · exact absurd (a.sound.forest.parent_lt hk') (Nat.not_lt.mpr hge)

/-! ## 3. Changes of the children -/

/-- **The children become others.** Every one of them was there before or is new as a whole; what has
    come to stand below the node is among them, and a child that is not among them has gone. -/
theorem keeps_children (hs : Sound ⟨h, v⟩) (hv : v.host = some n) (hv' : v'.host = some n)
    (hg : Host.Gains h (fun q k => (q = n ∧ ∃ c ∈ v'.children, c.host = some k) ∨
      h.nodes.size ≤ q ∧ (q ∈ heldAll v'.children → ∃ c ∈ v'.children, c.Lists q k)) h')
    (hnodup : (heldAll v'.children).Nodup)
    (hmem : ∀ c ∈ v'.children,
      c ∈ v.children ∨ ∀ q ∈ c.held, h.nodes.size ≤ q ∧ q < h'.nodes.size)
    (hgone : ∀ c ∈ v.children, c ∉ v'.children → ∀ k, c.host = some k → h'.parent? k ≠ some n) :
    InStep parent ⟨h, v⟩ ⟨h', v'⟩ := by
  have hnlt := hs.top_lt hv
  have hlt : ∀ q ∈ heldAll v'.children, q ∈ heldAll v.children ∨ h.nodes.size ≤ q := by
    intro q hq
    obtain ⟨c, hc, hqc⟩ := mem_heldAll.mp hq
    exact (hmem c hc).imp (fun hc => mem_heldAll.mpr ⟨c, hc, hqc⟩) fun hnew => (hnew q hqc).1
  have hheld : ∀ {q}, q ∈ v'.held → q = n ∨ q ∈ heldAll v'.children := by
    intro q hq
    rw [held_eq, hv', List.mem_append] at hq
    exact hq.imp_left List.mem_singleton.mp
  refine ⟨⟨hg.forest, nodup_held_iff.mpr ⟨hnodup, fun q hq hq' => ?_⟩, fun q hq => ?_⟩, hg.size_le,
    fun q hq => ?_, fun q k hq hqlt hk => ?_, fun k _ _ hk _ => ?_, fun p k hp _ hk => ?_⟩
  · rw [hv', Option.some.injEq] at hq
    subst hq
    rcases hlt n hq' with hmem | hge
    · exact hs.top_not_below hv hmem
    · exact Nat.not_lt.mpr hge hnlt
  · rcases hheld hq with rfl | hq
    · exact Nat.lt_of_lt_of_le hnlt hg.size_le
    · obtain ⟨c, hc, hqc⟩ := mem_heldAll.mp hq
      rcases hmem c hc with hc | hnew
      · exact Nat.lt_of_lt_of_le (hs.lt q (mem_held_of_child hc hqc)) hg.size_le
      · exact (hnew q hqc).2
  · rcases hheld hq with rfl | hq
    · exact .inl (mem_held_of_host hv)
    · exact (hlt q hq).imp_left fun hq => mem_held_iff.mpr (.inr (mem_heldAll.mp hq))
  · refine .inl (hg.parent_of ?_ hk)
    rintro (⟨rfl, -⟩ | ⟨hge, -⟩)
    · exact hq (mem_held_of_host hv)
    · exact Nat.not_lt.mpr hge hqlt
  · exact hv'.trans (hv.symm.trans hk)
  · rcases hg.parent hk with hk₀ | ⟨rfl, hlisted⟩ | ⟨hge, hlisted⟩
    · by_cases hl : v.Lists p k
      · refine .inl (lists_iff.mpr ?_)
        have hplt := hs.lt p hl.mem_held
        rcases lists_iff.mp hl with ⟨hp', c, hc, hck⟩ | ⟨c, hc, hl⟩
        · obtain rfl : n = p := Option.some.inj (hv.symm.trans hp')
          by_cases hc' : c ∈ v'.children
          · exact .inl ⟨hv', c, hc', hck⟩
          · exact absurd hk (hgone c hc hc' k hck)
        · -- the child that holds the node is still there, for it holds an old handle
          have hpn : p ≠ n := fun e => hs.top_not_below hv (e ▸ mem_heldAll.mpr ⟨c, hc, hl.mem_held⟩)
          obtain ⟨d, hd, hpd⟩ := mem_heldAll.mp ((hheld hp).resolve_left hpn)
          rcases hmem d hd with hdv | hnew
          · obtain rfl := eq_of_mem_held (nodup_held_iff.mp hs.nodup).1 hdv hc hpd hl.mem_held
            exact .inr ⟨d, hd, hl⟩
          · exact absurd hplt (Nat.not_lt.mpr (hnew p hpd).1)
      · exact .inr ⟨hk₀, hl⟩
    · exact .inl (lists_iff.mpr (.inl ⟨hv', hlisted⟩))
    · have hpn : p ≠ n := fun e => Nat.not_lt.mpr hge (e ▸ hnlt)
      exact .inl (lists_iff.mpr (.inr (hlisted ((hheld hp).resolve_left hpn))))

/-- The children stay as they are, and so does all that stands below nodes that are not new. -/
theorem keeps_same (hs : Sound ⟨h, v⟩) (hv : v.host = some n) (hv' : v'.host = v.host)
    (hch : v'.children = v.children) {new : Handle → Handle → Prop} (hg : Host.Gains h new h')
    (hnew : ∀ q k, new q k → h.nodes.size ≤ q) : InStep parent ⟨h, v⟩ ⟨h', v'⟩ := by
  have hbelow := (nodup_held_iff.mp hs.nodup).1
  refine keeps_children hs hv (hv'.trans hv) ⟨hg.forest, hg.size_le, fun {q k} hk => ?_⟩
    (hch ▸ hbelow) (fun c hc => .inl (hch ▸ hc)) fun c hc hc' => absurd (hch ▸ hc) hc'
  rcases hg.parent hk with hk | hqk
  · exact .inl hk
  · refine .inr (.inr ⟨hnew q k hqk, fun hq => ?_⟩)
    have hlt := hs.lt q (mem_held_iff.mpr (.inr (mem_heldAll.mp (hch ▸ hq))))
    exact absurd hlt (Nat.not_lt.mpr (hnew q k hqk))

/-- **A node that loses sight of its children** is lost; what is below it is no more of the tree. -/
theorem keeps_emptied (hs : Sound ⟨h, v⟩) (hv : v.host = some n) :
    Keeps parent (· = n) ⟨h, v⟩ ⟨h, { v with children := [] }⟩ := by
  have hheld : held { v with children := [] } = [n] := by
    rw [held_eq]
    show v.host.toList ++ [] = [n]
    rw [hv]
    rfl
  have hmem : ∀ {q}, q ∈ held { v with children := [] } → q = n := fun hq =>
    List.mem_singleton.mp (hheld ▸ hq)
  refine ⟨⟨hs.forest, ?_, fun q hq => ?_⟩, Nat.le_refl _, fun q hq => ?_, fun _ _ _ _ hk => .inl hk,
    fun _ _ _ hk _ => hk, fun p k hp hl _ => absurd (hmem hp) hl⟩
  · exact hheld ▸ List.nodup_singleton n
  · exact hmem hq ▸ hs.top_lt hv
  · exact .inl (hmem hq ▸ mem_held_of_host hv)

/-! ## 4. Changes of the whole tree -/

/-- **A new tree takes the place of the old one**, or a tree that stands nowhere: the old top has gone
    from the parent, and the new one may have come there. -/
theorem keeps_replaced {new : Handle → Handle → Prop} (hg : Host.Gains h new h')
    (hnodup : v'.held.Nodup) (hfresh : ∀ q ∈ v'.held, h.nodes.size ≤ q ∧ q < h'.nodes.size)
    (hnew : ∀ q k, new q k → (q = parent ∧ v'.host = some k ∧ q < h.nodes.size) ∨
      h.nodes.size ≤ q ∧ (q ∈ v'.held → v'.Lists q k))
    (hgone : ∀ k, v.host = some k → h'.parent? k ≠ some parent) (hf : h.Forest) :
    InStep parent ⟨h, v⟩ ⟨h', v'⟩ := by
  refine ⟨⟨hg.forest, hnodup, fun q hq => (hfresh q hq).2⟩, hg.size_le, fun q hq => .inr (hfresh q hq).1,
    fun q k _ hlt hk => ?_, fun k _ _ hk hk' => absurd hk' (hgone k hk), fun p k hp _ hk => ?_⟩
  · rcases hg.parent hk with hk | hqk
    · exact .inl hk
    · rcases hnew q k hqk with ⟨hq, htop, -⟩ | ⟨hge, -⟩
      · exact .inr ⟨hq, htop⟩
      · exact absurd hlt (Nat.not_lt.mpr hge)
  · have hge := (hfresh p hp).1
    rcases hg.parent hk with hk | hpk
    · exact absurd (hf.parent_lt hk) (Nat.not_lt.mpr hge)
    · rcases hnew p k hpk with ⟨-, -, hlt⟩ | ⟨-, hlists⟩
      · exact absurd hlt (Nat.not_lt.mpr hge)
      · exact .inl (hlists hp)

/-- **What keeps a child in step keeps its parent in step**: seen from the parent nothing has changed
    but what the child lists, and the top of the child. -/
theorem Keeps.child {rest : List VNode} (hs : Sound ⟨h, v⟩) (hv : v.host = some n)
    (hv' : v'.host = v.host) (hch : v.children.Perm (c :: rest))
    (hch' : v'.children.Perm (c' :: rest)) (a : Keeps n lost ⟨h, c⟩ ⟨h', c'⟩) :
    Keeps parent lost ⟨h, v⟩ ⟨h', v'⟩ := by
  obtain ⟨hbelow, htop⟩ := nodup_held_iff.mp hs.nodup
  obtain ⟨-, hrest, hapart⟩ := (nodup_heldAll_cons hch).mp hbelow
  have hnlt := hs.top_lt hv
  have hnot := hs.top_not_below hv
  rw [mem_heldAll_cons hch, not_or] at hnot
  have hold : ∀ {q}, q ∈ heldAll rest → q < h.nodes.size := fun hq =>
    hs.lt _ (mem_held_iff.mpr (.inr (mem_heldAll.mp ((mem_heldAll_cons hch).mpr (.inr hq)))))
  have hc : c ∈ v.children := hch.mem_iff.mpr List.mem_cons_self
  have hc' : c' ∈ v'.children := hch'.mem_iff.mpr List.mem_cons_self
  have hothers : ∀ {d}, d ∈ rest → d ∈ v.children ∧ d ∈ v'.children := fun hd =>
    ⟨hch.mem_iff.mpr (List.mem_cons_of_mem _ hd), hch'.mem_iff.mpr (List.mem_cons_of_mem _ hd)⟩
  have hheld : ∀ {q}, q ∈ v'.held → q = n ∨ q ∈ c'.held ∨ q ∈ heldAll rest := by
    intro q hq
    rw [held_eq, hv', hv, List.mem_append, mem_heldAll_cons hch'] at hq
    exact hq.imp_left List.mem_singleton.mp
  refine ⟨⟨a.sound.forest, nodup_held_iff.mpr ⟨(nodup_heldAll_cons hch').mpr
    ⟨a.sound.nodup, hrest, fun q hq hq' => ?_⟩, fun q hq hq' => ?_⟩, fun q hq => ?_⟩, a.size_le,
    fun q hq => ?_, fun q k hq hlt hk => ?_, fun k _ _ hk _ => hv'.trans hk, fun p k hp hl hk => ?_⟩
  · rcases a.held q hq with hqc | hge
    · exact hapart q hqc hq'
    · exact Nat.not_lt.mpr hge (hold hq')
  · rw [hv', hv, Option.some.injEq] at hq
    subst hq
    rcases (mem_heldAll_cons hch').mp hq' with hq' | hq'
    · exact (a.held n hq').elim hnot.1 (Nat.not_le.mpr hnlt)
    · exact hnot.2 hq'
  · rcases hheld hq with rfl | hq | hq
    · exact Nat.lt_of_lt_of_le hnlt a.size_le
    · exact a.sound.lt q hq
    · exact Nat.lt_of_lt_of_le (hold hq) a.size_le
  · rcases hheld hq with rfl | hq | hq
    · exact .inl (mem_held_of_host hv)
    · exact (a.held q hq).imp_left (mem_held_of_child hc)
    · exact .inl (mem_held_iff.mpr (.inr (mem_heldAll.mp ((mem_heldAll_cons hch).mpr (.inr hq)))))
  · rcases a.outside q k (fun hqc => hq (mem_held_of_child hc hqc)) hlt hk with hk | ⟨rfl, -⟩
    · exact .inl hk
    · exact absurd (mem_held_of_host hv) hq
  · have hlists : ∀ {d}, d ∈ v.children → p ∈ d.held → ∀ {q}, v.Lists p q → d.Lists p q :=
      fun hd hpd _ => lists_of_mem_held hs.nodup hd hpd
    rcases hheld hp with rfl | hp | hp
    · -- at the node itself: its children are the same ones, but for the top of this child
      rcases a.outside p k hnot.1 hnlt hk with hk₀ | ⟨-, htop'⟩
      · by_cases hl : v.Lists p k
        · obtain ⟨d, hd, hdk⟩ := (lists_top_iff hs.nodup hv).mp hl
          refine .inl (lists_iff.mpr (.inl ⟨hv'.trans hv, ?_⟩))
          rcases List.mem_cons.mp (hch.mem_iff.mp hd) with rfl | hd
          · exact ⟨c', hc', a.top k hnot.1 hnlt hdk hk⟩
          · exact ⟨d, (hothers hd).2, hdk⟩
        · exact .inr ⟨hk₀, hl⟩
      · exact .inl (lists_iff.mpr (.inl ⟨hv'.trans hv, c', hc', htop'⟩))
    · rcases a.listed p k hp hl hk with hl' | ⟨hk₀, hnl⟩
      · exact .inl (hl'.of_child hc')
      · refine .inr ⟨hk₀, fun hl' => hnl (hlists hc ?_ hl')⟩
        exact (a.held p hp).resolve_right (Nat.not_le.mpr (hs.forest.parent_lt hk₀))
    · obtain ⟨d, hd, hpd⟩ := mem_heldAll.mp hp
      have hpc : p ∉ c.held := fun hpc => hapart p hpc hp
      have hpn : p ≠ n := fun e => hnot.2 (e ▸ hp)
      have hk₀ := (a.outside p k hpc (hold hp) hk).resolve_right fun e => hpn e.1
      by_cases hl : v.Lists p k
      · exact .inl ((hlists (hothers hd).1 hpd hl).of_child (hothers hd).2)
      · exact .inr ⟨hk₀, hl⟩

end Mounted

end Trellis
