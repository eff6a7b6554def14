import Mathlib.Data.List.Nodup
import Mathlib.Data.List.Pairwise
import Trellis.Proofs.Host.Gains
import Trellis.Proofs.Host.Render

/-!
# What a virtual tree says about the host

A virtual tree, whatever its texts hold, is looked at from two sides. `VNode.held` are all handles in
it, and `VNode.Lists v p k` says that the node with handle `p` has a child with handle `k`.

- `mem_held_iff`, `lists_iff`: both at the top of a tree,
- `eq_of_mem_held`, `Inside.unique`: where handles are distinct, each belongs to one node,
- `held_of_render`: a rendered tree holds the handles of the nodes that show it, when there is none
  below its texts,
- `render_fresh`: rendering a tree with bare texts gains the host what the rendered tree lists, all
  of it new.
-/

namespace Trellis

namespace VNode

/-! ## 1. The nodes of a tree -/

/-- A node is the top of a tree or below it. -/
inductive Inside : VNode → VNode → Prop
  | here (v : VNode) : Inside v v
  | deeper {u c v : VNode} (child : c ∈ v.children) (inside : Inside u c) : Inside u v

mutual

/-- All handles in a tree, each node before what is below it. -/
def held : VNode → List Handle
  | ⟨_, _, _, _, _, _, _, children, host⟩ => host.toList ++ heldAll children

/-- All handles in trees. -/
def heldAll : List VNode → List Handle
  | [] => []
  | v :: vs => held v ++ heldAll vs

end

/-- The node with a handle has a child with another one. -/
def Lists (v : VNode) (p k : Handle) : Prop :=
  ∃ u, Inside u v ∧ u.host = some p ∧ ∃ c ∈ u.children, c.host = some k

section

variable {u u' v : VNode} {vs : List VNode} {m p k : Handle}

theorem held_eq (v : VNode) : v.held = v.host.toList ++ heldAll v.children := by
  cases v
  rw [held]

theorem heldAll_eq_flatMap (vs : List VNode) : heldAll vs = vs.flatMap held := by
  induction vs with
  | nil => rfl
  | cons v vs ih => rw [heldAll, ih, List.flatMap_cons]

theorem mem_heldAll : m ∈ heldAll vs ↔ ∃ v ∈ vs, m ∈ v.held := by
  rw [heldAll_eq_flatMap, List.mem_flatMap]

theorem mem_held_iff : m ∈ v.held ↔ v.host = some m ∨ ∃ c ∈ v.children, m ∈ c.held := by
  rw [held_eq, List.mem_append, Option.mem_toList, mem_heldAll]

theorem mem_held_of_host (hm : v.host = some m) : m ∈ v.held := mem_held_iff.mpr (.inl hm)

theorem mem_held_of_child {c : VNode} (hc : c ∈ v.children) (hm : m ∈ c.held) : m ∈ v.held :=
  mem_held_iff.mpr (.inr ⟨c, hc, hm⟩)

theorem Inside.mem_held (hu : u.Inside v) (hm : u.host = some m) : m ∈ v.held := by
  induction hu with
  | here => exact mem_held_of_host hm
  | deeper child _ ih => exact mem_held_of_child child ih

/-- **What a tree lists**: the children of its top, or what one of them lists. -/
theorem lists_iff : v.Lists p k ↔
    (v.host = some p ∧ ∃ c ∈ v.children, c.host = some k) ∨ ∃ c ∈ v.children, c.Lists p k := by
  constructor
  · rintro ⟨u, hu, hp, hk⟩
    cases hu with
    | here => exact .inl ⟨hp, hk⟩
    | deeper child inside => exact .inr ⟨_, child, u, inside, hp, hk⟩
  · rintro (⟨hp, hk⟩ | ⟨c, hc, u, hu, hp, hk⟩)
    · exact ⟨v, .here v, hp, hk⟩
    · exact ⟨u, .deeper hc hu, hp, hk⟩

theorem Lists.of_child {c : VNode} (hc : c ∈ v.children) (hl : c.Lists p k) : v.Lists p k :=
  lists_iff.mpr (.inr ⟨c, hc, hl⟩)

theorem Lists.mem_held (hl : v.Lists p k) : p ∈ v.held := by
  obtain ⟨u, hu, hp, -⟩ := hl
  exact hu.mem_held hp

/-! ## 2. Distinct handles -/

theorem nodup_held_iff : v.held.Nodup ↔
    (heldAll v.children).Nodup ∧ ∀ m, v.host = some m → m ∉ heldAll v.children := by
  rw [held_eq]
  cases v.host with
  | none => simp
  | some n => simp [and_comm]

theorem nodup_of_mem_heldAll {c : VNode} (h : (heldAll vs).Nodup) (hc : c ∈ vs) : c.held.Nodup := by
  rw [heldAll_eq_flatMap, List.nodup_flatMap] at h
  exact h.1 c hc

/-- A handle is in one of the trees only. -/
theorem eq_of_mem_held {c d : VNode} (h : (heldAll vs).Nodup) (hc : c ∈ vs) (hd : d ∈ vs)
    (hmc : m ∈ c.held) (hmd : m ∈ d.held) : c = d := by
  rw [heldAll_eq_flatMap, List.nodup_flatMap] at h
  by_contra hne
  have : Std.Symm (Function.onFun List.Disjoint held) := ⟨fun _ _ hxy _ hx hy => hxy hy hx⟩
  exact h.2.forall hc hd hne hmc hmd

/-- A handle belongs to one node of a tree. -/
theorem Inside.unique (hu : u.Inside v) (h : v.held.Nodup) (hu' : u'.Inside v)
    (hm : u.host = some m) (hm' : u'.host = some m) : u = u' := by
  induction hu with
  | here =>
    cases hu' with
    | here => rfl
    | deeper child inside =>
      exact absurd (mem_heldAll.mpr ⟨_, child, inside.mem_held hm'⟩) ((nodup_held_iff.mp h).2 m hm)
  | @deeper c v child inside ih =>
    obtain ⟨hbelow, htop⟩ := nodup_held_iff.mp h
    have hmc := inside.mem_held hm
    cases hu' with
    | here => exact absurd (mem_heldAll.mpr ⟨c, child, hmc⟩) (htop m hm')
    | deeper child' inside' =>
      obtain rfl := eq_of_mem_held hbelow child child' hmc (inside'.mem_held hm')
      exact ih (nodup_of_mem_heldAll hbelow child) inside'

/-- Where handles are distinct, it is the one node with the handle that lists its children. -/
theorem Inside.lists_iff (hu : u.Inside v) (h : v.held.Nodup) (hp : u.host = some p) :
    v.Lists p k ↔ ∃ c ∈ u.children, c.host = some k := by
  constructor
  · rintro ⟨u', hu', hp', hk⟩
    obtain rfl := hu.unique h hu' hp hp'
    exact hk
  · exact fun hk => ⟨u, hu, hp, hk⟩

/-- Of the children of a node the one that holds a handle lists what is below it. -/
theorem lists_of_mem_held {c : VNode} (h : v.held.Nodup) (hc : c ∈ v.children) (hp : p ∈ c.held)
    (hl : v.Lists p k) : c.Lists p k := by
  obtain ⟨hbelow, htop⟩ := nodup_held_iff.mp h
  rcases VNode.lists_iff.mp hl with ⟨hhost, -⟩ | ⟨d, hd, hl⟩
  · exact absurd (mem_heldAll.mpr ⟨c, hc, hp⟩) (htop p hhost)
  · exact eq_of_mem_held hbelow hd hc hl.mem_held hp ▸ hl

/-- The top of a tree lists its children, and nothing else does under its handle. -/
theorem lists_top_iff (h : v.held.Nodup) (hp : v.host = some p) :
    v.Lists p k ↔ ∃ c ∈ v.children, c.host = some k := (Inside.here v).lists_iff h hp

end

/-! ## 3. Bare texts -/

mutual

/-- Nothing below a text has a host node. -/
def bareTexts : VNode → Bool
  | ⟨kind, _, _, _, _, _, _, children, _⟩ =>
    if kind = .text then (heldAll children).isEmpty else bareTextsAll children

/-- Nothing below a text has a host node, in any of the trees. -/
def bareTextsAll : List VNode → Bool
  | [] => true
  | v :: vs => bareTexts v && bareTextsAll vs

end

theorem bareTextsAll_iff {vs : List VNode} :
    bareTextsAll vs = true ↔ ∀ v ∈ vs, v.bareTexts = true := by
  induction vs with
  | nil => simp [bareTextsAll]
  | cons v vs ih => rw [bareTextsAll, Bool.and_eq_true, ih, List.forall_mem_cons]

end VNode

/-- A run that ends well has come through its first part. -/
theorem Run.of_bind_ok {σ α β : Type} {act : ExceptT HostError (StateM σ) α}
    {f : α → ExceptT HostError (StateM σ) β} {s s'' : σ} {b : β}
    (h : (act >>= f) s = (.ok b, s'')) : ∃ a s', act s = (.ok a, s') ∧ f a s' = (.ok b, s'') := by
  rw [Run.bind_apply] at h
  cases e : act s with
  | mk r s' =>
    rw [e] at h
    cases r with
    | error err => cases congrArg Prod.fst h
    | ok a => exact ⟨a, s', rfl, h⟩

namespace Host

open VNode

theorem heldAll_of_renderInto {vs : List VNode}
    (hvs : ∀ v ∈ vs, ∀ {h h' : Host} {n : Handle} {w : VNode},
      render v h = (.ok (n, w), h') → w.held = w.handles)
    {h h' : Host} {parent : Handle} {ws : List VNode} (hrun : renderInto parent vs h = (.ok ws, h')) :
    heldAll ws = handlesAll ws := by
  induction vs generalizing h h' ws with
  | nil =>
    obtain rfl : [] = ws := Except.ok.inj (congrArg Prod.fst hrun)
    rfl
  | cons v vs ih =>
    rw [renderInto] at hrun
    obtain ⟨⟨n, w⟩, h₁, hrender, hrun⟩ := Run.of_bind_ok hrun
    obtain ⟨-, h₂, -, hrun⟩ := Run.of_bind_ok hrun
    obtain ⟨ws', h₃, hrest, hrun⟩ := Run.of_bind_ok hrun
    obtain rfl : w :: ws' = ws := Except.ok.inj (congrArg Prod.fst hrun)
    rw [heldAll, handlesAll, hvs v List.mem_cons_self hrender,
      ih (fun c hc => hvs c (List.mem_cons_of_mem _ hc)) hrest]

/-- **A rendered tree holds the handles of its host nodes and no others**: a text keeps what it holds,
    all else is made anew. -/
theorem held_of_render {v : VNode} (hv : v.bareTexts = true) {h h' : Host} {n : Handle} {w : VNode}
    (hrun : render v h = (.ok (n, w), h')) : w.held = w.handles := by
  induction v using VNode.induction generalizing h h' n w with
  | h v ih =>
    obtain ⟨kind, tag, component, content, key, attrs, events, children, host⟩ := v
    rw [bareTexts] at hv
    rw [render, Run.bind_ok (create_apply _ h)] at hrun
    by_cases hkind : kind = .text
    · rw [if_pos hkind, List.isEmpty_iff] at hv
      rw [if_pos hkind] at hrun
      obtain ⟨-, rfl⟩ := Prod.mk.inj (Except.ok.inj (congrArg Prod.fst hrun))
      rw [held, handles, hv, if_pos hkind]
    · rw [if_neg hkind, bareTextsAll_iff] at hv
      rw [if_neg hkind] at hrun
      obtain ⟨-, h₁, -, hrun⟩ := Run.of_bind_ok hrun
      obtain ⟨-, h₂, -, hrun⟩ := Run.of_bind_ok hrun
      obtain ⟨ws, h₃, hinto, hrun⟩ := Run.of_bind_ok hrun
      obtain ⟨-, rfl⟩ := Prod.mk.inj (Except.ok.inj (congrArg Prod.fst hrun))
      rw [held, handles, if_neg hkind,
        heldAll_of_renderInto (fun c hc _ _ _ _ hrender => ih c hc (hv c hc) hrender) hinto]

/-! ## 4. Rendering -/

/-- A run that leaves a forest where it found one, whether it ends well or not. -/
def KeepsForest {α : Type} (act : HostM α) : Prop := ∀ h : Host, h.Forest → (act h).2.Forest

section

variable {α β : Type}

theorem KeepsForest.of_gaining {new : Handle → Handle → Prop} {act : HostM Unit}
    (hact : ∀ h : Host, h.Forest → Gaining new act h) : KeepsForest act :=
  fun h hf => ((hact h hf).gains hf).forest

theorem KeepsForest.pure (a : α) : KeepsForest (pure a : HostM α) := fun _ hf => hf

theorem KeepsForest.bind {act : HostM α} {f : α → HostM β} (hact : KeepsForest act)
    (hf : ∀ a, KeepsForest (f a)) : KeepsForest (act >>= f) := by
  intro h hforest
  have hfirst := hact h hforest
  rw [Run.bind_apply]
  cases e : act h with
  | mk r h₁ =>
    rw [e] at hfirst
    cases r with
    | error err => exact hfirst
    | ok a => exact hf a h₁ hfirst

theorem KeepsForest.forM {act : α → HostM Unit} (hact : ∀ a, KeepsForest (act a)) (as : List α) :
    KeepsForest (as.forM act) := by
  induction as with
  | nil => exact .pure ()
  | cons a as ih => exact (hact a).bind fun _ => ih

end

theorem keepsForest_create (content : Content) : KeepsForest (create content) := fun h hf => by
  rw [create_apply]
  exact hf.push content _

theorem keepsForest_append (p c : Handle) : KeepsForest (append p c) :=
  .of_gaining fun _ hf => hf.append_gaining p c

theorem keepsForest_renderInto {vs : List VNode} (hvs : ∀ v ∈ vs, KeepsForest (render v))
    (parent : Handle) : KeepsForest (renderInto parent vs) := by
  induction vs with
  | nil => exact .pure []
  | cons v vs ih =>
    rw [renderInto]
    exact (hvs v List.mem_cons_self).bind fun p => (keepsForest_append parent p.1).bind fun _ =>
      (ih fun c hc => hvs c (List.mem_cons_of_mem _ hc)).bind fun cs => .pure _

theorem keepsForest_render (v : VNode) : KeepsForest (render v) := by
  induction v using VNode.induction with
  | h v ih =>
    obtain ⟨kind, tag, component, content, key, attrs, events, children, host⟩ := v
    rw [render]
    refine (keepsForest_create _).bind fun n => ?_
    split
    · exact .pure _
    · refine (KeepsForest.forM (fun a => ?_) attrs).bind fun _ =>
        (KeepsForest.forM (fun b => ?_) (Events.all events)).bind fun _ =>
          (keepsForest_renderInto ih n).bind fun ws => .pure _
      · exact .of_gaining fun _ hf => setAttr_gaining hf n a.name a.value
      · exact .of_gaining fun _ hf => listen_gaining hf n b

theorem keepsForest_mount (container : Handle) (tree : VNode) :
    KeepsForest (mount container tree) := by
  rw [mount]
  split
  · exact (keepsForest_renderInto (fun v _ => keepsForest_render v) container).bind fun ws => .pure _
  · exact (keepsForest_render tree).bind fun p => (keepsForest_append container p.1).bind fun _ =>
      .pure _

section

variable {h h' : Host}

/-- A tree that is shown lists what stands below its nodes. -/
theorem Shows.lists {top : Option Handle} {v : VNode} (hs : Shows h top v) (hf : h.Forest)
    {q k : Handle} (hq : q ∈ v.handles) (hk : h.parent? k = some q) : v.Lists q k := by
  induction hs with
  | @mk p v n nd host node content parent attrs listeners children below ih =>
    rw [VNode.handles_eq host, List.mem_cons] at hq
    rcases hq with rfl | hq
    · have hmem := (hf.mem_children_iff q k).mpr hk
      rw [children_of_get? node, children, List.mem_map] at hmem
      obtain ⟨c, hc, rfl⟩ := hmem
      exact ⟨v, .here v, host, c, mem_children_of_mem_shown hc, (below c hc).host_eq⟩
    · obtain ⟨c, hc, hqc⟩ := mem_handlesAll.mp hq
      exact (ih c hc hqc).of_child (mem_children_of_mem_shown hc)

/-- A rendered tree: what stands below its nodes, which are all new, is what it lists. -/
structure Fresh (h : Host) (h' : Host) (w : VNode) : Prop where
  host : w.host = some h.nodes.size
  gains : Gains h (fun q k => h.nodes.size ≤ q ∧ (q ∈ w.held → w.Lists q k)) h'
  nodup : w.held.Nodup
  new : ∀ q ∈ w.held, h.nodes.size ≤ q ∧ q < h'.nodes.size
  old : ∀ q < h.nodes.size, h'.get? q = h.get? q

/-- **Rendering gains what the rendered tree lists**, below new nodes. -/
theorem render_fresh {v : VNode} (hv : v.bareTexts = true) (hf : h.Forest) :
    ∃ h' w, render v h = (.ok (h.nodes.size, w), h') ∧ Fresh h h' w := by
  obtain ⟨h', w, hrun, hr⟩ := render_spec v h
  have hf' : h'.Forest := by
    have hforest := keepsForest_render v h hf
    rwa [hrun] at hforest
  have hheld := held_of_render hv hrun
  refine ⟨h', w, hrun, hr.top_eq ▸ hr.shows.host_eq, ⟨hf', hr.redone.size_le, fun {q k} hq => ?_⟩,
    hheld ▸ hr.nodup, fun q hq => ?_, fun q hq => hr.get?_eq hq⟩
  · rcases Nat.lt_or_ge q h.nodes.size with hlt | hge
    · exact .inl (hf.parent_of_get?_eq hf' (hr.get?_eq hlt) hq)
    · exact .inr ⟨hge, fun hmem => hr.shows.lists hf' (hheld ▸ hmem) hq⟩
  · exact ⟨hr.size_le_of_mem (hheld ▸ hq), hr.shows.lt_size (hheld ▸ hq)⟩

end

end Host

end Trellis
