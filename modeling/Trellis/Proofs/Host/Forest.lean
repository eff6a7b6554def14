import Mathlib.Logic.Relation
import Mathlib.Order.RelClasses
import Trellis.Proofs.Host.Attach

/-!
# Hosts as forests

In a `Host.Forest` a node is a child of exactly the node that it names as its parent, stands there
once, and going outwards comes to an end. Unlinking, attaching and discarding each break that for a
moment, so each of them is taken as a whole and read off as what it does to all parents and to all
lists of children.

- Going outwards never meets a node twice, so it takes no more steps than there are nodes
  (`Forest.outwards_eq_path`), and `path` is all of it (`Forest.mem_path_iff`).
- `Forest.attach`: attaching fails on the host as it is, or moves the node (`Moved.forest`).
- `Forest.discard`: a node that stands nowhere goes with everything below it, and what stays is a
  forest.
-/

namespace Trellis

namespace Host

open Relation (TransGen ReflTransGen)

/-! ## 1. Forests -/

/-- A node stands around another one as its parent. -/
def IsParent (h : Host) (p c : Handle) : Prop := h.parent? c = some p

/-- Children and parents agree, no child stands twice, and going outwards ends. -/
structure Forest (h : Host) : Prop where
  given : 0 < h.nodes.size
  mem_children_iff : ∀ p c, c ∈ h.children p ↔ h.parent? c = some p
  nodup_children : ∀ p, (h.children p).Nodup
  wellFounded : WellFounded h.IsParent

theorem parent?_of_none {h : Host} {n : Handle} (hn : h.get? n = none) : h.parent? n = none := by
  rw [parent?, hn, Option.bind_none]

theorem children_of_none {h : Host} {n : Handle} (hn : h.get? n = none) : h.children n = [] := by
  rw [children, hn]

theorem children_eq (h : Host) (n : Handle) :
    h.children n = ((h.get? n).map HostNode.children).getD [] := by
  rw [children]
  cases h.get? n <;> rfl

theorem exists_of_parent? {h : Host} {c p : Handle} (hc : h.parent? c = some p) :
    ∃ nc, h.get? c = some nc ∧ nc.parent = some p := Option.bind_eq_some_iff.mp hc

theorem exists_of_mem_children {h : Host} {p c : Handle} (hc : c ∈ h.children p) :
    ∃ np, h.get? p = some np ∧ c ∈ np.children := by
  cases hp : h.get? p with
  | none => rw [children_of_none hp] at hc; cases hc
  | some np => exact ⟨np, rfl, by rwa [children_of_get? hp] at hc⟩

namespace Forest

variable {h : Host}

theorem parent_known (hf : h.Forest) {c p : Handle} (hc : h.parent? c = some p) :
    ∃ np, h.get? p = some np ∧ c ∈ np.children :=
  exists_of_mem_children ((hf.mem_children_iff p c).mpr hc)

theorem child_lt (hf : h.Forest) {c p : Handle} (hc : c ∈ h.children p) : c < h.nodes.size := by
  obtain ⟨nc, hnc, -⟩ := exists_of_parent? ((hf.mem_children_iff p c).mp hc)
  exact lt_size_of_get? hnc

/-- No node stands around itself. -/
theorem acyclic (hf : h.Forest) (n : Handle) : ¬ TransGen h.IsParent n n :=
  fun hn => hf.wellFounded.transGen.asymmetric n n hn hn

theorem ne_of_parent? (hf : h.Forest) {c p : Handle} (hc : h.parent? c = some p) : p ≠ c := by
  rintro rfl
  exact hf.acyclic p (.single hc)

end Forest

/-! ## 2. Going outwards -/

theorem outwards_of_parent? {h : Host} {c p : Handle} (hc : h.parent? c = some p) (fuel : Nat) :
    h.outwards (fuel + 1) c = c :: h.outwards fuel p := by
  rw [outwards, hc]

theorem outwards_of_free {h : Host} {c : Handle} (hc : h.parent? c = none) (fuel : Nat) :
    h.outwards (fuel + 1) c = [c] := by
  rw [outwards, hc]

/-- With fewer steps one gets less far on the same way. -/
theorem take_outwards (h : Host) {fuel k : Nat} (hk : fuel ≤ k) (n : Handle) :
    (h.outwards k n).take fuel = h.outwards fuel n := by
  induction fuel generalizing k n with
  | zero => rfl
  | succ fuel ih =>
    cases k with
    | zero => omega
    | succ k =>
      cases hp : h.parent? n with
      | none => rw [outwards_of_free hp, outwards_of_free hp, List.take_succ_cons, List.take_nil]
      | some p =>
        rw [outwards_of_parent? hp, outwards_of_parent? hp, List.take_succ_cons, ih (by omega)]

/-- Going outwards meets nodes that stand around the first one. -/
theorem reaches_of_mem_outwards {h : Host} {fuel : Nat} {n m : Handle}
    (hm : m ∈ h.outwards fuel n) : ReflTransGen h.IsParent m n := by
  induction fuel generalizing n with
  | zero => exact absurd hm List.not_mem_nil
  | succ fuel ih =>
    cases hp : h.parent? n with
    | none =>
      rw [outwards_of_free hp, List.mem_singleton] at hm
      exact hm ▸ .refl
    | some p =>
      rw [outwards_of_parent? hp, List.mem_cons] at hm
      rcases hm with rfl | hm
      · exact .refl
      · exact (ih hm).tail hp

namespace Forest

variable {h : Host}

/-- Going outwards never comes back. -/
theorem nodup_outwards (hf : h.Forest) (fuel : Nat) (n : Handle) : (h.outwards fuel n).Nodup := by
  induction fuel generalizing n with
  | zero => exact List.nodup_nil
  | succ fuel ih =>
    cases hp : h.parent? n with
    | none =>
      rw [outwards_of_free hp]
      exact List.nodup_singleton n
    | some p =>
      rw [outwards_of_parent? hp, List.nodup_cons]
      exact ⟨fun hn => hf.acyclic n (.tail' (reaches_of_mem_outwards hn) hp), ih p⟩

theorem known_of_mem_outwards (hf : h.Forest) {fuel : Nat} {n m : Handle} {nd : HostNode}
    (hn : h.get? n = some nd) (hm : m ∈ h.outwards fuel n) : ∃ nm, h.get? m = some nm := by
  induction fuel generalizing n nd with
  | zero => exact absurd hm List.not_mem_nil
  | succ fuel ih =>
    cases hp : h.parent? n with
    | none =>
      rw [outwards_of_free hp, List.mem_singleton] at hm
      exact ⟨nd, hm ▸ hn⟩
    | some p =>
      rw [outwards_of_parent? hp, List.mem_cons] at hm
      rcases hm with rfl | hm
      · exact ⟨nd, hn⟩
      · obtain ⟨np, hnp, -⟩ := hf.parent_known hp
        exact ih hnp hm

theorem length_outwards_le (hf : h.Forest) (fuel : Nat) (n : Handle) :
    (h.outwards fuel n).length ≤ h.nodes.size := by
  cases hn : h.get? n with
  | some nd =>
    exact length_le_size (hf.nodup_outwards fuel n) fun m hm => hf.known_of_mem_outwards hn hm
  | none =>
    cases fuel with
    | zero => exact Nat.zero_le _
    | succ fuel =>
      rw [outwards_of_free (parent?_of_none hn)]
      exact hf.given

/-- **More steps than there are nodes lead no further outwards.** -/
theorem outwards_eq_path (hf : h.Forest) {fuel : Nat} (hfuel : h.nodes.size ≤ fuel) (n : Handle) :
    h.outwards fuel n = h.path n := by
  rw [path, ← take_outwards h hfuel n, List.take_of_length_le (hf.length_outwards_le fuel n)]

theorem path_of_parent? (hf : h.Forest) {c p : Handle} (hc : h.parent? c = some p) :
    h.path c = c :: h.path p := by
  rw [← hf.outwards_eq_path (Nat.le_succ _) c, outwards_of_parent? hc, path]

theorem path_of_free (hf : h.Forest) {c : Handle} (hc : h.parent? c = none) : h.path c = [c] := by
  rw [← hf.outwards_eq_path (Nat.le_succ _) c, outwards_of_free hc]

theorem self_mem_path (hf : h.Forest) (n : Handle) : n ∈ h.path n := by
  cases hp : h.parent? n with
  | none => exact hf.path_of_free hp ▸ List.mem_singleton_self n
  | some p => exact hf.path_of_parent? hp ▸ List.mem_cons_self

/-- **The path of a node is all that stands around it.** -/
theorem mem_path_iff (hf : h.Forest) {m n : Handle} :
    m ∈ h.path n ↔ ReflTransGen h.IsParent m n := by
  refine ⟨reaches_of_mem_outwards, fun hm => ?_⟩
  induction hm with
  | refl => exact hf.self_mem_path m
  | tail _ hp ih =>
    rw [hf.path_of_parent? hp]
    exact List.mem_cons_of_mem _ ih

theorem holds_iff (hf : h.Forest) {outer inner : Handle} :
    h.holds outer inner = true ↔ ReflTransGen h.IsParent outer inner := by
  rw [holds, List.contains_iff_mem, hf.mem_path_iff]

/-- Everything around a known node is known. -/
theorem around (hf : h.Forest) {n : Handle} {nd : HostNode} (hn : h.get? n = some nd) :
    Around h (· ∈ h.path n) n where
  self := hf.self_mem_path n
  outwards hm hq := hf.mem_path_iff.mpr (.head hq (hf.mem_path_iff.mp hm))
  taken hm := by
    obtain ⟨nm, hnm⟩ := hf.known_of_mem_outwards hn hm
    exact lt_size_of_get? hnm

end Forest

/-! ## 3. Changes that keep parents and children -/

/-- Both hosts have the same parents and the same children. -/
theorem Forest.of_same {h h' : Host} (hf : h.Forest) (hsize : h.nodes.size ≤ h'.nodes.size)
    (hparent : ∀ m, h'.parent? m = h.parent? m) (hchildren : ∀ m, h'.children m = h.children m) :
    h'.Forest where
  given := Nat.lt_of_lt_of_le hf.given hsize
  mem_children_iff p c := by rw [hchildren, hparent, hf.mem_children_iff]
  nodup_children p := by rw [hchildren]; exact hf.nodup_children p
  wellFounded := by
    have heq : h'.IsParent = h.IsParent := by
      funext p c
      rw [IsParent, IsParent, hparent]
    exact heq ▸ hf.wellFounded

theorem Forest.log {h : Host} (hf : h.Forest) (log : List Mutation) : Forest { h with log } :=
  hf.of_same (Nat.le_refl _) (fun _ => rfl) fun _ => rfl

/-- A change to the attributes or the listeners of a node. -/
theorem Forest.edit {h : Host} (hf : h.Forest) (n : Handle) {f : HostNode → HostNode}
    (hparent : ∀ nd, (f nd).parent = nd.parent) (hchildren : ∀ nd, (f nd).children = nd.children) :
    (h.update n f).Forest := by
  refine hf.of_same (Nat.le_of_eq (size_update h n f).symm) (fun m => ?_) fun m => ?_
  · rw [parent?, parent?, get?_update]
    split
    · cases h.get? m with
      | none => rfl
      | some nd => exact hparent nd
    · rfl
  · rw [children_eq, children_eq, get?_update]
    split
    · cases h.get? m with
      | none => rfl
      | some nd => exact hchildren nd
    · rfl

theorem Forest.push {h : Host} (hf : h.Forest) (content : Content) (log : List Mutation) :
    Forest { nodes := h.nodes.push (some (HostNode.bare content)), log } := by
  have hnone : h.get? h.nodes.size = none := get?_eq_none_of_le (Nat.le_refl _)
  refine hf.of_same (by simp) (fun m => ?_) fun m => ?_
  · rw [parent?, parent?, get?_push]
    split
    · rename_i e
      rw [e, hnone]
      rfl
    · rfl
  · rw [children_eq, children_eq, get?_push]
    split
    · rename_i e
      rw [e, hnone]
      rfl
    · rfl

/-! ## 4. Unlinking -/

/-- A node has left the place where it stood. -/
structure Freed (h : Host) (c : Handle) (h' : Host) : Prop where
  size : h'.nodes.size = h.nodes.size
  known : ∀ m, (h'.get? m).isSome = (h.get? m).isSome
  parent : ∀ m, h'.parent? m = if m = c then none else h.parent? m
  children : ∀ m, h'.children m = (h.children m).filter (· ≠ c)

/-- Parents become fewer. -/
theorem wellFounded_of_parents {h h' : Host} (hw : WellFounded h.IsParent)
    (hsub : ∀ {c p}, h'.parent? c = some p → h.parent? c = some p) : WellFounded h'.IsParent :=
  Subrelation.wf (fun hp => hsub hp) hw

theorem Freed.forest {h h' : Host} {c : Handle} (hf : h.Forest) (hd : Freed h c h') :
    h'.Forest where
  given := hd.size ▸ hf.given
  mem_children_iff p m := by
    rw [hd.children, hd.parent, List.mem_filter, hf.mem_children_iff]
    by_cases e : m = c
    · simp [e]
    · simp [e]
  nodup_children p := by
    rw [hd.children]
    exact (hf.nodup_children p).filter _
  wellFounded := wellFounded_of_parents hf.wellFounded fun {m p} hp => by
    rw [hd.parent] at hp
    split at hp
    · cases hp
    · exact hp

/-- **A known node can always be unlinked.** -/
theorem Forest.unlink {h : Host} (hf : h.Forest) {c : Handle} {nc : HostNode}
    (hc : h.get? c = some nc) : ∃ h', Host.unlink c h = (.ok (), h') ∧ Freed h c h' := by
  have hnot : ∀ {m}, h.parent? c ≠ some m → (h.children m).filter (· ≠ c) = h.children m :=
    fun {m} hm => filter_ne_of_not_mem fun hmem => hm ((hf.mem_children_iff m c).mp hmem)
  cases hparent : nc.parent with
  | none =>
    have hfree : h.parent? c = none := by rw [parent?_of_get? hc, hparent]
    refine ⟨h, unlink_of_free hc hparent, rfl, fun _ => rfl, fun m => ?_, fun m => ?_⟩
    · split
      · rename_i e
        rw [e, hfree]
      · rfl
    · rw [hnot (by rw [hfree]; exact nofun)]
  | some p =>
    have hpar : h.parent? c = some p := by rw [parent?_of_get? hc, hparent]
    have hne := hf.ne_of_parent? hpar
    obtain ⟨np, hp, -⟩ := hf.parent_known hpar
    obtain ⟨h', hrun, hsize, hget⟩ := unlink_of_child hc hp hparent hne
    refine ⟨h', hrun, hsize, fun m => ?_, fun m => ?_, fun m => ?_⟩
    · rw [hget]
      split
      · rename_i e
        rw [e, hc]
        rfl
      · split
        · rename_i e
          rw [e, hp]
          rfl
        · rfl
    · by_cases hmc : m = c
      · rw [if_pos hmc, parent?, hget, if_pos hmc]
        rfl
      · rw [if_neg hmc, parent?, hget, if_neg hmc]
        split
        · rename_i e
          rw [e, parent?_of_get? hp]
          rfl
        · rfl
    · by_cases hmp : m = p
      · rw [children, hget, if_neg (hmp ▸ hne), if_pos hmp, hmp, children_of_get? hp]
      · have hother : h.parent? c ≠ some m := by
          rw [hpar, ne_eq, Option.some.injEq]
          exact Ne.symm hmp
        rw [hnot hother, children_eq, children_eq, hget, if_neg hmp]
        split
        · rename_i e
          rw [e, hc]
          rfl
        · rfl

/-! ## 5. Attaching -/

theorem placed_perm (l : List Handle) (c : Handle) (before : Option Handle) :
    (placed l c before).Perm (c :: l) := by
  cases before with
  | none => exact List.perm_append_comm
  | some r =>
    have hl := List.takeWhile_append_dropWhile (p := (· ≠ r)) (l := l)
    exact List.perm_middle.trans (by rw [hl])

/-- A node has come below another one. -/
structure Moved (h : Host) (p c : Handle) (before : Option Handle) (h' : Host) : Prop where
  size : h'.nodes.size = h.nodes.size
  known : ∀ m, (h'.get? m).isSome = (h.get? m).isSome
  parent : ∀ m, h'.parent? m = if m = c then some p else h.parent? m
  children : ∀ m, h'.children m =
    if m = p then placed ((h.children m).filter (· ≠ c)) c before
    else (h.children m).filter (· ≠ c)

/-- A node that does not stand around its new parent makes no cycle: first all nodes that it does
    not stand around come to an end, the new parent among them, then the node itself, then all. -/
theorem Moved.wellFounded {h h' : Host} {p c : Handle} {before : Option Handle} (hf : h.Forest)
    (hm : Moved h p c before h') (hcycle : c ∉ h.path p) : WellFounded h'.IsParent := by
  have hother : ∀ {n q}, n ≠ c → h'.IsParent q n → h.parent? n = some q := by
    intro n q hne hq
    rwa [IsParent, hm.parent, if_neg hne] at hq
  have hapart : ∀ n, c ∉ h.path n → Acc h'.IsParent n := by
    intro n
    induction n using hf.wellFounded.induction with
    | _ n ih =>
      intro hn
      have hne : n ≠ c := fun e => hn (e ▸ hf.self_mem_path n)
      refine ⟨n, fun q hq => ?_⟩
      have hq' := hother hne hq
      refine ih q hq' fun hmem => hn ?_
      rw [hf.path_of_parent? hq']
      exact List.mem_cons_of_mem _ hmem
  have hself : Acc h'.IsParent c := by
    refine ⟨c, fun q hq => ?_⟩
    rw [IsParent, hm.parent, if_pos rfl, Option.some.injEq] at hq
    exact hq ▸ hapart p hcycle
  refine ⟨fun n => ?_⟩
  induction n using hf.wellFounded.induction with
  | _ n ih =>
    by_cases e : n = c
    · exact e ▸ hself
    · exact ⟨n, fun q hq => ih q (hother e hq)⟩

theorem Moved.forest {h h' : Host} {p c : Handle} {before : Option Handle} (hf : h.Forest)
    (hm : Moved h p c before h') (hcycle : c ∉ h.path p) : h'.Forest where
  given := hm.size ▸ hf.given
  mem_children_iff q m := by
    have hmem : m ∈ (h.children q).filter (· ≠ c) ↔ h.parent? m = some q ∧ m ≠ c := by
      rw [List.mem_filter, hf.mem_children_iff, decide_eq_true_iff]
    rw [hm.children, hm.parent]
    by_cases hqp : q = p
    · rw [if_pos hqp, (placed_perm _ c before).mem_iff, List.mem_cons, hmem, hqp]
      by_cases e : m = c
      · simp [e]
      · simp [e]
    · rw [if_neg hqp, hmem]
      by_cases e : m = c
      · simp [e, Ne.symm hqp]
      · simp [e]
  nodup_children q := by
    have hnodup : ((h.children q).filter (· ≠ c)).Nodup := (hf.nodup_children q).filter _
    rw [hm.children]
    split
    · refine (placed_perm _ c before).nodup_iff.mpr (List.nodup_cons.mpr ⟨fun hc => ?_, hnodup⟩)
      simp at hc
    · exact hnodup
  wellFounded := hm.wellFounded hf hcycle

/-- Attaching a node that its new parent does not stand below. -/
theorem Forest.attach_ok {h : Host} (hf : h.Forest) {p c : Handle} {np nc : HostNode}
    {before : Option Handle} (hp : h.get? p = some np) (hc : h.get? c = some nc)
    (hcycle : c ∉ h.path p) (hbefore : ∀ r, before = some r → h.parent? r = some p ∧ r ≠ c) :
    ∃ h', Host.attach p c before h = (.ok (), h') ∧ Moved h p c before h' := by
  have hne : p ≠ c := fun e => hcycle (e ▸ hf.self_mem_path p)
  have hholds : h.holds c p = false := by
    rw [holds, Bool.eq_false_iff, ne_eq, List.contains_iff_mem]
    exact hcycle
  obtain ⟨h₁, hrun, hfree⟩ := hf.unlink hc
  have hknown : ∀ {m nd}, h.get? m = some nd → ∃ nd₁, h₁.get? m = some nd₁ := by
    intro m nd hm
    rw [← Option.isSome_iff_exists, hfree.known, hm]
    rfl
  obtain ⟨np₁, hp₁⟩ := hknown hp
  obtain ⟨nc₁, hc₁⟩ := hknown hc
  obtain ⟨h', hrun', hsize, hget⟩ := attach_apply hp hc hholds hbefore hrun hp₁ hc₁ hne
  refine ⟨h', hrun', hsize.trans hfree.size, fun m => ?_, fun m => ?_, fun m => ?_⟩
  · rw [← hfree.known, hget]
    split
    · rename_i e
      rw [e, hc₁]
      rfl
    · split
      · rename_i e
        rw [e, hp₁]
        rfl
      · rfl
  · by_cases hmc : m = c
    · rw [if_pos hmc, parent?, hget, if_pos hmc]
      rfl
    · have hm := hfree.parent m
      rw [if_neg hmc] at hm ⊢
      rw [← hm, parent?, parent?, hget, if_neg hmc]
      split
      · rename_i e
        rw [e, hp₁]
        rfl
      · rfl
  · rw [← hfree.children, children_eq, children_eq, hget]
    by_cases hmc : m = c
    · rw [if_pos hmc, if_neg (hmc ▸ hne.symm), hmc, hc₁]
      rfl
    · rw [if_neg hmc]
      by_cases hmp : m = p
      · rw [if_pos hmp, if_pos hmp, hmp, hp₁]
        rfl
      · rw [if_neg hmp, if_neg hmp]

/-- **Attaching fails on the host as it is, or moves the node.** -/
theorem Forest.attach {h : Host} (hf : h.Forest) (p c : Handle) (before : Option Handle) :
    (∃ e, Host.attach p c before h = (.error e, h)) ∨
      ∃ h', Host.attach p c before h = (.ok (), h') ∧ Moved h p c before h' ∧ c ∉ h.path p := by
  cases hp : h.get? p with
  | none => exact .inl ⟨.unknownNode p, by rw [Host.attach, Run.bind_apply, require_none hp]⟩
  | some np =>
    cases hc : h.get? c with
    | none =>
      refine .inl ⟨.unknownNode c, ?_⟩
      rw [Host.attach, Run.bind_ok (require_apply hp), Run.bind_apply, require_none hc]
    | some nc =>
      by_cases hcycle : c ∈ h.path p
      · refine .inl ⟨.cycle p c, ?_⟩
        rw [Host.attach, Run.bind_ok (require_apply hp), Run.bind_ok (require_apply hc),
          Run.bind_ok (Run.get_apply h), if_pos (by rwa [holds, List.contains_iff_mem])]
        rfl
      · by_cases hbefore : ∀ r, before = some r → h.parent? r = some p ∧ r ≠ c
        · obtain ⟨h', hrun, hmoved⟩ := hf.attach_ok hp hc hcycle hbefore
          exact .inr ⟨h', hrun, hmoved, hcycle⟩
        · obtain ⟨r, hr⟩ := not_forall.mp hbefore
          obtain ⟨rfl, hr⟩ := Classical.not_imp.mp hr
          have hguard : h.parent? r ≠ some p ∨ r = c :=
            (not_and_or.mp fun hok => hr fun _ => hok).imp_right not_not.mp
          have hholds : ¬ h.holds c p = true := by rwa [holds, List.contains_iff_mem]
          refine .inl ⟨.notAChild p r, ?_⟩
          rw [Host.attach, Run.bind_ok (require_apply hp), Run.bind_ok (require_apply hc),
            Run.bind_ok (Run.get_apply h), if_neg hholds]
          dsimp only
          rw [Run.bind_ok (Run.get_apply h), if_pos hguard]
          rfl

/-! ## 6. Discarding -/

/-- Nodes are gone, and with each node that is gone all its children; the others stay. -/
structure Discarded (h : Host) (ns : List Handle) (h' : Host) : Prop where
  size : h'.nodes.size = h.nodes.size
  stays : ∀ m, h'.get? m = none ∨ h'.get? m = h.get? m
  gone : ∀ n ∈ ns, h'.get? n = none
  below : ∀ m nd, h.get? m = some nd → h'.get? m = none → ∀ c ∈ nd.children, h'.get? c = none
  only : ∀ m nd, h.get? m = some nd → h'.get? m = none →
    m ∈ ns ∨ ∃ q nq, h.get? q = some nq ∧ h'.get? q = none ∧ m ∈ nq.children

/-- Nodes that are not known leave the host as it is. -/
theorem Discarded.unchanged {h : Host} {ns : List Handle} (hns : ∀ n ∈ ns, h.get? n = none) :
    Discarded h ns h where
  size := rfl
  stays _ := .inr rfl
  gone := hns
  below _ _ hm hm' := by cases hm.symm.trans hm'
  only _ _ hm hm' := by cases hm.symm.trans hm'

theorem Discarded.none_of_none {h h' : Host} {ns : List Handle} (hd : Discarded h ns h') {m : Handle}
    (hm : h.get? m = none) : h'.get? m = none := by
  rcases hd.stays m with e | e
  · exact e
  · rw [e, hm]

theorem discardAll_cons_none {h : Host} {n : Handle} (hn : h.get? n = none) (fuel : Nat)
    (ns : List Handle) : discardAll (fuel + 1) (n :: ns) h = discardAll (fuel + 1) ns h := by
  rw [discardAll, List.foldl_cons, hn]
  rfl

/-- One node goes with all below it, then the others. -/
theorem Discarded.cons {h h₁ h' : Host} {n : Handle} {nd : HostNode} {ns : List Handle}
    (hn : h.get? n = some nd) (hd₁ : Discarded (h.forget n) nd.children h₁)
    (hd₂ : Discarded h₁ ns h') : Discarded h (n :: ns) h' := by
  have hgone : h₁.get? n = none := hd₁.none_of_none (by rw [get?_forget, if_pos rfl])
  have hforget : ∀ {m x}, (h.forget n).get? m = some x → h.get? m = some x := by
    intro m x hm
    rw [get?_forget] at hm
    split at hm
    · cases hm
    · exact hm
  refine ⟨?_, fun m => ?_, fun m hm => ?_, fun m x hm hm' c hc => ?_, fun m x hm hm' => ?_⟩
  · rw [hd₂.size, hd₁.size, size_forget]
  · by_cases e : m = n
    · exact .inl (hd₂.none_of_none (e ▸ hgone))
    · rcases hd₂.stays m with e₂ | e₂
      · exact .inl e₂
      · have h₁m := hd₁.stays m
        rw [get?_forget, if_neg e] at h₁m
        rw [e₂]
        exact h₁m
  · rcases List.mem_cons.mp hm with rfl | hm
    · exact hd₂.none_of_none hgone
    · exact hd₂.gone m hm
  · by_cases e : m = n
    · subst e
      obtain rfl := Option.some.inj (hn.symm.trans hm)
      exact hd₂.none_of_none (hd₁.gone c hc)
    · have hmf : (h.forget n).get? m = some x := by rw [get?_forget, if_neg e, hm]
      rcases hd₁.stays m with e₁ | e₁
      · exact hd₂.none_of_none (hd₁.below m x hmf e₁ c hc)
      · exact hd₂.below m x (e₁.trans hmf) hm' c hc
  · by_cases e : m = n
    · exact .inl (e ▸ List.mem_cons_self)
    · have hmf : (h.forget n).get? m = some x := by rw [get?_forget, if_neg e, hm]
      rcases hd₁.stays m with e₁ | e₁
      · rcases hd₁.only m x hmf e₁ with hm | ⟨q, nq, hq, hq', hmem⟩
        · exact .inr ⟨n, nd, hn, hd₂.none_of_none hgone, hm⟩
        · exact .inr ⟨q, nq, hforget hq, hd₂.none_of_none hq', hmem⟩
      · rcases hd₂.only m x (e₁.trans hmf) hm' with hm | ⟨q, nq, hq, hq', hmem⟩
        · exact .inl (List.mem_cons_of_mem _ hm)
        · rcases hd₁.stays q with e₂ | e₂
          · cases e₂.symm.trans hq
          · exact .inr ⟨q, nq, hforget (e₂.symm.trans hq), hq', hmem⟩

/-- **Discarding reaches everything below and nothing else**, however nodes hang together: every
    level forgets a node that is known, so there are no more levels than known nodes. -/
theorem discarded_discardAll {fuel : Nat} {ks : List Handle} {h : Host} (ns : List Handle)
    (hks : ∀ m nd, h.get? m = some nd → m ∈ ks) (hfuel : ks.length ≤ fuel) :
    Discarded h ns (discardAll fuel ns h) := by
  induction fuel generalizing ks h ns with
  | zero =>
    refine .unchanged fun n _ => ?_
    cases hn : h.get? n with
    | none => rfl
    | some nd =>
      have hmem := hks n nd hn
      rw [List.length_eq_zero_iff.mp (Nat.le_zero.mp hfuel)] at hmem
      exact absurd hmem List.not_mem_nil
  | succ fuel ih =>
    induction ns generalizing h ks with
    | nil => exact .unchanged fun n hn => absurd hn List.not_mem_nil
    | cons n ns ihns =>
      cases hn : h.get? n with
      | none =>
        rw [discardAll_cons_none hn]
        have hd := ihns hks hfuel
        refine ⟨hd.size, hd.stays, fun m hm => ?_, hd.below, fun m nd hm hm' => ?_⟩
        · rcases List.mem_cons.mp hm with rfl | hm
          · exact hd.none_of_none hn
          · exact hd.gone m hm
        · exact (hd.only m nd hm hm').imp_left (List.mem_cons_of_mem _)
      | some nd =>
        rw [discardAll_cons hn]
        have hnk : n ∈ ks := hks n nd hn
        have hks₁ : ∀ m x, (h.forget n).get? m = some x → m ∈ ks.erase n := by
          intro m x hm
          rw [get?_forget] at hm
          split at hm
          · cases hm
          · rename_i e
            exact (List.mem_erase_of_ne e).mpr (hks m x hm)
        have hlen : (ks.erase n).length ≤ fuel := by
          rw [List.length_erase_of_mem hnk]
          omega
        have hd₁ := ih nd.children hks₁ hlen
        have hks₂ : ∀ m x, (discardAll fuel nd.children (h.forget n)).get? m = some x → m ∈ ks := by
          intro m x hm
          rcases hd₁.stays m with e | e
          · cases hm.symm.trans e
          · exact List.mem_of_mem_erase (hks₁ m x (e.symm.trans hm))
        exact hd₁.cons hn (ihns hks₂ hfuel)

theorem discarded_discard (h : Host) (n : Handle) : Discarded h [n] (h.discard n) := by
  refine discarded_discardAll [n] (fun m nd hm => ?_) (Nat.le_of_eq List.length_range)
  exact List.mem_range.mpr (lt_size_of_get? hm)

/-- **What is left when a node that stands nowhere goes with all below it is a forest.** -/
theorem Forest.discard {h : Host} (hf : h.Forest) {n : Handle} (hfree : h.parent? n = none) :
    (h.discard n).Forest := by
  have hd := discarded_discard h n
  generalize h.discard n = h' at hd
  have hparent : ∀ {c p}, h'.parent? c = some p → h.parent? c = some p := by
    intro c p hc
    rcases hd.stays c with e | e
    · rw [parent?_of_none e] at hc
      cases hc
    · rwa [parent?, e] at hc
  have hchild : ∀ {c p}, c ∈ h'.children p → c ∈ h.children p ∧ h'.get? p = h.get? p := by
    intro c p hc
    rcases hd.stays p with e | e
    · rw [children_of_none e] at hc
      cases hc
    · exact ⟨by rwa [children_eq, e, ← children_eq] at hc, e⟩
  refine ⟨hd.size ▸ hf.given, fun p c => ⟨fun hc => ?_, fun hc => ?_⟩, fun p => ?_,
    wellFounded_of_parents hf.wellFounded hparent⟩
  · -- a child that is gone takes its parent with it
    obtain ⟨hmem, hp⟩ := hchild hc
    have hpar := (hf.mem_children_iff p c).mp hmem
    obtain ⟨nc, hnc, -⟩ := exists_of_parent? hpar
    rcases hd.stays c with e | e
    · rcases hd.only c nc hnc e with hcn | ⟨q, nq, hq, hq', hcq⟩
      · rw [List.mem_singleton.mp hcn, hfree] at hpar
        cases hpar
      · have hqp : h.parent? c = some q := (hf.mem_children_iff q c).mp (by rwa [children_of_get? hq])
        rw [hpar, Option.some.injEq] at hqp
        rw [hqp, hq, hq'] at hp
        cases hp
    · rw [parent?, e]
      exact hpar
  · have hpar := hparent hc
    obtain ⟨np, hp, hmem⟩ := hf.parent_known hpar
    rcases hd.stays p with e | e
    · -- the parent is gone, so the child would be gone as well
      rw [parent?_of_none (hd.below p np hp e c hmem)] at hc
      cases hc
    · rwa [children_of_get? (e.trans hp)]
  · rcases hd.stays p with e | e
    · rw [children_of_none e]
      exact List.nodup_nil
    · rw [children_eq, e, ← children_eq]
      exact hf.nodup_children p

end Host

end Trellis
