import Trellis.Proofs.Host.Held

/-!
# What is left of a host

`Host.Remains bound h h'` says what became of the handles below `bound`: what has gone stays away, and
what is still there stands where it stood. Removing a child, moving one among its siblings and
rendering a new tree each leave a host in that way.

- `Remains.gone_below`: with a node everything goes that stood below it,
- `Discarded.reaches`: discarding takes nothing else away,
- `Forest.remove_ok`: removing a child ends well, and the other children stay in their order.
-/

namespace Trellis

namespace Host

open Relation (ReflTransGen)

/-! ## 1. Remains -/

/-- A forest in which, of the handles below a bound, some are gone for good and the others stand where
    they stood. -/
structure Remains (bound : Nat) (h h' : Host) : Prop where
  forest : h'.Forest
  size_le : h.nodes.size ≤ h'.nodes.size
  gone : ∀ k < bound, h.get? k = none → h'.get? k = none
  parent : ∀ k < bound, h'.get? k ≠ none → h'.parent? k = h.parent? k

section

variable {h h' h'' h₁ : Host} {bound : Nat} {n p c k m : Handle}

theorem Remains.refl (hf : h.Forest) : Remains bound h h :=
  ⟨hf, Nat.le_refl _, fun _ _ hk => hk, fun _ _ _ => rfl⟩

theorem Remains.trans (a : Remains bound h h') (b : Remains bound h' h'') :
    Remains bound h h'' where
  forest := b.forest
  size_le := Nat.le_trans a.size_le b.size_le
  gone k hk hnone := b.gone k hk (a.gone k hk hnone)
  parent k hk hsome := by
    rw [b.parent k hk hsome, a.parent k hk fun hnone => hsome (b.gone k hk hnone)]

theorem Remains.log (hr : Remains bound h h') (log : List Mutation) :
    Remains bound h { h' with log } :=
  ⟨hr.forest.log log, hr.size_le, hr.gone, hr.parent⟩

/-- **A node goes with everything below it**: what stays has its parent still. -/
theorem Remains.gone_below (hr : Remains bound h h') (hbound : h.nodes.size ≤ bound)
    (hm : h'.get? m = none) (hk : ReflTransGen h.IsParent m k) : h'.get? k = none := by
  induction hk with
  | refl => exact hm
  | @tail q k _ hq ih =>
    obtain ⟨nk, hnk, -⟩ := exists_of_parent? hq
    have hlt : k < bound := Nat.lt_of_lt_of_le (lt_size_of_get? hnk) hbound
    by_contra hsome
    obtain ⟨nq, hnq, -⟩ := hr.forest.parent_known ((hr.parent k hlt hsome).trans hq)
    cases ih.symm.trans hnq

/-! ## 2. Removing a child -/

/-- Discarding takes away what stands below the discarded nodes, and nothing else. -/
theorem Discarded.reaches {ns : List Handle} (hd : Discarded h ns h') (hf : h.Forest)
    {nd : HostNode} (hk : h.get? k = some nd) (hgone : h'.get? k = none) :
    ∃ n ∈ ns, ReflTransGen h.IsParent n k := by
  induction k using hf.wellFounded.induction generalizing nd with
  | _ k ih =>
    rcases hd.only k nd hk hgone with hmem | ⟨q, nq, hq, hq', hmem⟩
    · exact ⟨k, hmem, .refl⟩
    · have hpar : h.parent? k = some q := (hf.mem_children_iff q k).mp (by rwa [children_of_get? hq])
      obtain ⟨n, hn, hreach⟩ := ih q hpar hq hq'
      exact ⟨n, hn, hreach.tail hpar⟩

/-- **Removing a child ends well.** The child is gone, and the others are the children now. -/
theorem Forest.remove_ok (hf : h.Forest) (hpar : h.parent? c = some p) :
    ∃ h', Host.remove p c h = (.ok (), h') ∧ (∀ bound, Remains bound h h') ∧
      h'.get? c = none ∧ h'.get? p ≠ none ∧ h'.children p = (h.children p).filter (· ≠ c) := by
  obtain ⟨nc, hc, -⟩ := exists_of_parent? hpar
  obtain ⟨np, hp, -⟩ := hf.parent_known hpar
  obtain ⟨h₁, hrun, hfree⟩ := hf.unlink hc
  have hfree_c : h₁.parent? c = none := by rw [hfree.parent, if_pos rfl]
  have hd := discarded_discard h₁ c
  have hgone : (h₁.discard c).get? c = none := hd.gone c List.mem_cons_self
  have hforest := (hfree.forest hf).discard hfree_c
  -- the parent does not stand below its child
  have hstays : (h₁.discard c).get? p = h₁.get? p := by
    refine (hd.stays p).resolve_left fun hnone => ?_
    obtain ⟨np₁, hp₁⟩ : ∃ np₁, h₁.get? p = some np₁ := by
      rw [← Option.isSome_iff_exists, hfree.known, hp]
      rfl
    obtain ⟨c', hc', hreach⟩ := hd.reaches (hfree.forest hf) hp₁ hnone
    rw [List.mem_singleton.mp hc'] at hreach
    have hsub : ∀ q k, h₁.IsParent q k → h.IsParent q k := by
      intro q k hq
      rw [IsParent, hfree.parent] at hq
      split at hq
      · cases hq
      · exact hq
    have hreach' : ReflTransGen h.IsParent c p := ReflTransGen.mono hsub c p hreach
    exact hf.acyclic c (.tail' hreach' hpar)
  have hremains : ∀ bound, Remains bound h (h₁.discard c) := by
    refine fun bound => ⟨hforest, Nat.le_of_eq (hd.size.trans hfree.size).symm, fun k _ hk => ?_,
      fun k _ hk => ?_⟩
    · refine hd.none_of_none (Option.not_isSome_iff_eq_none.mp ?_)
      rw [hfree.known, hk]
      exact Bool.false_ne_true
    · have hne : k ≠ c := fun e => hk (e ▸ hgone)
      rw [parent?, (hd.stays k).resolve_left hk, ← parent?, hfree.parent, if_neg hne]
  refine ⟨{ h₁.discard c with log := .remove p c :: (h₁.discard c).log }, ?_,
    fun bound => (hremains bound).log _, hgone, ?_, ?_⟩
  · rw [Host.remove, Run.bind_ok (requireChild_apply hpar), Run.bind_ok hrun,
      Run.bind_ok (Run.modify_apply _ _), record_apply]
  · show (h₁.discard c).get? p ≠ none
    rw [hstays, ← Option.isSome_iff_ne_none, hfree.known, hp]
    rfl
  · show (h₁.discard c).children p = _
    rw [children_eq, hstays, ← children_eq, hfree.children]

/-! ## 3. New places -/

theorem Moved.log {before : Option Handle} (hm : Moved h p c before h') (log : List Mutation) :
    Moved h p c before { h' with log } := ⟨hm.size, hm.known, hm.parent, hm.children⟩

/-- A child that finds another place among its siblings, or a node behind the bound. -/
theorem Moved.remains {before : Option Handle} (hf : h.Forest) (hm : Moved h p c before h')
    (hcycle : c ∉ h.path p) (hc : bound ≤ c ∨ h.parent? c = some p) : Remains bound h h' where
  forest := hm.forest hf hcycle
  size_le := Nat.le_of_eq hm.size.symm
  gone k _ hk := by
    refine Option.not_isSome_iff_eq_none.mp ?_
    rw [hm.known, hk]
    exact Bool.false_ne_true
  parent k hk _ := by
    rw [hm.parent]
    split
    · rename_i e
      subst e
      exact (hc.resolve_left (Nat.not_le.mpr hk)).symm
    · rfl

/-- Rendering leaves everything that was there. -/
theorem Rendered.remains {v w : VNode} (hr : Rendered h v h₁ w) (hf : h₁.Forest)
    (hbound : bound ≤ h.nodes.size) : Remains bound h h₁ where
  forest := hf
  size_le := hr.redone.size_le
  gone k hk hnone := (hr.get?_eq (Nat.lt_of_lt_of_le hk hbound)).trans hnone
  parent k hk _ := by rw [parent?, parent?, hr.get?_eq (Nat.lt_of_lt_of_le hk hbound)]

end

end Host

end Trellis
