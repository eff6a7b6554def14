import Trellis.Proofs.Host.Forest

/-!
# Where nodes come to stand

`Host.Gains` says of two forests which nodes may stand below which in the second one that did not in
the first. Each operation that changes the host is read off in this way (`Gaining`): it fails on the
host as it is, or ends well and gains what it says.

- `edit_gaining`: attributes and listeners gain nothing,
- `Forest.remove_gains`: nothing is gained, and the child is no longer there,
- `Forest.attach_gaining`: the child alone comes to stand below the parent,
- `Forest.replace_gains`: the new node comes, the old one goes.
-/

namespace Trellis

namespace Host

/-! ## 1. Gains -/

/-- A forest in which only nodes of one kind stand where they did not stand in another forest. -/
structure Gains (h : Host) (new : Handle → Handle → Prop) (h' : Host) : Prop where
  forest : h'.Forest
  size_le : h.nodes.size ≤ h'.nodes.size
  parent : ∀ {p k : Handle}, h'.parent? k = some p → h.parent? k = some p ∨ new p k

section

variable {h h' h₁ : Host} {new new' : Handle → Handle → Prop} {p c : Handle}

theorem Gains.refl (hf : h.Forest) : Gains h new h := ⟨hf, Nat.le_refl _, fun hp => .inl hp⟩

theorem Gains.mono (hg : Gains h new h') (hnew : ∀ q k, new q k → new' q k) : Gains h new' h' :=
  { hg with parent := fun hp => (hg.parent hp).imp_right (hnew _ _) }

theorem Gains.trans {h'' : Host} (a : Gains h new h') (b : Gains h' new' h'') :
    Gains h (fun q k => new q k ∨ new' q k) h'' where
  forest := b.forest
  size_le := Nat.le_trans a.size_le b.size_le
  parent hp := by
    rcases b.parent hp with hp | hnew
    · exact (a.parent hp).imp_right .inl
    · exact .inr (.inr hnew)

theorem Gains.log (hg : Gains h new h') (log : List Mutation) : Gains h new { h' with log } :=
  ⟨hg.forest.log log, hg.size_le, hg.parent⟩

/-- Where nothing new can stand, everything that stands somewhere stood there before. -/
theorem Gains.parent_of (hg : Gains h new h') {k : Handle} (hnew : ¬ new p k)
    (hp : h'.parent? k = some p) : h.parent? k = some p := (hg.parent hp).resolve_right hnew

theorem Forest.parent_lt (hf : h.Forest) {k : Handle} (hp : h.parent? k = some p) :
    p < h.nodes.size := by
  obtain ⟨np, hnp, -⟩ := hf.parent_known hp
  exact lt_size_of_get? hnp

/-- Below nodes that stay as they are nothing comes to stand. -/
theorem Forest.parent_of_get?_eq (hf : h.Forest) (hf' : h'.Forest) (hget : h'.get? p = h.get? p)
    {k : Handle} (hk : h'.parent? k = some p) : h.parent? k = some p := by
  have hmem := (hf'.mem_children_iff p k).mpr hk
  rw [children_eq, hget, ← children_eq] at hmem
  exact (hf.mem_children_iff p k).mp hmem

/-- A run that changes nothing when it fails, and gains nodes of one kind only when it ends well. -/
def Gaining (new : Handle → Handle → Prop) (act : HostM Unit) (h : Host) : Prop :=
  (∃ e, act h = (.error e, h)) ∨ ∃ h', act h = (.ok (), h') ∧ Gains h new h'

theorem Gaining.gains {act : HostM Unit} (hf : h.Forest) (hact : Gaining new act h) :
    Gains h new (act h).2 := by
  rcases hact with ⟨e, hrun⟩ | ⟨h', hrun, hg⟩
  · rw [hrun]
    exact .refl hf
  · rw [hrun]
    exact hg

/-! ## 2. Operations -/

theorem create_gaining (hf : h.Forest) (content : Content) :
    Gaining (fun _ _ => False) (do let _ ← create content) h := by
  refine .inr ⟨_, Run.bind_ok (create_apply content h), hf.push content _, ?_, fun {p k} hp => ?_⟩
  · exact Array.size_push _ ▸ Nat.le_succ _
  · rw [parent?, get?_push] at hp
    split at hp
    · cases hp
    · exact .inl hp

/-- **Changing attributes or listeners gains nothing.** -/
theorem edit_gaining (hf : h.Forest) (n : Handle) (f : HostNode → HostNode)
    (hparent : ∀ nd, (f nd).parent = nd.parent) (hchildren : ∀ nd, (f nd).children = nd.children)
    (m : Mutation) :
    Gaining (fun _ _ => False) (do
      let _ ← Host.require n
      modify fun h => h.update n f
      Host.record m) h := by
  cases hn : h.get? n with
  | none => exact .inl ⟨.unknownNode n, by rw [Run.bind_apply, require_none hn]⟩
  | some nd =>
    have hrun : (do
        let _ ← Host.require n
        modify fun h => h.update n f
        Host.record m : HostM Unit) h =
        (.ok (), { h.update n f with log := m :: (h.update n f).log }) := by
      rw [Run.bind_ok (require_apply hn), Run.bind_ok (Run.modify_apply _ _), record_apply]
    have hf' := hf.edit n hparent hchildren
    refine .inr ⟨_, hrun, Gains.log ⟨hf', Nat.le_of_eq (size_update h n f).symm, fun {p k} hp => ?_⟩ _⟩
    refine .inl (.trans ?_ hp)
    rw [parent?, parent?, get?_update]
    split
    · cases h.get? k with
      | none => rfl
      | some nd => exact (hparent nd).symm
    · rfl

theorem setAttr_gaining (hf : h.Forest) (n : Handle) (name : String) (value : Value) :
    Gaining (fun _ _ => False) (setAttr n name value) h :=
  edit_gaining hf n (fun nd => { nd with attrs := Attrs.set nd.attrs name value }) (fun _ => rfl)
    (fun _ => rfl) _

theorem removeAttr_gaining (hf : h.Forest) (n : Handle) (name : String) :
    Gaining (fun _ _ => False) (removeAttr n name) h :=
  edit_gaining hf n (fun nd => { nd with attrs := Attrs.remove nd.attrs name }) (fun _ => rfl)
    (fun _ => rfl) _

theorem listen_gaining (hf : h.Forest) (n : Handle) (b : Binding) :
    Gaining (fun _ _ => False) (listen n b) h :=
  edit_gaining hf n (fun nd => { nd with listeners := nd.listeners ++ [b] }) (fun _ => rfl)
    (fun _ => rfl) _

theorem unlisten_gaining (hf : h.Forest) (n : Handle) (b : Binding) :
    Gaining (fun _ _ => False) (unlisten n b) h :=
  edit_gaining hf n (fun nd => { nd with listeners := nd.listeners.erase b }) (fun _ => rfl)
    (fun _ => rfl) _

theorem requireChild_fails (hc : h.parent? c ≠ some p) :
    requireChild p c h = (.error (.notAChild p c), h) := by
  rw [requireChild, Run.bind_ok (Run.get_apply h), if_pos hc]
  rfl

/-- A known node leaves with all below it, and nothing comes to stand anywhere. -/
theorem Forest.unlink_discard (hf : h.Forest) {nc : HostNode} (hc : h.get? c = some nc)
    (m : Mutation) :
    ∃ h', (do Host.unlink c; modify fun h => h.discard c; Host.record m : HostM Unit) h =
        (.ok (), h') ∧ Gains h (fun _ _ => False) h' ∧ h'.parent? c = none := by
  obtain ⟨h₁, hrun, hfree⟩ := hf.unlink hc
  have hpar : h₁.parent? c = none := by rw [hfree.parent, if_pos rfl]
  have hd := discarded_discard h₁ c
  have hforest := ((hfree.forest hf).discard hpar).log (m :: (h₁.discard c).log)
  refine ⟨_, ?_, ⟨hforest, Nat.le_of_eq (hd.size.trans hfree.size).symm, fun {p k} hp => .inl ?_⟩, ?_⟩
  · rw [Run.bind_ok hrun, Run.bind_ok (Run.modify_apply _ _), record_apply]
  · have hp₁ : h₁.parent? k = some p := by
      rcases hd.stays k with e | e
      · exact absurd ((parent?_of_none e).symm.trans hp) nofun
      · exact (congrArg (Option.bind · HostNode.parent) e).symm.trans hp
    rw [hfree.parent] at hp₁
    split at hp₁
    · cases hp₁
    · exact hp₁
  · exact parent?_of_none (hd.gone c List.mem_cons_self)

/-- **Removing a child gains nothing**, and the child is no longer there. -/
theorem Forest.remove_gains (hf : h.Forest) (p c : Handle) :
    (∃ e, Host.remove p c h = (.error e, h)) ∨
      ∃ h', Host.remove p c h = (.ok (), h') ∧ Gains h (fun _ _ => False) h' ∧
        h'.parent? c = none := by
  by_cases hpar : h.parent? c = some p
  · obtain ⟨nc, hc, -⟩ := exists_of_parent? hpar
    obtain ⟨h', hrun, hgains⟩ := hf.unlink_discard hc (.remove p c)
    refine .inr ⟨h', ?_, hgains⟩
    rw [Host.remove, Run.bind_ok (requireChild_apply hpar), hrun]
  · exact .inl ⟨_, by rw [Host.remove, Run.bind_apply, requireChild_fails hpar]⟩

theorem Moved.gains {before : Option Handle} (hf : h.Forest) (hm : Moved h p c before h')
    (hcycle : c ∉ h.path p) : Gains h (fun q k => q = p ∧ k = c) h' where
  forest := hm.forest hf hcycle
  size_le := Nat.le_of_eq hm.size.symm
  parent {q k} hq := by
    rw [hm.parent] at hq
    split at hq
    · rename_i e
      exact .inr ⟨(Option.some.inj hq).symm, e⟩
    · exact .inl hq

/-- **Attaching a child gains it alone.** -/
theorem Forest.attach_gaining (hf : h.Forest) (p c : Handle) (before : Option Handle)
    (m : Mutation) :
    Gaining (fun q k => q = p ∧ k = c) (do Host.attach p c before; Host.record m) h := by
  rcases hf.attach p c before with ⟨e, hrun⟩ | ⟨h₁, hrun, hmoved, hcycle⟩
  · exact .inl ⟨e, by rw [Run.bind_apply, hrun]⟩
  · refine .inr ⟨_, by rw [Run.bind_ok hrun, record_apply], ?_⟩
    exact (hmoved.gains hf hcycle).log _

theorem Forest.append_gaining (hf : h.Forest) (p c : Handle) :
    Gaining (fun q k => q = p ∧ k = c) (Host.append p c) h := hf.attach_gaining p c none _

theorem Forest.insertBefore_gaining (hf : h.Forest) (p c : Handle) (before : Option Handle) :
    Gaining (fun q k => q = p ∧ k = c) (Host.insertBefore p c before) h :=
  hf.attach_gaining p c before _

/-- **Replacing a child gains the new node**, and the old one is no longer there. -/
theorem Forest.replace_gains (hf : h.Forest) (p new old : Handle) :
    (∃ e, Host.replace p new old h = (.error e, h)) ∨
      ∃ h', Host.replace p new old h = (.ok (), h') ∧ h.parent? old = some p ∧
        Gains h (fun q k => q = p ∧ k = new) h' ∧ h'.parent? old = none := by
  by_cases hpar : h.parent? old = some p
  · rcases hf.attach p new (some old) with ⟨e, hrun⟩ | ⟨h₁, hrun, hmoved, hcycle⟩
    · refine .inl ⟨e, ?_⟩
      rw [Host.replace, Run.bind_ok (requireChild_apply hpar), Run.bind_apply, hrun]
    · obtain ⟨nc, hc, -⟩ := exists_of_parent? hpar
      obtain ⟨nc₁, hc₁⟩ : ∃ nc, h₁.get? old = some nc := by
        rw [← Option.isSome_iff_exists, hmoved.known, hc]
        rfl
      have hg₁ := hmoved.gains hf hcycle
      obtain ⟨h', hrun', hg, hgone⟩ := hg₁.forest.unlink_discard hc₁ (.replace p new old)
      refine .inr ⟨h', ?_, hpar, ⟨hg.forest, Nat.le_trans hg₁.size_le hg.size_le, fun hq => ?_⟩, hgone⟩
      · rw [Host.replace, Run.bind_ok (requireChild_apply hpar), Run.bind_ok hrun, hrun']
      · exact hg₁.parent (hg.parent_of not_false hq)
  · exact .inl ⟨_, by rw [Host.replace, Run.bind_apply, requireChild_fails hpar]⟩

end

end Host

end Trellis
