import Trellis.Proofs.Host.Gains

/-!
# Hosts that runs lead to

`Host.after` is the host that a list of operations leaves, whether they end well or fail, with
whatever handles. An operation on a forest fails and leaves the host as it is, or ends well and
leaves a forest (`Op.settles`). So `Host.after` is always a forest (`forest_after`).
-/

namespace Trellis

namespace Host

/-! ## 1. Runs of operations -/

/-- An operation on the host. -/
inductive Op where
  | create (content : Content)
  | append (parent child : Handle)
  | insertBefore (parent child : Handle) (before : Option Handle)
  | remove (parent child : Handle)
  | replace (parent new old : Handle)
  | setAttr (node : Handle) (name : String) (value : Value)
  | removeAttr (node : Handle) (name : String)
  | listen (node : Handle) (b : Binding)
  | unlisten (node : Handle) (b : Binding)

/-- What an operation does. -/
def Op.run : Op → HostM Unit
  | .create content => do let _ ← Host.create content
  | .append parent child => Host.append parent child
  | .insertBefore parent child before => Host.insertBefore parent child before
  | .remove parent child => Host.remove parent child
  | .replace parent new old => Host.replace parent new old
  | .setAttr node name value => Host.setAttr node name value
  | .removeAttr node name => Host.removeAttr node name
  | .listen node b => Host.listen node b
  | .unlisten node b => Host.unlisten node b

/-- The host that operations leave, the failed ones among them too. -/
def after (ops : List Op) : Host := ops.foldl (fun h op => (op.run h).2) .empty

/-! ## 2. Single operations -/

/-- Every operation fails and changes nothing, or ends well and gains some nodes. -/
theorem Op.gaining {h : Host} (hf : h.Forest) (op : Op) : ∃ new, Gaining new op.run h := by
  cases op with
  | create content => exact ⟨_, create_gaining hf content⟩
  | append p c => exact ⟨_, hf.append_gaining p c⟩
  | insertBefore p c before => exact ⟨_, hf.insertBefore_gaining p c before⟩
  | remove p c =>
    refine ⟨fun _ _ => False, (hf.remove_gains p c).imp_right ?_⟩
    rintro ⟨h', hrun, hg, -⟩
    exact ⟨h', hrun, hg⟩
  | replace p new old =>
    refine ⟨fun q k => q = p ∧ k = new, (hf.replace_gains p new old).imp_right ?_⟩
    rintro ⟨h', hrun, -, hg, -⟩
    exact ⟨h', hrun, hg⟩
  | setAttr n name value => exact ⟨_, setAttr_gaining hf n name value⟩
  | removeAttr n name => exact ⟨_, removeAttr_gaining hf n name⟩
  | listen n b => exact ⟨_, listen_gaining hf n b⟩
  | unlisten n b => exact ⟨_, unlisten_gaining hf n b⟩

/-- No operation takes a handle back. -/
theorem Op.size_le {h : Host} (hf : h.Forest) (op : Op) :
    h.nodes.size ≤ (op.run h).2.nodes.size := by
  obtain ⟨new, hop⟩ := op.gaining hf
  exact (hop.gains hf).size_le

/-- A run on a forest fails on the host as it is, or ends well and leaves a forest. -/
def Settles {α : Type} (act : HostM α) (h : Host) : Prop :=
  (∃ e, act h = (.error e, h)) ∨ ∃ a h', act h = (.ok a, h') ∧ h'.Forest

/-- **Every operation on a forest fails and changes nothing, or leaves a forest.** -/
theorem Op.settles {h : Host} (hf : h.Forest) (op : Op) : Settles op.run h := by
  obtain ⟨new, hop⟩ := op.gaining hf
  refine hop.imp_right ?_
  rintro ⟨h', hrun, hg⟩
  exact ⟨(), h', hrun, hg.forest⟩

/-! ## 3. Runs -/

theorem Settles.forest {α : Type} {act : HostM α} {h : Host} (hf : h.Forest)
    (hs : Settles act h) : (act h).2.Forest := by
  rcases hs with ⟨e, hrun⟩ | ⟨a, h', hrun, hf'⟩
  · rwa [hrun]
  · rwa [hrun]

theorem forest_empty : Forest .empty where
  given := Nat.one_pos
  mem_children_iff p c := by
    cases p <;> cases c <;> simp [children, parent?, get?, empty, HostNode.bare]
  nodup_children p := by
    cases p <;> simp [children, get?, empty, HostNode.bare]
  wellFounded := by
    refine ⟨fun n => ⟨n, fun p hp => ?_⟩⟩
    cases n <;> simp [IsParent, parent?, get?, empty, HostNode.bare] at hp

/-- **Runs lead to forests.** -/
theorem forest_after (ops : List Op) : (after ops).Forest := by
  have hall : ∀ h : Host, h.Forest → (ops.foldl (fun h op => (op.run h).2) h).Forest := by
    induction ops with
    | nil => exact fun h hf => hf
    | cons op ops ih => exact fun h hf => ih _ ((op.settles hf).forest hf)
  exact hall .empty forest_empty

/-- Everything around a known node is known, after every run of operations. -/
theorem around_after (ops : List Op) {n : Handle} {nd : HostNode}
    (hn : (after ops).get? n = some nd) :
    Around (after ops) (· ∈ (after ops).path n) n := (forest_after ops).around hn

end Host

end Trellis
