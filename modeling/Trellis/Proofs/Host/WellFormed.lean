import Trellis.Host.Events
import Trellis.Host.Html
import Trellis.Proofs.Host.Reachable

/-!
# Well-formed hosts

What a host that operations lead to can be relied on for, whatever handles they were given: it is a
well-formed forest, all walks through it come to an end, and an operation that fails changes nothing
(`Host.wellFormed_after`).

Walks are given a number of steps, and `Forest.walk_stable` says that they never need more of them
than there are nodes: on the way to a child the path outwards gets longer, and no path is longer than
the number of nodes.
-/

namespace Trellis

namespace Host

open Relation (TransGen ReflTransGen)

/-! ## 1. Walks downwards -/

section

variable {h : Host} {α : Type}

/-- A walk from node to children that is told how far it may go gives the same with any number of
    steps that, with what lies outwards of the node, is more than the number of nodes. -/
theorem Forest.walk_same (hf : h.Forest) {f : Nat → Handle → α}
    (hstep : ∀ k l n, (∀ c ∈ h.children n, f k c = f l c) → f (k + 1) n = f (l + 1) n)
    {k l : Nat} {n : Handle} (hk : h.nodes.size < k + (h.path n).length)
    (hl : h.nodes.size < l + (h.path n).length) : f k n = f l n := by
  have hlength := hf.length_outwards_le h.nodes.size n
  rw [← path] at hlength
  induction k generalizing l n with
  | zero => omega
  | succ k ih =>
    cases l with
    | zero => omega
    | succ l =>
      refine hstep k l n fun c hc => ?_
      have hpath := hf.path_of_parent? ((hf.mem_children_iff n c).mp hc)
      have hc' := congrArg List.length hpath
      rw [List.length_cons] at hc'
      exact ih (by omega) (by omega) (hf.length_outwards_le _ c)

/-- **More steps than there are nodes lead no further downwards.** -/
theorem Forest.walk_stable (hf : h.Forest) {f : Nat → Handle → α}
    (hstep : ∀ k l n, (∀ c ∈ h.children n, f k c = f l c) → f (k + 1) n = f (l + 1) n)
    {fuel : Nat} (hfuel : h.nodes.size ≤ fuel) (n : Handle) : f fuel n = f h.nodes.size n := by
  have hpath : 0 < (h.path n).length := List.length_pos_of_mem (hf.self_mem_path n)
  exact hf.walk_same hstep (by omega) (by omega)

theorem Forest.htmlFrom_eq (hf : h.Forest) {fuel : Nat} (hfuel : h.nodes.size ≤ fuel)
    (n : Handle) : h.htmlFrom fuel n = h.toHtml n := by
  refine hf.walk_stable (f := h.htmlFrom) (fun k l n hc => ?_) hfuel n
  rw [htmlFrom, htmlFrom]
  cases hn : h.get? n with
  | none => rfl
  | some nd =>
    rw [children_of_get? hn] at hc
    rcases nd with ⟨content, attrs, listeners, children, parent⟩
    cases content with
    | text content => rfl
    | element tag =>
      dsimp only
      rw [List.map_congr_left hc]

theorem Forest.findFrom_eq (hf : h.Forest) (name text : String) {fuel : Nat}
    (hfuel : h.nodes.size ≤ fuel) (n : Handle) :
    h.findFrom name text fuel n = h.findByAttr n name text := by
  refine hf.walk_stable (f := h.findFrom name text) (fun k l n hc => ?_) hfuel n
  rw [findFrom, findFrom]
  split
  · rfl
  · generalize h.children n = cs at hc
    induction cs with
    | nil => rfl
    | cons c cs ih =>
      rw [List.findSome?_cons, List.findSome?_cons, hc c List.mem_cons_self,
        ih fun c hm => hc c (List.mem_cons_of_mem _ hm)]

end

/-! ## 2. Well-formed hosts -/

/-- Children and parents agree, there are no cycles, walks end by themselves, and the next handle is
    a new one. -/
structure WellFormed (h : Host) : Prop where
  child : ∀ p nd, h.get? p = some nd → ∀ c ∈ nd.children,
    h.knows c = true ∧ nd.children.count c = 1 ∧ h.parent? c = some p ∧
      ∀ q nq, h.get? q = some nq → c ∈ nq.children → q = p
  parent : ∀ c p, h.parent? c = some p → ∃ nd, h.get? p = some nd ∧ c ∈ nd.children
  acyclic : ∀ n, ¬ TransGen (fun p c => h.parent? c = some p) n n
  path : ∀ fuel n, h.nodes.size ≤ fuel → h.outwards fuel n = h.path n
  holds : ∀ outer inner, h.holds outer inner = true ↔
    ReflTransGen (fun p c => h.parent? c = some p) outer inner
  html : ∀ fuel n, h.nodes.size ≤ fuel → h.htmlFrom fuel n = h.toHtml n
  find : ∀ name text fuel n, h.nodes.size ≤ fuel →
    h.findFrom name text fuel n = h.findByAttr n name text
  next : ∀ n content, h.knows n = true → ∃ k h', create content h = (.ok k, h') ∧ n < k

theorem Forest.wellFormed {h : Host} (hf : h.Forest) : h.WellFormed where
  child p nd hp c hc := by
    have hmem : c ∈ h.children p := by rwa [children_of_get? hp]
    have hpar := (hf.mem_children_iff p c).mp hmem
    have hnodup : nd.children.Nodup := by
      rw [← children_of_get? hp]
      exact hf.nodup_children p
    refine ⟨?_, List.count_eq_one_of_mem hnodup hc, hpar, fun q nq hq hcq => ?_⟩
    · obtain ⟨nc, hnc, -⟩ := exists_of_parent? hpar
      rw [knows, hnc]
      rfl
    · have hpar' := (hf.mem_children_iff q c).mp (by rwa [children_of_get? hq])
      exact Option.some.inj (hpar'.symm.trans hpar)
  parent c p hc := hf.parent_known hc
  acyclic := hf.acyclic
  path fuel n hfuel := hf.outwards_eq_path hfuel n
  holds _ _ := hf.holds_iff
  html fuel n hfuel := hf.htmlFrom_eq hfuel n
  find name text fuel n hfuel := hf.findFrom_eq name text hfuel n
  next n content hn := by
    obtain ⟨nd, hnd⟩ := Option.isSome_iff_exists.mp hn
    exact ⟨_, _, create_apply content h, lt_size_of_get? hnd⟩

/-- **The host stays a well-formed forest and fails without a trace.** After any operations, with any
    handles and whether they ended well or not, the host is well formed, and each further operation
    ends well or leaves all nodes, the next handle and the log as they were. -/
theorem wellFormed_after (ops : List Op) :
    (after ops).WellFormed ∧
      ∀ op : Op, (op.run (after ops)).1 = .ok () ∨ (op.run (after ops)).2 = after ops := by
  have hf := forest_after ops
  refine ⟨hf.wellFormed, fun op => ?_⟩
  rcases op.settles hf with ⟨e, hrun⟩ | ⟨_, h', hrun, _⟩
  · exact .inr (by rw [hrun])
  · exact .inl (by rw [hrun])

end Host

end Trellis
