import Mathlib.Logic.ExistsUnique
import Trellis.Proofs.Template.Lexical
import Trellis.Proofs.Template.Numbering

/-!
# Branches by number

The rows of a template name the branch that another one goes on from. Read off these numbers,
`Template.chainAt` is the chain behind a branch and `Template.conditionHolds` says whether the branch
is shown. The generator hands its chains down instead, from sibling to sibling; `generate_eq_byNumber`:
it shows what it would show if it asked `conditionHolds` at every branch.

Members of a chain exclude each other (`conditionHolds_chain`): each one is shown just when its own
test holds and no test before it does. The induction is on the position in the chain, and what it
carries is which tests have held so far (`ChainRun.taken_iff`).
-/

namespace Trellis

/-- The condition of a branch: an `if`, failing that an `elif`; the last one of a chain has neither. -/
def Branch.test? (b : Branch) : Option Program := b.ifTest.or b.elifTest

namespace Template

/-! ## 1. Chains by number -/

/-- The branch that a row stands for. -/
def branchAt (t : Template) (i : Nat) : Option Branch := t.branches[i]?.join

/-- The number of the branch that a row goes on from. -/
def linkAt (t : Template) (i : Nat) : Option Nat := t.rows[i]?.bind Row.chain

/-- The chain behind a row, along the numbers from each branch to the one it goes on from. -/
def chainAt (t : Template) (i : Nat) : Chain :=
  match t.linkAt i with
  | none => []
  | some c =>
    if c < i then
      match t.branchAt c with
      | none => []
      | some b => b :: t.chainAt c
    else []
termination_by i

/-- Whether what stands in a row is shown, for what tests say in a scope. -/
def conditionHolds (t : Template) (i : Nat) (truth : Program → Bool) : Bool :=
  match t.branchAt i with
  | none => true
  | some b => b.holds truth (t.chainAt i)

variable {t : Template} {i c : Nat} {b : Branch}

theorem branchAt_eq_some_iff : t.branchAt i = some b ↔ t.branches[i]? = some (some b) := by
  rw [branchAt, Option.join_eq_some_iff]

theorem conditionHolds_eq (h : t.branchAt i = some b) (truth : Program → Bool) :
    t.conditionHolds i truth = b.holds truth (t.chainAt i) := by
  rw [conditionHolds, h]

theorem chainAt_of_none (h : t.linkAt i = none) : t.chainAt i = [] := by
  rw [chainAt, h]

/-- Where a row goes on from: a branch with a test and a smaller number. -/
theorem linkAt_spec (h : t.linkAt i = some c) :
    c < i ∧ (∀ b, t.branchAt i = some b → b.ifTest = none) ∧
      ∃ b, t.branchAt c = some b ∧ b.continues = true := by
  obtain ⟨r, hr, hchain⟩ := Option.bind_eq_some_iff.mp h
  obtain ⟨⟨b, hb, htest⟩, hlt, b', hb', hcontinues⟩ := chain_links hr hchain
  refine ⟨hlt, fun d hd => ?_, b', branchAt_eq_some_iff.mpr hb', hcontinues⟩
  rw [branchAt_eq_some_iff, hb] at hd
  obtain rfl := Option.some.inj (Option.some.inj hd)
  exact htest

theorem chainAt_of_some (h : t.linkAt i = some c) (hb : t.branchAt c = some b) :
    t.chainAt i = b :: t.chainAt c := by
  rw [chainAt, h]
  dsimp only
  rw [if_pos (linkAt_spec h).1, hb]

/-- A branch with an `if` begins a chain. -/
theorem linkAt_eq_none (hb : t.branchAt i = some b) (h : b.ifTest.isSome = true) :
    t.linkAt i = none := by
  cases hlink : t.linkAt i with
  | none => rfl
  | some c =>
    rw [(linkAt_spec hlink).2.1 b hb] at h
    cases h

/-! ## 2. Runs of branches -/

/-- Branches one behind the other, each with its number: the first begins a chain, every other one
    goes on from the one before it. -/
structure ChainRun (t : Template) (members : List (Nat × Branch)) : Prop where
  branch : ∀ m ∈ members, t.branchAt m.1 = some m.2
  /-- A member has a test or is an `else`. -/
  kind : ∀ m ∈ members, m.2.test?.isSome = true ∨ m.2.isElse = true
  first : ∀ m ∈ members.head?, m.2.ifTest.isSome = true ∨ t.linkAt m.1 = none
  link : ∀ (k : Nat) (m n : Nat × Branch), members[k]? = some m → members[k + 1]? = some n →
    t.linkAt n.1 = some m.1

/-- No test of these members holds. -/
def NoneHolds (truth : Program → Bool) (members : List (Nat × Branch)) : Prop :=
  ∀ m ∈ members, ∀ p, m.2.test? = some p → truth p = false

section

variable {members : List (Nat × Branch)} {k : Nat} {m n : Nat × Branch} {truth : Program → Bool}

theorem noneHolds_take_succ (h : members[k]? = some m) :
    NoneHolds truth (members.take (k + 1)) ↔
      NoneHolds truth (members.take k) ∧ ∀ p, m.2.test? = some p → truth p = false := by
  rw [List.take_add_one, h, Option.toList_some]
  constructor
  · intro hnone
    exact ⟨fun d hd => hnone d (List.mem_append_left _ hd),
      hnone m (List.mem_append_right _ (List.mem_singleton_self m))⟩
  · rintro ⟨hbefore, hm⟩ d hd
    rcases List.mem_append.mp hd with hd | hd
    · exact hbefore d hd
    · obtain rfl := List.mem_singleton.mp hd
      exact hm

/-- A member that another one goes on from has a test. -/
theorem ChainRun.test?_isSome (h : t.ChainRun members) (hm : members[k]? = some m)
    (hn : members[k + 1]? = some n) : m.2.test?.isSome = true := by
  obtain ⟨_, _, b, hb, hcontinues⟩ := linkAt_spec (h.link k m n hm hn)
  rw [h.branch m (List.mem_of_getElem? hm)] at hb
  obtain rfl := Option.some.inj hb
  rw [Branch.test?, Option.isSome_or]
  exact hcontinues

/-- A member with an `if` is the first one of its chain. -/
theorem ChainRun.chainAt_eq_nil (h : t.ChainRun members) (hm : m ∈ members)
    (htest : m.2.ifTest.isSome = true) : t.chainAt m.1 = [] :=
  chainAt_of_none (linkAt_eq_none (h.branch m hm) htest)

/-- **Whether any member before the one at `k` was taken** is whether any test before it holds. -/
theorem ChainRun.taken_iff (h : t.ChainRun members) (truth : Program → Bool)
    (hm : members[k]? = some m) :
    (t.chainAt m.1).taken truth = false ↔ NoneHolds truth (members.take k) := by
  induction k generalizing m with
  | zero =>
    have hmem : m ∈ members := List.mem_of_getElem? hm
    have hlink : t.linkAt m.1 = none := by
      rcases h.first m (by rwa [List.head?_eq_getElem?]) with htest | hlink
      · exact linkAt_eq_none (h.branch m hmem) htest
      · exact hlink
    rw [chainAt_of_none hlink]
    exact iff_of_true rfl (by simp [NoneHolds])
  | succ k ih =>
    have hlt : k < members.length := by
      have := (List.getElem?_eq_some_iff.mp hm).1
      omega
    obtain ⟨d, hd⟩ : ∃ d, members[k]? = some d := ⟨_, List.getElem?_eq_getElem hlt⟩
    have hmem : d ∈ members := List.mem_of_getElem? hd
    have hsome : d.2.test?.isSome = true := h.test?_isSome hd hm
    rw [chainAt_of_some (h.link k d m hd hm) (h.branch d hmem), noneHolds_take_succ hd, ← ih hd,
      Chain.taken]
    cases hif : d.2.ifTest with
    | some p => simp [Branch.test?, hif, h.chainAt_eq_nil hmem (by rw [hif]; rfl), Chain.taken]
    | none =>
      cases helif : d.2.elifTest with
      | some p => simp [Branch.test?, hif, helif]
      | none => simp [Branch.test?, hif, helif] at hsome

/-- A branch that begins a chain, or behind one: shown when nothing before it was taken and its own
    test holds, if it has one. -/
theorem holds_iff {before : Chain} (hkind : b.test?.isSome = true ∨ b.isElse = true)
    (hfirst : b.ifTest.isSome = true → before = []) :
    b.holds truth before = true ↔
      before.taken truth = false ∧ ∀ p, b.test? = some p → truth p = true := by
  rw [Branch.holds]
  cases hif : b.ifTest with
  | some p => simp [Branch.test?, hif, hfirst (by rw [hif]; rfl), Chain.taken]
  | none =>
    cases helif : b.elifTest with
    | some p => simp [Branch.test?, hif, helif]
    | none =>
      have helse : b.isElse = true := by simpa [Branch.test?, hif, helif] using hkind
      simp [Branch.test?, hif, helif, helse]

/-- A member is shown when no test before it holds and its own one does, if it has one. -/
theorem ChainRun.conditionHolds_iff (h : t.ChainRun members) (truth : Program → Bool)
    (hm : members[k]? = some m) :
    t.conditionHolds m.1 truth = true ↔
      NoneHolds truth (members.take k) ∧ ∀ p, m.2.test? = some p → truth p = true := by
  have hmem : m ∈ members := List.mem_of_getElem? hm
  rw [conditionHolds_eq (h.branch m hmem), holds_iff (h.kind m hmem) (h.chainAt_eq_nil hmem),
    h.taken_iff truth hm]

/-- Of two members the later one is not shown when the earlier one is. -/
theorem ChainRun.not_conditionHolds (h : t.ChainRun members) {j : Nat} (hjk : j < k)
    (hm : members[j]? = some m) (hn : members[k]? = some n)
    (hshown : t.conditionHolds m.1 truth = true) : ¬ t.conditionHolds n.1 truth = true := by
  intro hlater
  obtain ⟨d, hd⟩ : ∃ d, members[j + 1]? = some d := by
    have := (List.getElem?_eq_some_iff.mp hn).1
    exact ⟨_, List.getElem?_eq_getElem (by omega)⟩
  obtain ⟨p, hp⟩ := Option.isSome_iff_exists.mp (h.test?_isSome hm hd)
  have htrue : truth p = true := ((h.conditionHolds_iff truth hm).mp hshown).2 p hp
  have hbefore : m ∈ members.take k := by
    rw [List.mem_iff_getElem?]
    exact ⟨j, by rw [List.getElem?_take_of_lt hjk, hm]⟩
  rw [((h.conditionHolds_iff truth hn).mp hlater).1 m hbefore p hp] at htrue
  cases htrue

/-- As long as no member is shown, no test has held. -/
theorem ChainRun.noneHolds_of_none_shown (h : t.ChainRun members)
    (hnone : ∀ j < k, ∀ m, members[j]? = some m → ¬ t.conditionHolds m.1 truth = true) :
    NoneHolds truth (members.take k) := by
  induction k with
  | zero => simp [NoneHolds]
  | succ k ih =>
    have hbefore := ih fun j hj => hnone j (by omega)
    cases hm : members[k]? with
    | none =>
      rw [List.take_add_one, hm, Option.toList_none, List.append_nil]
      exact hbefore
    | some m =>
      refine (noneHolds_take_succ hm).mpr ⟨hbefore, fun p hp => Bool.eq_false_iff.mpr fun htrue => ?_⟩
      refine hnone k (Nat.lt_succ_self k) m hm ((h.conditionHolds_iff truth hm).mpr ⟨hbefore, ?_⟩)
      intro q hq
      rw [hp] at hq
      obtain rfl := Option.some.inj hq
      exact htrue

/-- With a member that has no test some member is shown. -/
theorem ChainRun.exists_shown (h : t.ChainRun members) (truth : Program → Bool)
    (hm : members[k]? = some m) (htest : m.2.test? = none) :
    ∃ (j : Nat) (n : Nat × Branch), members[j]? = some n ∧ t.conditionHolds n.1 truth = true := by
  refine Classical.byContradiction fun hnone => ?_
  have hbefore : NoneHolds truth (members.take k) :=
    h.noneHolds_of_none_shown fun j _ n hn hshown => hnone ⟨j, n, hn, hshown⟩
  refine hnone ⟨k, m, hm, (h.conditionHolds_iff truth hm).mpr ⟨hbefore, fun p hp => ?_⟩⟩
  rw [htest] at hp
  cases hp

end

/-! ## 3. The generator by number -/

/-- The chain that is handed down to a tree is the one its numbers lead to. -/
def Follows (t : Template) (chain : Option Nat) (before : Chain) : Prop :=
  match chain with
  | none => before = []
  | some c => ∃ b, t.branchAt c = some b ∧ before = b :: t.chainAt c

section

variable {s : Spot} {chain : Option Nat} {before : Chain} {n body : Node}

theorem Stands.linkAt_eq (h : t.Stands s chain n) : t.linkAt s.id = (n.row s chain).chain := by
  rw [linkAt, h.getElem?_rows]
  rfl

theorem Stands.branchAt_eq (h : t.Stands s chain n) : t.branchAt s.id = n.branch? := by
  rw [branchAt, h.getElem?_branches]
  rfl

theorem Follows.chainAt_eq {chain : Option Nat} (h : t.Follows chain before)
    (hlink : t.linkAt i = chain) : t.chainAt i = before := by
  cases chain with
  | none =>
    obtain rfl := h
    exact chainAt_of_none hlink
  | some c =>
    obtain ⟨b, hb, rfl⟩ := h
    exact chainAt_of_some hlink hb

/-- A branch without an `if` stands behind the chain that is handed down to it. -/
theorem Stands.chainAt_eq (h : t.Stands s chain (.branch b body)) (hbefore : t.Follows chain before)
    (htest : b.ifTest = none) : t.chainAt s.id = before := by
  refine hbefore.chainAt_eq ?_
  rw [h.linkAt_eq]
  simp [Node.row, htest]

/-- In front of the first of siblings nothing is handed down. -/
theorem follows_nil (t : Template) : t.Follows none [] := rfl

/-- **The generator decides each branch by its number.** -/
theorem Stands.holds_eq (h : t.Stands s chain (.branch b body)) (hbefore : t.Follows chain before)
    (truth : Program → Bool) : b.holds truth before = t.conditionHolds s.id truth := by
  rw [conditionHolds_eq h.branchAt_eq]
  cases htest : b.ifTest with
  | none => rw [h.chainAt_eq hbefore htest]
  | some p => rw [Branch.holds, Branch.holds, htest]

/-- What is handed on behind a tree is what its numbers lead to there. -/
theorem Follows.next (h : t.Stands s chain n) (hbefore : t.Follows chain before) :
    t.Follows (n.chainId s.id) (before.next n) := by
  cases n with
  | text p => rfl
  | element e children => rfl
  | branch b body =>
    have hb : t.branchAt s.id = some b := h.branchAt_eq
    cases hif : b.ifTest with
    | some p =>
      have hnone : t.chainAt s.id = [] :=
        chainAt_of_none (linkAt_eq_none hb (by rw [hif]; rfl))
      simpa [Node.chainId, Chain.next, hif, Follows, hnone] using hb
    | none =>
      have hchain : t.chainAt s.id = before := h.chainAt_eq hbefore hif
      cases helif : b.elifTest with
      | some p => simpa [Node.chainId, Chain.next, hif, helif, Follows, hchain] using hb
      | none => simp [Node.chainId, Chain.next, hif, helif, Follows]
  | loop l body =>
    cases body with
    | branch b body =>
      have hround : t.Stands s.below.below none (.branch b body) := h.round
      have hb : t.branchAt (s.id + 2) = some b := hround.branchAt_eq
      have hnone : t.chainAt (s.id + 2) = [] := by
        refine chainAt_of_none (hround.linkAt_eq.trans ?_)
        simp [Node.row]
      rw [Node.chainId, Chain.next, ← Branch.continues]
      by_cases hcontinues : b.continues = true
      · rw [if_pos hcontinues, if_pos hcontinues]
        exact ⟨b, hb, by rw [hnone]⟩
      · rw [if_neg hcontinues, if_neg hcontinues]
        rfl
    | text p => rfl
    | element e children => rfl
    | loop l body => rfl

end

end Template

mutual

/-- The nodes that show a tree with the number `id` when branches are decided by number. -/
def Node.meaningBy (holds : Nat → (Program → Bool) → Bool) (m : Machine) (layers : Layers)
    (place : Place) (id : Nat) (key : String) : Node → List VNode
  | .text p => [VNode.ofText (p.value m layers place).toText]
  | .element e children =>
    match e.kind.showing with
    | .nothing => []
    | .children => meaningAllBy holds m layers (1 :: place) 0 (id + 1) children
    | .node kind component =>
      [{ VNode.plain kind e.tag with
          component, key
          attrs := attrValues m layers (0 :: place) 0 e.attrs
          events := e.events
          children := clearRepeats (meaningAllBy holds m layers (1 :: place) 0 (id + 1) children) }]
  | .branch _ body =>
    if holds id (fun p => (p.value m layers (0 :: place)).isTruthy) then
      body.meaningBy holds m layers (1 :: place) (id + 1) key
    else []
  | .loop l body =>
    ((l.source.value m layers (0 :: place)).items.zipIdx).flatMap fun ((item, index), round) =>
      let layers := layers.bindRound l item index
      let place := round :: 1 :: place
      body.meaningBy holds m layers (1 :: place) (id + 2) (l.keyOf m layers (0 :: place))

/-- The nodes that show trees one behind the other, the first of them at position `i` and with the
    number `id`. -/
def meaningAllBy (holds : Nat → (Program → Bool) → Bool) (m : Machine) (layers : Layers)
    (place : Place) (i id : Nat) : List Node → List VNode
  | [] => []
  | n :: rest =>
    n.meaningBy holds m layers (i :: place) id ""
      ++ meaningAllBy holds m layers place (i + 1) (id + n.size) rest

end

namespace Template

variable {t : Template}

mutual

theorem meaningBy_eq (m : Machine) : ∀ (n : Node) {s : Spot} {chain : Option Nat} {before : Chain}
    (layers : Layers) (place : Place) (key : String), t.Stands s chain n → t.Follows chain before →
    n.meaning m layers place before key = n.meaningBy t.conditionHolds m layers place s.id key
  | .text p, s, chain, before, layers, place, key, h, hbefore => by
    rw [Node.meaning, Node.meaningBy]
  | .element e children, s, chain, before, layers, place, key, h, hbefore => by
    have hchildren : ∀ front n back, children = front ++ n :: back →
        t.Stands ⟨s.id + 1 + sizeAll front, some s.id, 0 + front.length, s.depth + 1⟩
          (chainBehind (s.id + 1) none front) n := by
      intro front n back hsplit
      subst hsplit
      rw [Nat.zero_add]
      exact .child h
    have hall := meaningAllBy_eq m children layers (1 :: place) 0 hchildren t.follows_nil
    rw [Node.meaning, Node.meaningBy]
    cases e.kind.showing with
    | nothing => rfl
    | children => exact hall
    | node kind component =>
      dsimp only
      rw [hall]
  | .branch b body, s, chain, before, layers, place, key, h, hbefore => by
    have hbody := meaningBy_eq m body layers (1 :: place) key h.body t.follows_nil
    rw [Node.meaning, Node.meaningBy, h.holds_eq hbefore, hbody]
    rfl
  | .loop l body, s, chain, before, layers, place, key, h, hbefore => by
    rw [Node.meaning, Node.meaningBy]
    refine congrArg (List.flatMap · _) (funext fun ⟨⟨item, index⟩, round⟩ => ?_)
    exact meaningBy_eq m body _ _ _ h.round t.follows_nil

theorem meaningAllBy_eq (m : Machine) : ∀ (ns : List Node) {parent : Option Nat}
    {depth id index : Nat} {chain : Option Nat} {before : Chain} (layers : Layers) (place : Place)
    (i : Nat),
    (∀ front n back, ns = front ++ n :: back →
      t.Stands ⟨id + sizeAll front, parent, index + front.length, depth⟩
        (chainBehind id chain front) n) →
    t.Follows chain before →
    meaningAll m layers place i before ns =
      meaningAllBy t.conditionHolds m layers place i id ns
  | [], _, _, _, _, _, _, _, _, _, _, _ => rfl
  | n :: rest, parent, depth, id, index, chain, before, layers, place, i, h, hbefore => by
    have hn : t.Stands ⟨id, parent, index, depth⟩ chain n := h [] n rest rfl
    have hback : ∀ front k back, rest = front ++ k :: back →
        t.Stands ⟨id + n.size + sizeAll front, parent, index + 1 + front.length, depth⟩
          (chainBehind (id + n.size) (n.chainId id) front) k := by
      intro front k back hsplit
      have hk := h (n :: front) k back (by rw [hsplit]; rfl)
      rwa [sizeAll, List.length_cons, chainBehind, ← Nat.add_assoc, Nat.add_comm front.length,
        ← Nat.add_assoc] at hk
    have hrest := meaningAllBy_eq m rest layers place (i + 1) hback (hbefore.next hn)
    rw [meaningAll, meaningAllBy, meaningBy_eq m n layers (i :: place) "" hn hbefore, hrest]

end

/-- **The generator shows a branch just when the condition of its number holds.** -/
theorem generate_eq_byNumber (t : Template) (run : Nat) (data : Dict Value) :
    t.generate run data = .root (clearRepeats (meaningAllBy t.conditionHolds t.machine
      (t.layers data) (renderPlace run) 0 1 t.children)) := by
  have hchildren : ∀ front n back, t.children = front ++ n :: back →
      t.Stands ⟨1 + sizeAll front, some 0, 0 + front.length, 1⟩ (chainBehind 1 none front) n := by
    intro front n back hsplit
    rw [Nat.zero_add]
    exact .top hsplit
  rw [t.generate_eq, meaningAllBy_eq t.machine t.children (t.layers data) (renderPlace run) 0 hchildren
    t.follows_nil]

/-! ## 4. The members of a chain exclude each other -/

/-- **At most one member of a chain is shown, the first one whose test holds.** In any scope a member
    is shown just when the tests of all earlier ones fail and its own one holds, if it has one; a
    member without a test stands last, and with one in the chain exactly one member is shown. What
    the generator shows is decided by these conditions. -/
theorem conditionHolds_chain (t : Template) {members : List (Nat × Branch)}
    (h : t.ChainRun members) (truth : Program → Bool) :
    (∀ (j k : Nat) (m n : Nat × Branch), members[j]? = some m → members[k]? = some n →
        t.conditionHolds m.1 truth = true → t.conditionHolds n.1 truth = true → j = k) ∧
      (∀ (k : Nat) (m : Nat × Branch) (p : Program), members[k]? = some m → m.2.test? = some p →
        (t.conditionHolds m.1 truth = true ↔
          truth p = true ∧ NoneHolds truth (members.take k))) ∧
      (∀ (k : Nat) (m : Nat × Branch), members[k]? = some m → m.2.test? = none →
        k + 1 = members.length ∧
          (t.conditionHolds m.1 truth = true ↔ NoneHolds truth (members.take k)) ∧
          ∃! j : Nat, ∃ n : Nat × Branch,
            members[j]? = some n ∧ t.conditionHolds n.1 truth = true) ∧
      ∀ run data, t.generate run data = .root (clearRepeats (meaningAllBy t.conditionHolds t.machine
        (t.layers data) (renderPlace run) 0 1 t.children)) := by
  have hunique : ∀ (j k : Nat) (m n : Nat × Branch), members[j]? = some m → members[k]? = some n →
      t.conditionHolds m.1 truth = true → t.conditionHolds n.1 truth = true → j = k := by
    intro j k m n hm hn hshown hshown'
    rcases Nat.lt_trichotomy j k with hlt | heq | hgt
    · exact absurd hshown' (h.not_conditionHolds hlt hm hn hshown)
    · exact heq
    · exact absurd hshown (h.not_conditionHolds hgt hn hm hshown')
  refine ⟨hunique, fun k m p hm hp => ?_, fun k m hm htest => ⟨?_, ?_, ?_⟩, t.generate_eq_byNumber⟩
  · rw [h.conditionHolds_iff truth hm, and_comm]
    simp only [hp, Option.some.injEq, forall_eq']
  · cases hn : members[k + 1]? with
    | none =>
      have hlast := List.getElem?_eq_none_iff.mp hn
      have hlt := (List.getElem?_eq_some_iff.mp hm).1
      omega
    | some n =>
      have hnext := h.test?_isSome hm hn
      rw [htest] at hnext
      cases hnext
  · rw [h.conditionHolds_iff truth hm]
    simp only [htest, reduceCtorEq, false_implies, implies_true, and_true]
  · obtain ⟨j, n, hn, hshown⟩ := h.exists_shown truth hm htest
    refine ⟨j, ⟨n, hn, hshown⟩, ?_⟩
    rintro j' ⟨n', hn', hshown'⟩
    exact hunique j' j n' n hn' hn hshown' hshown

/-- A test that looks a name up. -/
def nameTest (name : String) : Program :=
  ⟨"\x7b\x7b" ++ name ++ "\x7d\x7d", [.expr (.name name)]⟩

/-- Three branches, each around a text. -/
def threeBranches : Template where
  name := ""
  children :=
    [.branch ⟨some (nameTest "a"), none, false⟩ (.text ⟨"1", [.text "1"]⟩),
     .branch ⟨none, some (nameTest "b"), false⟩ (.text ⟨"2", [.text "2"]⟩),
     .branch ⟨none, none, true⟩ (.text ⟨"3", [.text "3"]⟩)]
  exports := []
  globals := []

/-- The branches with their numbers. -/
def threeMembers : List (Nat × Branch) :=
  [(1, ⟨some (nameTest "a"), none, false⟩), (3, ⟨none, some (nameTest "b"), false⟩),
    (5, ⟨none, none, true⟩)]

theorem chainRun_threeBranches : threeBranches.ChainRun threeMembers where
  branch m hm := by
    simp only [threeMembers, List.mem_cons, List.not_mem_nil, or_false] at hm
    rcases hm with rfl | rfl | rfl <;> rfl
  kind m hm := by
    simp only [threeMembers, List.mem_cons, List.not_mem_nil, or_false] at hm
    rcases hm with rfl | rfl | rfl <;> simp [Branch.test?]
  first m hm := by
    obtain rfl := Option.some.inj hm
    exact .inl rfl
  link k m n hm hn := by
    match k with
    | 0 =>
      obtain rfl := Option.some.inj hm
      obtain rfl := Option.some.inj hn
      rfl
    | 1 =>
      obtain rfl := Option.some.inj hm
      obtain rfl := Option.some.inj hn
      rfl
    | k + 2 => cases hn

/-- What tests say when only `b` is given. -/
def onlyB (p : Program) : Bool :=
  (p.value threeBranches.machine (threeBranches.layers [("b", .bool true)]) [0]).isTruthy

theorem conditionHolds_threeBranches :
    threeBranches.conditionHolds 3 onlyB = true ∧
      ∃! j : Nat, ∃ n : Nat × Branch,
        threeMembers[j]? = some n ∧ threeBranches.conditionHolds n.1 onlyB = true := by
  have h := threeBranches.conditionHolds_chain chainRun_threeBranches onlyB
  refine ⟨(h.2.1 1 (3, ⟨none, some (nameTest "b"), false⟩) (nameTest "b") rfl rfl).mpr ⟨rfl, ?_⟩,
    (h.2.2.1 2 (5, ⟨none, none, true⟩) rfl rfl).2.2⟩
  intro m hm p hp
  obtain rfl := List.mem_singleton.mp hm
  obtain rfl := Option.some.inj hp
  rfl

end Template

end Trellis
