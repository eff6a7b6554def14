import Mathlib.Logic.Basic
import Trellis.Proofs.Expr.Placeless
import Trellis.Proofs.Template.Lexical
import Trellis.Template.Attributes

/-!
# A loop at the head of a chain

An element with a loop and an `if` is shown once for each item whose test holds: the branch stands
inside the loop. A branch behind it, with an `elif` or an `else`, goes on with the chain outside the
loop, where the test of the head is asked once more and sees neither the item nor the index. So
whether the second branch is shown does not depend on what the loop has shown but on what the test
says outside (`next_eq_nil_iff`).

For a test that neither looks up the item or the index nor calls anything both are the same, and the
two elements exclude each other (`looped_head_next`). For a test of the item they do not.
-/

namespace Trellis

/-- A branch with an `if` is shown just when its test holds. -/
theorem Branch.holds_of_ifTest {b : Branch} {p : Program} (h : b.ifTest = some p)
    (truth : Program → Bool) (before : Chain) : b.holds truth before = truth p := by
  rw [holds, h]

namespace Statements

variable {s : Statements} {l : Loop} {p : Program} {n : Node}

/-! ## 1. Statements of both kinds -/

theorem wrap_looped_head (hloop : s.loop? = some l) (htest : s.ifTest = some p) :
    ∃ b : Branch, b.ifTest = some p ∧ s.wrap n = .loop l (.branch b n) := by
  refine ⟨⟨s.ifTest, s.elifTest, s.isElse⟩, htest, ?_⟩
  simp [wrap, branch?, htest, looped, hloop]

theorem wrap_next (htest : s.ifTest = .none) (h : s.elifTest.isSome = true ∨ s.isElse = true) :
    s.wrap n = .branch ⟨.none, s.elifTest, s.isElse⟩ (s.looped n) := by
  have hsome : (s.elifTest.isSome || s.isElse) = true := by simpa using h
  simp [wrap, branch?, htest, hsome]

/-- The chain behind a loop is its branch alone. -/
theorem next_looped_head {b : Branch} (htest : b.ifTest = some p) (before : Chain) :
    before.next (.loop l (.branch b n)) = [b] := by
  simp [Chain.next, Branch.continues, htest]

/-- A branch behind a head with an `if`: the head's test is asked first, then its own. -/
theorem holds_next {s : Statements} {b : Branch} (htest : b.ifTest = some p)
    (h : s.elifTest.isSome = true ∨ s.isElse = true) (truth : Program → Bool) :
    Branch.holds truth [b] ⟨.none, s.elifTest, s.isElse⟩ = true ↔
      truth p = false ∧ ∀ q, s.elifTest = some q → truth q = true := by
  cases helif : s.elifTest with
  | some q => simp [Branch.holds, Chain.taken, htest]
  | none =>
    have helse : s.isElse = true := by simpa [helif] using h
    simp [Branch.holds, Chain.taken, htest, helse]

end Statements

/-! ## 2. What is shown -/

/-- What a program says as a test. -/
def Program.isTrue (p : Program) (m : Machine) (layers : Layers) (place : Place) : Bool :=
  (p.value m layers place).isTruthy

section

variable (m : Machine) (layers : Layers) (place : Place)

variable {l : Loop} {p : Program} {b : Branch} {n : Node}

/-- A loop around a branch shows nothing unless the test holds in some round. -/
theorem exists_round_of_meaning_ne_nil (htest : b.ifTest = some p) (before : Chain) (key : String)
    (h : (Node.loop l (.branch b n)).meaning m layers place before key ≠ []) :
    ∃ item index round,
      ((item, index), round) ∈ (l.source.value m layers (0 :: place)).items.zipIdx ∧
        p.isTrue m (layers.bindRound l item index) (0 :: 1 :: round :: 1 :: place) = true := by
  obtain ⟨v, hv⟩ := List.exists_mem_of_ne_nil _ h
  rw [Node.meaning] at hv
  obtain ⟨⟨⟨item, index⟩, round⟩, hmem, hv⟩ := List.mem_flatMap.mp hv
  refine ⟨item, index, round, hmem, ?_⟩
  dsimp only at hv
  rw [Node.meaning, Branch.holds_of_ifTest htest] at hv
  split at hv
  · assumption
  · cases hv

/-- **What is behind a head with an `if` shows nothing** exactly when the head's test holds where it
    stands itself, or its own test fails there, or there is nothing in it to show. -/
theorem next_eq_nil_iff {next : Statements} (n : Node) (htest : b.ifTest = some p)
    (hchained : next.ifTest = none) (hnext : next.elifTest.isSome = true ∨ next.isElse = true) :
    (next.wrap n).meaning m layers place [b] "" = [] ↔
      p.isTrue m layers (0 :: place) = true ∨
        (∃ q, next.elifTest = some q ∧ q.isTrue m layers (0 :: place) = false) ∨
        (next.looped n).meaning m layers (1 :: place) [] "" = [] := by
  rw [Statements.wrap_next hchained hnext, Node.meaning]
  by_cases hholds : Branch.holds (fun p => (p.value m layers (0 :: place)).isTruthy) [b]
      ⟨none, next.elifTest, next.isElse⟩ = true
  · rw [if_pos hholds]
    obtain ⟨hp, hq⟩ := (Statements.holds_next htest hnext _).mp hholds
    constructor
    · exact fun h => .inr (.inr h)
    · rintro (h | ⟨q, hq', h⟩ | h)
      · rw [Program.isTrue, hp] at h
        cases h
      · rw [Program.isTrue, hq q hq'] at h
        cases h
      · exact h
  · rw [if_neg hholds]
    refine iff_of_true rfl ?_
    rw [Statements.holds_next htest hnext, not_and_or, not_forall] at hholds
    rcases hholds with h | ⟨q, h⟩
    · exact .inl (by simpa [Program.isTrue] using h)
    · obtain ⟨hq, h⟩ := Classical.not_imp.mp h
      exact .inr (.inl ⟨q, hq, by simpa [Program.isTrue] using h⟩)

/-- A test that looks up neither the item nor the index and calls nothing says in every round what it
    says around the loop. -/
theorem isTrue_bindRound (hitem : l.item ∉ p.names) (hindex : l.index ∉ p.names)
    (hcall : p.callFree = true) (item index : Value) (inner : Place) :
    p.isTrue m (layers.bindRound l item index) inner = p.isTrue m layers place := by
  have hagree : (layers.bindRound l item index).AgreeOn (· ∈ p.names) layers := by
    intro x hx
    have hnotIndex : l.index ≠ x := fun e => hindex (e ▸ hx)
    have hnotItem : l.item ≠ x := fun e => hitem (e ▸ hx)
    rw [Layers.lookup_bindRound, if_neg hnotIndex, if_neg hnotItem]
  rw [Program.isTrue, Program.isTrue, Program.value_agree hagree m inner fun _ hx => hx,
    Program.value_callFree m layers inner place hcall]

end

/-- **An element with a loop and an `if`, and the `elif` or `else` behind it.** The second one shows
    nothing exactly when the test of the first one holds outside the loop, or its own one fails there,
    or there is nothing in it to show. The first one shows something only if its test holds in some
    round. So they exclude each other if the test looks up neither the item nor the index of the loop
    and calls nothing; otherwise both can be shown. -/
theorem looped_head_next (m : Machine) (layers : Layers) (place : Place) (i : Nat) (before : Chain)
    {head next : Statements} {l : Loop} {p : Program} (hloop : head.loop? = some l)
    (htest : head.ifTest = some p) (hchained : next.ifTest = none)
    (hnext : next.elifTest.isSome = true ∨ next.isElse = true) (n n' : Node) (rest : List Node) :
    ∃ shown shown' : List VNode,
      meaningAll m layers place i before (head.wrap n :: next.wrap n' :: rest) =
          shown ++ shown' ++
            meaningAll m layers place (i + 2) ((before.next (head.wrap n)).next (next.wrap n')) rest ∧
        shown = (head.wrap n).meaning m layers (i :: place) before "" ∧
        shown' = (next.wrap n').meaning m layers ((i + 1) :: place) (before.next (head.wrap n)) "" ∧
        (shown' = [] ↔
          p.isTrue m layers (0 :: (i + 1) :: place) = true ∨
            (∃ q, next.elifTest = some q ∧ q.isTrue m layers (0 :: (i + 1) :: place) = false) ∨
            (next.looped n').meaning m layers (1 :: (i + 1) :: place) [] "" = []) ∧
        (shown ≠ [] → ∃ item index round,
          ((item, index), round) ∈ (l.source.value m layers (0 :: i :: place)).items.zipIdx ∧
            p.isTrue m (layers.bindRound l item index) (0 :: 1 :: round :: 1 :: i :: place) = true) ∧
        (l.item ∉ p.names → l.index ∉ p.names → p.callFree = true → shown ≠ [] → shown' = []) := by
  obtain ⟨b, hb, hwrap⟩ := Statements.wrap_looped_head (n := n) hloop htest
  have hbefore : before.next (head.wrap n) = [b] := by rw [hwrap, Statements.next_looped_head hb]
  have hempty := next_eq_nil_iff m layers ((i + 1) :: place) n' hb hchained hnext
  have hround : (head.wrap n).meaning m layers (i :: place) before "" ≠ [] → ∃ item index round,
      ((item, index), round) ∈ (l.source.value m layers (0 :: i :: place)).items.zipIdx ∧
        p.isTrue m (layers.bindRound l item index) (0 :: 1 :: round :: 1 :: i :: place) = true := by
    rw [hwrap]
    exact exists_round_of_meaning_ne_nil m layers (i :: place) hb before ""
  refine ⟨_, _, ?_, rfl, rfl, ?_⟩
  · rw [meaningAll, meaningAll, List.append_assoc]
  · rw [hbefore]
    refine ⟨hempty, hround, fun hitem hindex hcall hshown => ?_⟩
    obtain ⟨item, index, round, _, htrue⟩ := hround hshown
    rw [isTrue_bindRound m layers (0 :: (i + 1) :: place) hitem hindex hcall] at htrue
    exact hempty.mpr (.inl htrue)

/-- A loop over `l` that shows the items that are truthy. -/
def truthyItems : Statements :=
  { Statements.none with
      source := some ⟨"\x7b\x7bl\x7d\x7d", [.expr (.name "l")]⟩
      ifTest := some ⟨"\x7b\x7bitem\x7d\x7d", [.expr (.name "item")]⟩ }

/-- An `else`. -/
def otherwise : Statements := { Statements.none with isElse := true }

/-- With one item, a truthy one, the loop shows it and the `else` behind it is shown as well. -/
theorem looped_head_next_truthyItems :
    ∃ shown shown' others : List VNode,
      meaningAll ⟨[], 0⟩ ⟨[], [("l", .array [.bool true])], []⟩ [0, 1] 0 []
          [truthyItems.wrap (.text ⟨"x", [.text "x"]⟩), otherwise.wrap (.text ⟨"y", [.text "y"]⟩)] =
        shown ++ shown' ++ others ∧ shown ≠ [] ∧ shown' ≠ [] := by
  have htest : truthyItems.ifTest = some ⟨"\x7b\x7bitem\x7d\x7d", [.expr (.name "item")]⟩ := rfl
  have hchained : otherwise.ifTest = none := rfl
  obtain ⟨shown, shown', hall, hshown, -, hempty, -⟩ :=
    looped_head_next ⟨[], 0⟩ ⟨[], [("l", .array [.bool true])], []⟩ [0, 1] 0 [] rfl htest hchained
      (.inr rfl) (.text ⟨"x", [.text "x"]⟩) (.text ⟨"y", [.text "y"]⟩) []
  refine ⟨shown, shown', _, hall, ?_, ?_⟩
  · rw [hshown]
    exact List.cons_ne_nil _ _
  · rw [ne_eq, hempty]
    rintro (h | ⟨q, h, -⟩ | h)
    · cases h
    · cases h
    · cases h

end Trellis
