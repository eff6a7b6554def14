import Trellis.Template.Basic

/-!
# Chains of branches

Branches that stand next to each other form a chain: one with a test of its own begins it, those
that go on with it follow. At most one branch of a chain is shown. A chain is kept while one goes
through siblings, as the branches so far with the nearest first; a branch inside a loop counts for
what follows the loop. What a test says is a parameter.
-/
namespace Trellis

/-- The branches of a chain so far, the nearest first. -/
abbrev Chain := List Branch

/-- Whether any branch so far was taken. -/
def Chain.taken (truth : Program → Bool) : Chain → Bool
  | [] => false
  | b :: before =>
    match b.ifTest with
    | some p => truth p
    | none =>
      match b.elifTest with
      | some p => taken truth before || truth p
      | none => false

/-- Whether a branch is shown behind those of its chain. -/
def Branch.holds (truth : Program → Bool) (before : Chain) (b : Branch) : Bool :=
  match b.ifTest with
  | some p => truth p
  | none =>
    match b.elifTest with
    | some p => !before.taken truth && truth p
    | none => !b.isElse || !before.taken truth

/-- Whether a chain can go on behind a branch. -/
def Branch.continues (b : Branch) : Bool := b.ifTest.isSome || b.elifTest.isSome

/-- The chain for what follows a tree. -/
def Chain.next (before : Chain) : Node → Chain
  | .branch b _ =>
    if b.ifTest.isSome then [b] else if b.elifTest.isSome then b :: before else []
  | .loop _ (.branch b _) => if b.continues then [b] else []
  | _ => []

end Trellis
