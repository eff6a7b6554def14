import Trellis.Expr.Program

/-!
# Expressions without calls

The place of an expression is what the functions that are made there are known by, and a page makes
functions only by calling those of its modules. So an expression without calls has the same value in
every place (`Expr.eval_callFree`), and so has a program (`Program.value_callFree`).
-/

namespace Trellis

/-! ## 1. Expressions -/

mutual

/-- Whether nothing is called in an expression. -/
def Expr.callFree : Expr → Bool
  | .literal _ | .name _ | .function _ => true
  | .array items => callFreeAll items
  | .object fields => callFreeFields fields
  | .member base _ => base.callFree
  | .index base key => base.callFree && key.callFree
  | .call _ _ => false
  | .unary _ operand => operand.callFree
  | .binary _ left right => left.callFree && right.callFree
  | .logical _ left right => left.callFree && right.callFree
  | .conditional test yes no => test.callFree && yes.callFree && no.callFree

/-- Whether nothing is called in expressions. -/
def callFreeAll : List Expr → Bool
  | [] => true
  | e :: es => e.callFree && callFreeAll es

/-- Whether nothing is called in the fields of an object. -/
def callFreeFields : List (String × Expr) → Bool
  | [] => true
  | (_, e) :: fields => e.callFree && callFreeFields fields

end

section

variable {call : Caller} (layers : Layers)

mutual

/-- **An expression without calls has one value, wherever it stands.** -/
theorem Expr.eval_callFree : ∀ (e : Expr) (place place' : Place) (m : Machine), e.callFree = true →
    e.eval call (.page layers) place m = e.eval call (.page layers) place' m
  | .literal l, _, _, _, _ => by rw [Expr.eval, Expr.eval]
  | .name x, _, _, _, _ => by rw [Expr.eval, Expr.eval]
  | .function code, _, _, _, _ => by
    rw [Expr.eval, Expr.eval]
    rfl
  | .array items, place, place', m, h => by
    rw [Expr.eval, Expr.eval, evalAll_callFree items place place' 0 m h]
  | .object fields, place, place', m, h => by
    rw [Expr.eval, Expr.eval, evalFields_callFree fields place place' 0 m h]
  | .member base field, place, place', m, h => by
    rw [Expr.eval, Expr.eval, Expr.eval_callFree base _ (0 :: place') m h]
  | .index base key, place, place', m, h => by
    rw [Expr.callFree, Bool.and_eq_true] at h
    rw [Expr.eval, Expr.eval, Expr.eval_callFree base _ (0 :: place') m h.1]
    dsimp only
    rw [Expr.eval_callFree key _ (1 :: place') _ h.2]
  | .unary op operand, place, place', m, h => by
    rw [Expr.eval, Expr.eval, Expr.eval_callFree operand _ (0 :: place') m h]
  | .binary op left right, place, place', m, h => by
    rw [Expr.callFree, Bool.and_eq_true] at h
    rw [Expr.eval, Expr.eval, Expr.eval_callFree left _ (0 :: place') m h.1]
    dsimp only
    rw [Expr.eval_callFree right _ (1 :: place') _ h.2]
  | .logical op left right, place, place', m, h => by
    rw [Expr.callFree, Bool.and_eq_true] at h
    rw [Expr.eval, Expr.eval, Expr.eval_callFree left _ (0 :: place') m h.1]
    dsimp only
    rw [Expr.eval_callFree right _ (1 :: place') _ h.2]
  | .conditional test yes no, place, place', m, h => by
    rw [Expr.callFree, Bool.and_eq_true, Bool.and_eq_true] at h
    rw [Expr.eval, Expr.eval, Expr.eval_callFree test _ (0 :: place') m h.1.1]
    dsimp only
    rw [Expr.eval_callFree yes _ (1 :: place') _ h.1.2, Expr.eval_callFree no _ (2 :: place') _ h.2]

theorem evalAll_callFree : ∀ (es : List Expr) (place place' : Place) (i : Nat) (m : Machine),
    callFreeAll es = true →
      evalAll call (.page layers) place i es m = evalAll call (.page layers) place' i es m
  | [], _, _, _, _, _ => rfl
  | e :: es, place, place', i, m, h => by
    rw [callFreeAll, Bool.and_eq_true] at h
    rw [evalAll, evalAll, Expr.eval_callFree e _ (i :: place') m h.1]
    dsimp only
    rw [evalAll_callFree es place place' _ _ h.2]

theorem evalFields_callFree : ∀ (fields : List (String × Expr)) (place place' : Place) (i : Nat)
    (m : Machine), callFreeFields fields = true →
      evalFields call (.page layers) place i fields m = evalFields call (.page layers) place' i fields m
  | [], _, _, _, _, _ => rfl
  | (k, e) :: fields, place, place', i, m, h => by
    rw [callFreeFields, Bool.and_eq_true] at h
    rw [evalFields, evalFields, Expr.eval_callFree e _ (i :: place') m h.1]
    dsimp only
    rw [evalFields_callFree fields place place' _ _ h.2]

end

end

/-! ## 2. Programs -/

/-- Whether nothing is called in a part of a text. -/
def Segment.callFree : Segment → Bool
  | .text _ => true
  | .expr e => e.callFree

/-- Whether nothing is called in a program. -/
def Program.callFree (p : Program) : Bool := p.segments.all Segment.callFree

namespace Program

variable (m : Machine) (layers : Layers) (place place' : Place)

theorem segmentValue_callFree (i : Nat) {seg : Segment} (h : seg.callFree = true) :
    segmentValue m layers place i seg = segmentValue m layers place' i seg := by
  cases seg with
  | text s => rfl
  | expr e =>
    rw [segmentValue, segmentValue, Expr.value, Expr.value,
      Expr.eval_callFree layers e (i :: place) (i :: place') m h]

theorem joined_callFree (i : Nat) {segs : List Segment} (h : segs.all Segment.callFree = true) :
    joined m layers place i segs = joined m layers place' i segs := by
  induction segs generalizing i with
  | nil => rfl
  | cons seg segs ih =>
    rw [List.all_cons, Bool.and_eq_true] at h
    rw [joined, joined, segmentValue_callFree m layers place place' i h.1, ih _ h.2]

/-- **A program without calls has one value, wherever it stands.** -/
theorem value_callFree {p : Program} (h : p.callFree = true) :
    p.value m layers place = p.value m layers place' := by
  unfold callFree at h
  unfold value
  split
  · rename_i seg hsegs
    rw [hsegs, List.all_cons, List.all_nil, Bool.and_true] at h
    exact segmentValue_callFree m layers place place' 0 h
  · rw [joined_callFree m layers place place' 0 h]

end Program

end Trellis
