import Trellis.Expr.Program

/-!
# The names in an expression

An expression looks up the names that are written in it. Scopes that agree on these give it the same
value (`Expr.eval_agree`), and so for the programs of a page (`Program.value_agree`). The body of a
function is not run where the function is written, so its names do not count.
-/
namespace Trellis

/-! ## 1. Names -/

mutual

/-- The names that an expression looks up. -/
def Expr.names : Expr → List String
  | .literal _ => []
  | .name x => [x]
  | .array items => namesOfAll items
  | .object fields => namesOfFields fields
  | .function _ => []
  | .member base _ => base.names
  | .index base key => base.names ++ key.names
  | .call callee args => callee.names ++ namesOfAll args
  | .unary _ operand => operand.names
  | .binary _ left right => left.names ++ right.names
  | .logical _ left right => left.names ++ right.names
  | .conditional test yes no => test.names ++ yes.names ++ no.names

/-- The names that expressions look up. -/
def namesOfAll : List Expr → List String
  | [] => []
  | e :: es => e.names ++ namesOfAll es

/-- The names that the fields of an object look up. -/
def namesOfFields : List (String × Expr) → List String
  | [] => []
  | (_, e) :: fields => e.names ++ namesOfFields fields

end

/-- The names that a part of a text looks up. -/
def Segment.names : Segment → List String
  | .text _ => []
  | .expr e => e.names

/-- The names that a program looks up. -/
def Program.names (p : Program) : List String := p.segments.flatMap Segment.names

/-! ## 2. Expressions -/

/-- Two scopes that give the same under the names of a class and make the same functions. -/
structure Scope.AgreeOn (P : String → Prop) (s s' : Scope) : Prop where
  lookup : ∀ m x, P x → s.lookup m x = s'.lookup m x
  function : ∀ place code, s.function place code = s'.function place code

section

variable {call : Caller} {P : String → Prop} {s s' : Scope}

mutual

/-- **An expression sees the names in it, and nothing else of a scope.** -/
theorem Expr.eval_agree (h : s.AgreeOn P s') : ∀ (e : Expr) (place : Place) (m : Machine),
    (∀ x ∈ e.names, P x) → e.eval call s place m = e.eval call s' place m
  | .literal l, _, _, _ => by rw [Expr.eval, Expr.eval]
  | .name x, _, m, hn => by rw [Expr.eval, Expr.eval, h.lookup m x (hn x List.mem_cons_self)]
  | .array items, place, m, hn => by rw [Expr.eval, Expr.eval, evalAll_agree h items place 0 m hn]
  | .object fields, place, m, hn => by
    rw [Expr.eval, Expr.eval, evalFields_agree h fields place 0 m hn]
  | .function code, place, m, _ => by rw [Expr.eval, Expr.eval, h.function]
  | .member base field, place, m, hn => by rw [Expr.eval, Expr.eval, Expr.eval_agree h base _ m hn]
  | .index base key, place, m, hn => by
    obtain ⟨hbase, hkey⟩ := List.forall_mem_append.mp hn
    rw [Expr.eval, Expr.eval, Expr.eval_agree h base _ m hbase]
    dsimp only
    rw [Expr.eval_agree h key _ _ hkey]
  | .call callee args, place, m, hn => by
    obtain ⟨hcallee, hargs⟩ := List.forall_mem_append.mp hn
    rw [Expr.eval, Expr.eval, Expr.eval_agree h callee _ m hcallee]
    split
    · rw [evalAll_agree h args _ 0 _ hargs]
    · rfl
  | .unary op operand, place, m, hn => by
    rw [Expr.eval, Expr.eval, Expr.eval_agree h operand _ m hn]
  | .binary op left right, place, m, hn => by
    obtain ⟨hleft, hright⟩ := List.forall_mem_append.mp hn
    rw [Expr.eval, Expr.eval, Expr.eval_agree h left _ m hleft]
    dsimp only
    rw [Expr.eval_agree h right _ _ hright]
  | .logical op left right, place, m, hn => by
    obtain ⟨hleft, hright⟩ := List.forall_mem_append.mp hn
    rw [Expr.eval, Expr.eval, Expr.eval_agree h left _ m hleft]
    dsimp only
    rw [Expr.eval_agree h right _ _ hright]
  | .conditional test yes no, place, m, hn => by
    obtain ⟨hboth, hno⟩ := List.forall_mem_append.mp hn
    obtain ⟨htest, hyes⟩ := List.forall_mem_append.mp hboth
    rw [Expr.eval, Expr.eval, Expr.eval_agree h test _ m htest]
    dsimp only
    rw [Expr.eval_agree h yes _ _ hyes, Expr.eval_agree h no _ _ hno]

theorem evalAll_agree (h : s.AgreeOn P s') : ∀ (es : List Expr) (place : Place) (i : Nat) (m : Machine),
    (∀ x ∈ namesOfAll es, P x) → evalAll call s place i es m = evalAll call s' place i es m
  | [], _, _, _, _ => rfl
  | e :: es, place, i, m, hn => by
    obtain ⟨he, hes⟩ := List.forall_mem_append.mp hn
    rw [evalAll, evalAll, Expr.eval_agree h e _ m he]
    dsimp only
    rw [evalAll_agree h es _ _ _ hes]

theorem evalFields_agree (h : s.AgreeOn P s') :
    ∀ (fields : List (String × Expr)) (place : Place) (i : Nat) (m : Machine),
      (∀ x ∈ namesOfFields fields, P x) →
        evalFields call s place i fields m = evalFields call s' place i fields m
  | [], _, _, _, _ => rfl
  | (k, e) :: fields, place, i, m, hn => by
    obtain ⟨he, hfields⟩ := List.forall_mem_append.mp hn
    rw [evalFields, evalFields, Expr.eval_agree h e _ m he]
    dsimp only
    rw [evalFields_agree h fields _ _ _ hfields]

end

end

/-! ## 3. Programs -/

/-- What is in scope in a page under the names of a class is the same. -/
def Layers.AgreeOn (P : String → Prop) (layers layers' : Layers) : Prop :=
  ∀ x, P x → layers.lookup x = layers'.lookup x

section

variable {P : String → Prop} {layers layers' : Layers} (h : layers.AgreeOn P layers')
include h

theorem segmentValue_agree (m : Machine) (place : Place) (i : Nat) {seg : Segment}
    (hn : ∀ x ∈ seg.names, P x) :
    Program.segmentValue m layers place i seg = Program.segmentValue m layers' place i seg := by
  cases seg with
  | text s => rfl
  | expr e =>
    have hagree : (Scope.page layers).AgreeOn P (.page layers') := ⟨fun _ => h, fun _ _ => rfl⟩
    rw [Program.segmentValue, Program.segmentValue, Expr.value, Expr.value,
      Expr.eval_agree hagree e _ m hn]

theorem joined_agree (m : Machine) (place : Place) (i : Nat) {segs : List Segment}
    (hn : ∀ x ∈ segs.flatMap Segment.names, P x) :
    Program.joined m layers place i segs = Program.joined m layers' place i segs := by
  induction segs generalizing i with
  | nil => rfl
  | cons seg segs ih =>
    rw [List.flatMap_cons] at hn
    obtain ⟨hseg, hsegs⟩ := List.forall_mem_append.mp hn
    rw [Program.joined, Program.joined, segmentValue_agree h m place i hseg, ih _ hsegs]

/-- **A program sees the names in it, and nothing else of what is in scope.** -/
theorem Program.value_agree {p : Program} (m : Machine) (place : Place) (hn : ∀ x ∈ p.names, P x) :
    p.value m layers place = p.value m layers' place := by
  unfold Program.names at hn
  unfold Program.value
  split
  · rename_i seg hsegs
    rw [hsegs, List.flatMap_singleton] at hn
    exact segmentValue_agree h m place 0 hn
  · rw [joined_agree h m place 0 hn]

end

end Trellis
