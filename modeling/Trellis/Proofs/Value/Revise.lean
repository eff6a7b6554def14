import Trellis.Expr.Operator
import Trellis.Value.Path

/-!
# Functions revised

A revision puts other functions in place of those in a value: made elsewhere, with other code, with
other captured variables (`Value.revise`). No operation on values looks into a function. They compare
the places where functions were made, and that is all, so all of them commute with a revision that
keeps places apart; what a value writes into a page does not depend on functions at all
(`toText_revise`).
-/

namespace Trellis

/-- What becomes of the functions in a value: of the place where one was made, of its code in a module,
    and of the variables that were captured with its code. -/
structure Revision where
  place : Place → Place
  code : Nat → Function → Function
  captured : Function → Dict Value → Dict Value

/-- Functions made at different places are still known apart. -/
def Revision.Apart (g : Revision) : Prop := ∀ p q, g.place p = g.place q → p = q

namespace Value

/-! ## 1. Revised values -/

mutual

/-- A value with its functions revised, those in captured variables first. -/
def revise (g : Revision) : Value → Value
  | .undefined => .undefined
  | .null => .null
  | .bool b => .bool b
  | .number n => .number n
  | .string s => .string s
  | .array items => .array (reviseItems g items)
  | .object fields => .object (reviseFields g fields)
  | .function origin module code captured =>
    .function (g.place origin) module (g.code module code) (g.captured code (reviseFields g captured))

/-- Values with their functions revised. -/
def reviseItems (g : Revision) : List Value → List Value
  | [] => []
  | v :: vs => revise g v :: reviseItems g vs

/-- Named values with their functions revised. -/
def reviseFields (g : Revision) : List (String × Value) → List (String × Value)
  | [] => []
  | (k, v) :: fields => (k, revise g v) :: reviseFields g fields

end

theorem reviseItems_eq (g : Revision) (vs : List Value) :
    reviseItems g vs = vs.map (revise g) := by
  induction vs with
  | nil => rfl
  | cons v vs ih => rw [reviseItems, ih, List.map_cons]

theorem revise_array (g : Revision) (vs : List Value) :
    revise g (.array vs) = .array (vs.map (revise g)) := by
  rw [revise, reviseItems_eq]

theorem reviseFields_eq (g : Revision) (fields : Dict Value) :
    reviseFields g fields = fields.map fun p => (p.1, revise g p.2) := by
  induction fields with
  | nil => rfl
  | cons p fields ih => rw [reviseFields, ih, List.map_cons]

section

variable {g : Revision}

/-! ## 2. Names -/

theorem get?_revise (d : Dict Value) (name : String) :
    Dict.get? (reviseFields g d) name = (Dict.get? d name).map (revise g) := by
  induction d with
  | nil => rfl
  | cons p d ih =>
    rw [reviseFields, Dict.get?, Dict.get?]
    split
    · rfl
    · exact ih

theorem has_revise (d : Dict Value) (name : String) :
    Dict.has (reviseFields g d) name = Dict.has d name := by
  rw [Dict.has, Dict.has, get?_revise, Option.isSome_map]

theorem insert_revise (d : Dict Value) (name : String) (v : Value) :
    Dict.insert (reviseFields g d) name (revise g v) =
      reviseFields g (Dict.insert d name v) := by
  induction d with
  | nil => rfl
  | cons p d ih =>
    rw [reviseFields, Dict.insert, Dict.insert]
    split
    · rfl
    · split
      · rw [ih]
        rfl
      · rfl

theorem ofPairs_revise (pairs : List (String × Value)) :
    Dict.ofPairs (reviseFields g pairs) = reviseFields g (Dict.ofPairs pairs) := by
  have hfold : ∀ d : Dict Value,
      (reviseFields g pairs).foldl (fun d p => Dict.insert d p.1 p.2) (reviseFields g d) =
        reviseFields g (pairs.foldl (fun d p => Dict.insert d p.1 p.2) d) := by
    induction pairs with
    | nil => exact fun d => rfl
    | cons p pairs ih =>
      intro d
      rw [reviseFields, List.foldl_cons, List.foldl_cons, insert_revise]
      exact ih _
  exact hfold []

end

/-! ## 3. What does not depend on functions -/

section

variable {g : Revision}

@[simp] theorem isNullish_revise (v : Value) : (revise g v).isNullish = v.isNullish := by
  cases v <;> rfl

@[simp] theorem isUndefined_revise (v : Value) : (revise g v).isUndefined = v.isUndefined := by
  cases v <;> rfl

@[simp] theorem isTruthy_revise (v : Value) : (revise g v).isTruthy = v.isTruthy := by
  cases v <;> rfl

@[simp] theorem isPrimitive_revise (v : Value) : (revise g v).isPrimitive = v.isPrimitive := by
  cases v <;> rfl

@[simp] theorem joins_revise (v : Value) : (revise g v).joins = v.joins := by
  cases v <;> rfl

mutual

/-- **What a value writes into a page does not depend on functions.** -/
@[simp] theorem toText_revise : ∀ v : Value, (revise g v).toText = v.toText
  | .undefined | .null | .bool _ | .number _ | .string _ => by rw [revise]
  | .array items => by rw [revise, toText, toText, toTexts_revise items]
  | .object _ => by rw [revise, toText, toText]
  | .function _ _ _ _ => by rw [revise, toText, toText]

theorem toTexts_revise : ∀ vs : List Value, toTexts (reviseItems g vs) = toTexts vs
  | [] => rfl
  | v :: vs => by rw [reviseItems, toTexts, toTexts, toText_revise v, toTexts_revise vs]

end

@[simp] theorem toNumber_revise (v : Value) : (revise g v).toNumber = v.toNumber := by
  match v with
  | .undefined | .null | .bool _ | .number _ | .string _ => rw [revise]
  | .array [] => rfl
  | .array [v] => exact toNumber_revise v
  | .array (_ :: _ :: _) => rfl
  | .object _ | .function .. => rfl

@[simp] theorem ofValue_revise (v : Value) : Key.ofValue (revise g v) = Key.ofValue v := by
  cases v with
  | number n => rfl
  | array items => exact congrArg Key.name (toText_revise (.array items))
  | _ => rfl

@[simp] theorem order_revise (a b : Value) : (revise g a).order (revise g b) = a.order b := by
  have hnumbers : compareNumbers (revise g a).toNumber (revise g b).toNumber =
      compareNumbers a.toNumber b.toNumber := by rw [toNumber_revise, toNumber_revise]
  cases a with
  | string s =>
    cases b with
    | string t => rfl
    | _ => exact hnumbers
  | _ => exact hnumbers

end

/-! ## 4. Sameness and operators -/

section

variable {g : Revision}

mutual

/-- Functions that are kept apart leave sameness as it is. -/
theorem same_revise (hg : g.Apart) : ∀ a b : Value,
    same (revise g a) (revise g b) = same a b
  | .array as, .array bs => sameItems_revise hg as bs
  | .object as, .object bs => sameFields_revise hg as bs
  | .function p _ _ _, .function q _ _ _ => by
    rw [revise, revise, same, same, Bool.eq_iff_iff, beq_iff_eq, beq_iff_eq]
    exact ⟨hg p q, congrArg g.place⟩
  | .undefined, b => by cases b <;> rfl
  | .null, b => by cases b <;> rfl
  | .bool _, b => by cases b <;> rfl
  | .number _, b => by cases b <;> rfl
  | .string _, b => by cases b <;> rfl
  | .array _, .undefined | .array _, .null | .array _, .bool _ | .array _, .number _
  | .array _, .string _ | .array _, .object _ | .array _, .function .. => rfl
  | .object _, .undefined | .object _, .null | .object _, .bool _ | .object _, .number _
  | .object _, .string _ | .object _, .array _ | .object _, .function .. => rfl
  | .function .., .undefined | .function .., .null | .function .., .bool _ | .function .., .number _
  | .function .., .string _ | .function .., .array _ | .function .., .object _ => rfl

theorem sameItems_revise (hg : g.Apart) : ∀ as bs : List Value,
    sameItems (reviseItems g as) (reviseItems g bs) = sameItems as bs
  | [], bs => by cases bs <;> rfl
  | _ :: _, [] => rfl
  | a :: as, b :: bs => by
    rw [reviseItems, reviseItems, sameItems, sameItems, same_revise hg a b,
      sameItems_revise hg as bs]

theorem sameFields_revise (hg : g.Apart) : ∀ as bs : List (String × Value),
    sameFields (reviseFields g as) (reviseFields g bs) = sameFields as bs
  | [], bs => by cases bs <;> rfl
  | _ :: _, [] => rfl
  | (_, a) :: as, (_, b) :: bs => by
    rw [reviseFields, reviseFields, sameFields, sameFields, same_revise hg a b,
      sameFields_revise hg as bs]

end

variable (hg : g.Apart)
include hg

theorem strictEq_revise (a b : Value) : (revise g a).strictEq (revise g b) = a.strictEq b := by
  cases a with
  | number x => cases b <;> rfl
  | _ => exact same_revise hg _ b

theorem looseEq_revise (a b : Value) : (revise g a).looseEq (revise g b) = a.looseEq b := by
  have hrest : (if (revise g a).isPrimitive && (revise g b).isPrimitive then
        (revise g a).toNumber == (revise g b).toNumber else (revise g a).strictEq (revise g b)) =
      if a.isPrimitive && b.isPrimitive then a.toNumber == b.toNumber else a.strictEq b := by
    rw [isPrimitive_revise, isPrimitive_revise, toNumber_revise, toNumber_revise,
      strictEq_revise hg]
  unfold looseEq
  rw [isNullish_revise, isNullish_revise]
  split
  · rfl
  · cases a with
    | string s =>
      cases b with
      | string t => rfl
      | _ => exact hrest
    | _ => exact hrest

/-- **Operators commute with revision.** -/
theorem binary_revise (op : BinaryOp) (a b : Value) :
    op.apply (revise g a) (revise g b) = revise g (op.apply a b) := by
  unfold BinaryOp.apply BinaryOp.compare plus
  rw [isUndefined_revise, isUndefined_revise, joins_revise, joins_revise, toText_revise,
    toText_revise, toNumber_revise, toNumber_revise, order_revise, looseEq_revise hg,
    strictEq_revise hg]
  split
  · rfl
  · cases op with
    | add => dsimp only; split <;> rfl
    | _ => rfl

end

theorem unary_revise {g : Revision} (op : UnaryOp) (v : Value) :
    op.apply (revise g v) = revise g (op.apply v) := by
  unfold UnaryOp.apply
  rw [isUndefined_revise, isTruthy_revise, toNumber_revise]
  cases op with
  | not => rfl
  | neg => dsimp only; split <;> rfl
  | pos => dsimp only; split <;> rfl

theorem decided_revise {g : Revision} (op : LogicOp) (v : Value) :
    op.decided (revise g v) = op.decided v := by
  unfold LogicOp.decided
  rw [isTruthy_revise]

/-! ## 5. Reading and writing below a value -/

section

variable {g : Revision}

theorem child?_revise (v : Value) (k : Key) :
    (revise g v).child? k = (v.child? k).map (revise g) := by
  cases v with
  | object fields =>
    exact get?_revise _ _
  | array items =>
    rw [revise_array, child?, child?]
    cases k.asIndex? with
    | none => rfl
    | some i => exact List.getElem?_map
  | _ => rfl

theorem derived_revise (v : Value) (k : Key) :
    (revise g v).derived k = revise g (v.derived k) := by
  cases v with
  | array items =>
    rw [revise_array]
    cases k with
    | index i => rfl
    | name n =>
      rw [derived, derived, List.length_map]
      split <;> rfl
  | string s =>
    rw [revise, derived]
    split
    · rfl
    · split <;> rfl
  | _ => rfl

theorem step_revise (v : Value) (k : Key) : (revise g v).step k = revise g (v.step k) := by
  rw [step, step, child?_revise, derived_revise]
  cases v.child? k <;> rfl

theorem getPath_revise (v : Value) (ks : List Key) :
    (revise g v).getPath ks = revise g (v.getPath ks) := by
  induction ks generalizing v with
  | nil => rfl
  | cons k ks ih => rw [getPath, getPath, step_revise, ih]

theorem container_revise (v : Value) (k : Key) :
    (revise g v).container k = revise g (v.container k) := by
  cases v <;> cases k <;> rfl

theorem padded_revise (items : List Value) (i : Nat) :
    padded (items.map (revise g)) i = (padded items i).map (revise g) := by
  rw [padded, padded, List.map_append, List.length_map, List.map_replicate]
  rfl

theorem modify_map {α β : Type} (g : α → β) (f₁ : β → β) (f₂ : α → α) (hg : ∀ a, f₁ (g a) = g (f₂ a))
    (l : List α) (i : Nat) : (l.map g).modify i f₁ = (l.modify i f₂).map g := by
  induction l generalizing i with
  | nil => cases i <;> rfl
  | cons a l ih =>
    cases i with
    | zero => simp [hg]
    | succ i => simp [ih]

theorem setPath_revise (v : Value) (ks : List Key) (x : Value) :
    (revise g v).setPath ks (revise g x) = revise g (v.setPath ks x) := by
  induction ks generalizing v with
  | nil => rfl
  | cons k ks ih =>
    rw [setPath, setPath, container_revise]
    cases v.container k with
    | array items =>
      rw [revise_array]
      dsimp only
      cases k.asIndex? with
      | none => exact (revise_array g items).symm
      | some i =>
        dsimp only
        rw [List.length_map]
        split
        · exact (revise_array g items).symm
        · rw [revise_array, padded_revise, modify_map (revise g) _ _ ih]
    | object fields =>
      rw [revise]
      dsimp only
      rw [get?_revise, revise, ← insert_revise, ← ih]
      cases Dict.get? fields k.asName <;> rfl
    | _ => rfl

/-- What a loop goes over, revised. -/
theorem items_revise (v : Value) :
    (revise g v).items = v.items.map fun p => (revise g p.1, revise g p.2) := by
  cases v with
  | array vs =>
    rw [revise_array, items, items, enumerate, enumerate, List.map_map]
    rw [List.zipIdx_map, List.map_map]
    rfl
  | string s =>
    rw [revise, items, enumerate, List.map_map]
    refine List.map_congr_left fun p hp => ?_
    obtain ⟨v, i⟩ := p
    obtain ⟨c, _, rfl⟩ := List.mem_map.mp (List.fst_mem_of_mem_zipIdx hp)
    rfl
  | object fields =>
    rw [revise, items, items, reviseFields_eq, List.map_map, List.map_map]
    rfl
  | number n =>
    rw [revise, items]
    cases Number.natural? n with
    | none => rfl
    | some count =>
      dsimp only
      rw [List.map_map]
      rfl
  | _ => rfl

end

end Value

end Trellis
