import Trellis.Proofs.Value.Revise

/-!
# Functions made elsewhere

A function is known by the place where it was made. `Value.relocate f` sends every place in a value
through `f`; it is a revision (`relocate_eq_revise`). No operation on values does anything with places
but compare them, so all of them commute with `relocate f` when `f` keeps places apart; what a value
writes into a page does not depend on places at all (`toText_relocate`).
-/

namespace Trellis

/-- The revision by which functions were made elsewhere and are otherwise as they were. -/
def Revision.places (f : Place → Place) : Revision := ⟨f, fun _ code => code, fun _ captured => captured⟩

namespace Value

/-! ## 1. Relocation -/

mutual

/-- A value in which functions were made elsewhere. -/
def relocate (f : Place → Place) : Value → Value
  | .undefined => .undefined
  | .null => .null
  | .bool b => .bool b
  | .number n => .number n
  | .string s => .string s
  | .array items => .array (relocateItems f items)
  | .object fields => .object (relocateFields f fields)
  | .function origin module code captured =>
    .function (f origin) module code (relocateFields f captured)

/-- Values in which functions were made elsewhere. -/
def relocateItems (f : Place → Place) : List Value → List Value
  | [] => []
  | v :: vs => relocate f v :: relocateItems f vs

/-- Named values in which functions were made elsewhere. -/
def relocateFields (f : Place → Place) : List (String × Value) → List (String × Value)
  | [] => []
  | (k, v) :: fields => (k, relocate f v) :: relocateFields f fields

end

section

variable {f : Place → Place}

mutual

theorem relocate_eq_revise : ∀ v : Value, relocate f v = revise (.places f) v
  | .undefined | .null | .bool _ | .number _ | .string _ => by rw [relocate, revise]
  | .array items => by rw [relocate, revise, relocateItems_eq_revise items]
  | .object fields => by rw [relocate, revise, relocateFields_eq_revise fields]
  | .function _ _ _ captured => by
    rw [relocate, revise, relocateFields_eq_revise captured]
    rfl

theorem relocateItems_eq_revise : ∀ vs : List Value, relocateItems f vs = reviseItems (.places f) vs
  | [] => rfl
  | v :: vs => by rw [relocateItems, reviseItems, relocate_eq_revise v, relocateItems_eq_revise vs]

theorem relocateFields_eq_revise :
    ∀ fields : List (String × Value), relocateFields f fields = reviseFields (.places f) fields
  | [] => rfl
  | (_, v) :: fields => by
    rw [relocateFields, reviseFields, relocate_eq_revise v, relocateFields_eq_revise fields]

end

theorem relocate_eq : relocate f = revise (.places f) := funext relocate_eq_revise

theorem relocateFields_eq : relocateFields f = reviseFields (.places f) :=
  funext relocateFields_eq_revise

theorem relocate_array (f : Place → Place) (vs : List Value) :
    relocate f (.array vs) = .array (vs.map (relocate f)) := by
  rw [relocate_eq, revise_array]

end

/-! ## 2. Values that stay -/

mutual

/-- The places of the functions in a value, those of captured values among them. -/
def origins : Value → List Place
  | .undefined | .null | .bool _ | .number _ | .string _ => []
  | .array items => originsOfItems items
  | .object fields => originsOfFields fields
  | .function origin _ _ captured => origin :: originsOfFields captured

/-- The places of the functions in values. -/
def originsOfItems : List Value → List Place
  | [] => []
  | v :: vs => origins v ++ originsOfItems vs

/-- The places of the functions in named values. -/
def originsOfFields : List (String × Value) → List Place
  | [] => []
  | (_, v) :: fields => origins v ++ originsOfFields fields

end

section

variable {f : Place → Place}

mutual

/-- **Where the places in a value stay, the value stays.** -/
theorem relocate_eq_self : ∀ {v : Value}, (∀ o ∈ v.origins, f o = o) → relocate f v = v
  | .undefined, _ | .null, _ | .bool _, _ | .number _, _ | .string _, _ => by rw [relocate]
  | .array _, h => by rw [relocate, relocateItems_eq_self h]
  | .object _, h => by rw [relocate, relocateFields_eq_self h]
  | .function _ _ _ _, h => by
    rw [relocate, h _ List.mem_cons_self,
      relocateFields_eq_self fun o ho => h o (List.mem_cons_of_mem _ ho)]

theorem relocateItems_eq_self : ∀ {vs : List Value}, (∀ o ∈ originsOfItems vs, f o = o) →
    relocateItems f vs = vs
  | [], _ => rfl
  | _ :: _, h => by
    rw [relocateItems, relocate_eq_self fun o ho => h o (List.mem_append_left _ ho),
      relocateItems_eq_self fun o ho => h o (List.mem_append_right _ ho)]

theorem relocateFields_eq_self : ∀ {fields : List (String × Value)},
    (∀ o ∈ originsOfFields fields, f o = o) → relocateFields f fields = fields
  | [], _ => rfl
  | _ :: _, h => by
    rw [relocateFields, relocate_eq_self fun o ho => h o (List.mem_append_left _ ho),
      relocateFields_eq_self fun o ho => h o (List.mem_append_right _ ho)]

end

/-! ## 3. What can be done with values -/

theorem insert_relocate (d : Dict Value) (name : String) (v : Value) :
    Dict.insert (relocateFields f d) name (relocate f v) =
      relocateFields f (Dict.insert d name v) := by
  rw [relocateFields_eq, relocate_eq, insert_revise]

theorem ofPairs_relocate (pairs : List (String × Value)) :
    Dict.ofPairs (relocateFields f pairs) = relocateFields f (Dict.ofPairs pairs) := by
  rw [relocateFields_eq, ofPairs_revise]

@[simp] theorem isNullish_relocate (v : Value) : (relocate f v).isNullish = v.isNullish := by
  rw [relocate_eq, isNullish_revise]

@[simp] theorem isTruthy_relocate (v : Value) : (relocate f v).isTruthy = v.isTruthy := by
  rw [relocate_eq, isTruthy_revise]

/-- **What a value writes into a page does not depend on places.** -/
@[simp] theorem toText_relocate (v : Value) : (relocate f v).toText = v.toText := by
  rw [relocate_eq, toText_revise]

@[simp] theorem ofValue_relocate (v : Value) : Key.ofValue (relocate f v) = Key.ofValue v := by
  rw [relocate_eq, ofValue_revise]

/-- **Operators commute with relocation.** -/
theorem binary_relocate (hf : ∀ p q, f p = f q → p = q) (op : BinaryOp) (a b : Value) :
    op.apply (relocate f a) (relocate f b) = relocate f (op.apply a b) := by
  have hplaces : (Revision.places f).Apart := hf
  rw [relocate_eq, binary_revise hplaces]

theorem unary_relocate (op : UnaryOp) (v : Value) :
    op.apply (relocate f v) = relocate f (op.apply v) := by
  rw [relocate_eq, unary_revise]

theorem decided_relocate (op : LogicOp) (v : Value) :
    op.decided (relocate f v) = op.decided v := by
  rw [relocate_eq, decided_revise]

theorem step_relocate (v : Value) (k : Key) : (relocate f v).step k = relocate f (v.step k) := by
  rw [relocate_eq, step_revise]

theorem getPath_relocate (v : Value) (ks : List Key) :
    (relocate f v).getPath ks = relocate f (v.getPath ks) := by
  rw [relocate_eq, getPath_revise]

theorem setPath_relocate (v : Value) (ks : List Key) (x : Value) :
    (relocate f v).setPath ks (relocate f x) = relocate f (v.setPath ks x) := by
  rw [relocate_eq, setPath_revise]

/-- What a loop goes over, seen from elsewhere. -/
theorem items_relocate (v : Value) :
    (relocate f v).items = v.items.map fun p => (relocate f p.1, relocate f p.2) := by
  rw [relocate_eq, items_revise]

end

end Value

end Trellis
