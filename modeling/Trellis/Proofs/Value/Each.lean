import Mathlib.Data.List.Basic
import Trellis.Proofs.Value.Relocate

/-!
# Every function in a value

`Value.Each P` says that every function in a value has the property `P`, those in captured variables
included. No operation on values makes functions, so what comes out of one has in it only functions that
went in: `each_step`, `each_setPath` and their like. Evaluation is where functions are made.
-/

namespace Trellis.Value

/-! ## 1. The functions in a value -/

mutual

/-- Every function in a value has a property. -/
def Each (P : Place → Nat → Function → Dict Value → Prop) : Value → Prop
  | .undefined | .null | .bool _ | .number _ | .string _ => True
  | .array items => EachItem P items
  | .object fields => EachField P fields
  | .function origin module code captured => P origin module code captured ∧ EachField P captured

/-- Every function in values has a property. -/
def EachItem (P : Place → Nat → Function → Dict Value → Prop) : List Value → Prop
  | [] => True
  | v :: vs => Each P v ∧ EachItem P vs

/-- Every function in named values has a property. -/
def EachField (P : Place → Nat → Function → Dict Value → Prop) : List (String × Value) → Prop
  | [] => True
  | (_, v) :: fields => Each P v ∧ EachField P fields

end

section

variable {P Q : Place → Nat → Function → Dict Value → Prop}

theorem eachItem_iff {vs : List Value} : EachItem P vs ↔ ∀ v ∈ vs, Each P v := by
  induction vs with
  | nil => exact ⟨nofun, fun _ => trivial⟩
  | cons v vs ih => rw [EachItem, List.forall_mem_cons, ih]

mutual

theorem Each.mono (h : ∀ o k c cap, P o k c cap → Q o k c cap) : ∀ {v : Value}, Each P v → Each Q v
  | .undefined, _ | .null, _ | .bool _, _ | .number _, _ | .string _, _ => trivial
  | .array _, hv => EachItem.mono h hv
  | .object _, hv => EachField.mono h hv
  | .function _ _ _ _, hv => ⟨h _ _ _ _ hv.1, EachField.mono h hv.2⟩

theorem EachItem.mono (h : ∀ o k c cap, P o k c cap → Q o k c cap) :
    ∀ {vs : List Value}, EachItem P vs → EachItem Q vs
  | [], _ => trivial
  | _ :: _, hvs => ⟨Each.mono h hvs.1, EachItem.mono h hvs.2⟩

theorem EachField.mono (h : ∀ o k c cap, P o k c cap → Q o k c cap) :
    ∀ {fields : List (String × Value)}, EachField P fields → EachField Q fields
  | [], _ => trivial
  | _ :: _, hfields => ⟨Each.mono h hfields.1, EachField.mono h hfields.2⟩

end

mutual

/-- The places of the functions in a value are what `origins` lists. -/
theorem each_origin_iff {A : Place → Prop} :
    ∀ v : Value, Each (fun o _ _ _ => A o) v ↔ ∀ o ∈ v.origins, A o
  | .undefined | .null | .bool _ | .number _ | .string _ => ⟨nofun, fun _ => trivial⟩
  | .array items => eachItem_origin_iff items
  | .object fields => eachField_origin_iff fields
  | .function origin _ _ captured => by
    rw [Each, origins, List.forall_mem_cons, eachField_origin_iff captured]

theorem eachItem_origin_iff {A : Place → Prop} :
    ∀ vs : List Value, EachItem (fun o _ _ _ => A o) vs ↔ ∀ o ∈ originsOfItems vs, A o
  | [] => ⟨nofun, fun _ => trivial⟩
  | v :: vs => by
    rw [EachItem, originsOfItems, List.forall_mem_append, each_origin_iff v, eachItem_origin_iff vs]

theorem eachField_origin_iff {A : Place → Prop} :
    ∀ fields : List (String × Value),
      EachField (fun o _ _ _ => A o) fields ↔ ∀ o ∈ originsOfFields fields, A o
  | [] => ⟨nofun, fun _ => trivial⟩
  | (_, v) :: fields => by
    rw [EachField, originsOfFields, List.forall_mem_append, each_origin_iff v,
      eachField_origin_iff fields]

end

/-! ## 2. Operations -/

theorem each_ofLiteral (l : Literal) : Each P (ofLiteral l) := by
  cases l <;> trivial

theorem each_get? {d : Dict Value} (h : EachField P d) {name : String} {v : Value}
    (hv : Dict.get? d name = some v) : Each P v := by
  induction d with
  | nil => cases hv
  | cons p d ih =>
    rw [Dict.get?] at hv
    split at hv
    · cases hv
      exact h.1
    · exact ih h.2 hv

theorem eachField_insert {d : Dict Value} (h : EachField P d) (name : String) {v : Value}
    (hv : Each P v) : EachField P (Dict.insert d name v) := by
  induction d with
  | nil => exact ⟨hv, trivial⟩
  | cons p d ih =>
    rw [Dict.insert]
    split
    · exact ⟨hv, h.2⟩
    · split
      · exact ⟨h.1, ih h.2⟩
      · exact ⟨hv, h⟩

theorem eachField_ofPairs {pairs : List (String × Value)} (h : EachField P pairs) :
    EachField P (Dict.ofPairs pairs) := by
  have hfold : ∀ d : Dict Value, EachField P d →
      EachField P (pairs.foldl (fun d p => Dict.insert d p.1 p.2) d) := by
    induction pairs with
    | nil => exact fun d hd => hd
    | cons p pairs ih => exact fun d hd => ih h.2 _ (eachField_insert hd p.1 h.1)
  exact hfold [] trivial

theorem each_getD {v : Option Value} (h : ∀ w, v = some w → Each P w) : Each P (v.getD .undefined) := by
  cases v with
  | none => trivial
  | some w => exact h w rfl

theorem each_child? {v w : Value} (h : Each P v) {k : Key} (hw : v.child? k = some w) : Each P w := by
  cases v with
  | object fields => exact each_get? h hw
  | array items =>
    obtain ⟨i, _, hi⟩ := Option.bind_eq_some_iff.mp hw
    exact eachItem_iff.mp h w (List.mem_of_getElem? hi)
  | _ => cases hw

theorem each_derived (v : Value) (k : Key) : Each P (v.derived k) := by
  cases v with
  | array items =>
    cases k with
    | name n =>
      rw [derived]
      split <;> trivial
    | index i => trivial
  | string s =>
    rw [derived]
    split
    · trivial
    · split <;> trivial
  | _ => trivial

theorem each_step {v : Value} (h : Each P v) (k : Key) : Each P (v.step k) := by
  rw [step]
  cases hw : v.child? k with
  | none => exact each_derived v k
  | some w => exact each_child? h hw

theorem each_getPath {v : Value} (h : Each P v) (ks : List Key) : Each P (v.getPath ks) := by
  induction ks generalizing v with
  | nil => exact h
  | cons k ks ih => exact ih (each_step h k)

theorem each_container {v : Value} (h : Each P v) (k : Key) : Each P (v.container k) := by
  cases v with
  | object fields => exact h
  | array items => exact h
  | _ => cases k <;> trivial

theorem eachItem_padded {items : List Value} (h : EachItem P items) (i : Nat) :
    EachItem P (padded items i) := by
  rw [eachItem_iff] at h ⊢
  intro v hv
  rcases List.mem_append.mp hv with hv | hv
  · exact h v hv
  · rw [(List.mem_replicate.mp hv).2]
    trivial

theorem eachItem_modify {items : List Value} (h : EachItem P items) {f : Value → Value}
    (hf : ∀ v, Each P v → Each P (f v)) (i : Nat) : EachItem P (items.modify i f) := by
  rw [eachItem_iff] at h ⊢
  intro v hv
  obtain ⟨j, hj⟩ := List.mem_iff_getElem?.mp hv
  rw [List.getElem?_modify] at hj
  obtain ⟨w, hw, rfl⟩ := Option.map_eq_some_iff.mp hj
  have hw := h w (List.mem_of_getElem? hw)
  split
  · exact hf w hw
  · exact hw

theorem each_setPath {v x : Value} (h : Each P v) (ks : List Key) (hx : Each P x) :
    Each P (v.setPath ks x) := by
  induction ks generalizing v with
  | nil => exact hx
  | cons k ks ih =>
    have hcontainer := each_container h k
    rw [setPath]
    split
    · rename_i items hw
      rw [hw] at hcontainer
      split
      · split
        · exact hcontainer
        · exact eachItem_modify (eachItem_padded hcontainer _) (fun _ => ih) _
      · exact hcontainer
    · rename_i fields hw
      rw [hw] at hcontainer
      exact eachField_insert hcontainer _ (ih (each_getD fun w => each_get? hcontainer))
    · exact hcontainer

theorem each_binary (op : BinaryOp) (a b : Value) : Each P (op.apply a b) := by
  unfold BinaryOp.apply plus
  split
  · trivial
  · cases op with
    | add =>
      dsimp only
      split <;> trivial
    | _ => trivial

theorem each_unary (op : UnaryOp) (v : Value) : Each P (op.apply v) := by
  unfold UnaryOp.apply
  cases op with
  | not => trivial
  | _ =>
    dsimp only
    split <;> trivial

/-! ## 3. Revised values -/

variable {g : Revision}

mutual

/-- Revised functions have a property when the functions that they come from had one that leads to it;
    the captured variables are those that were there, revised. -/
theorem each_revise (hcaptured : ∀ c d, g.captured c d = d)
    (h : ∀ o k c cap, P o k c cap → Q (g.place o) k (g.code k c) (reviseFields g cap)) :
    ∀ {v : Value}, Each P v → Each Q (revise g v)
  | .undefined, _ | .null, _ | .bool _, _ | .number _, _ | .string _, _ => by rw [revise]; trivial
  | .array _, hv => by
    rw [revise]
    exact eachItem_revise hcaptured h hv
  | .object _, hv => by
    rw [revise]
    exact eachField_revise hcaptured h hv
  | .function _ _ _ _, hv => by
    rw [revise, hcaptured]
    exact ⟨h _ _ _ _ hv.1, eachField_revise hcaptured h hv.2⟩

theorem eachItem_revise (hcaptured : ∀ c d, g.captured c d = d)
    (h : ∀ o k c cap, P o k c cap → Q (g.place o) k (g.code k c) (reviseFields g cap)) :
    ∀ {vs : List Value}, EachItem P vs → EachItem Q (reviseItems g vs)
  | [], _ => trivial
  | _ :: _, hvs => ⟨each_revise hcaptured h hvs.1, eachItem_revise hcaptured h hvs.2⟩

theorem eachField_revise (hcaptured : ∀ c d, g.captured c d = d)
    (h : ∀ o k c cap, P o k c cap → Q (g.place o) k (g.code k c) (reviseFields g cap)) :
    ∀ {fields : List (String × Value)}, EachField P fields → EachField Q (reviseFields g fields)
  | [], _ => trivial
  | _ :: _, hfields => ⟨each_revise hcaptured h hfields.1, eachField_revise hcaptured h hfields.2⟩

end

end

end Trellis.Value
