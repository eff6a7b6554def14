import Trellis.Proofs.Component.Merge
import Trellis.Proofs.Number.Whole
import Trellis.Proofs.Template.Lexical
import Trellis.Proofs.Value.Same

/-!
# Documents as data and back

Every number of a document becomes a double, so a document comes back from the data exactly when a
double holds each of its integers (`toJson_ofJson_iff`). What a double does not hold is rounded, and
two documents may then become the same data. Of documents that come back this is not so, since same
data have the same document (`toJson_congr`), nor do two integers that doubles hold become one key
of a loop (`keyText_integer_inj`).
-/

namespace Trellis

open Value

/-! ## 1. Documents without other numbers -/

/-- A document whose numbers are integers of one kind. The fields of its objects stand in the order
    of their names, each name once. -/
inductive Json.Over (p : Int → Prop) : Json → Prop
  | null : Json.Over p .null
  | bool (b : Bool) : Json.Over p (.bool b)
  | integer {n : Int} (h : p n) : Json.Over p (.integer n)
  | string (s : String) : Json.Over p (.string s)
  | array {items : List Json} (h : ∀ j ∈ items, Json.Over p j) : Json.Over p (.array items)
  | object {fields : List (String × Json)} (sorted : Dict.Sorted fields)
      (h : ∀ f ∈ fields, Json.Over p f.2) : Json.Over p (.object fields)

namespace Json.Over

variable {p q : Int → Prop}

theorem integer_iff {n : Int} : (Json.integer n).Over p ↔ p n :=
  ⟨fun | .integer h => h, .integer⟩

theorem array_iff {items : List Json} : (Json.array items).Over p ↔ ∀ j ∈ items, j.Over p :=
  ⟨fun | .array h => h, .array⟩

theorem object_iff {fields : List (String × Json)} (sorted : Dict.Sorted fields) :
    (Json.object fields).Over p ↔ ∀ f ∈ fields, f.2.Over p :=
  ⟨fun | .object _ h => h, .object sorted⟩

theorem mono (hpq : ∀ n, p n → q n) {j : Json} (h : j.Over p) : j.Over q := by
  induction h with
  | null => exact .null
  | bool b => exact .bool b
  | string s => exact .string s
  | integer h => exact .integer (hpq _ h)
  | array _ ih => exact .array ih
  | object sorted _ ih => exact .object sorted ih

end Json.Over

/-- An integer that comes back from its double: one of 63 bits that a double holds. -/
def Json.Kept (n : Int) : Prop := n.natAbs < integerBound ∧ Number.Held n

namespace Value

/-! ## 2. Integers -/

theorem log2_lt_of_lt_integerBound {k : Nat} (h : k < integerBound) : k.log2 < 1024 := by
  by_cases hk : k = 0
  · rw [hk, Nat.log2_zero]
    decide
  · have : k.log2 < 63 := (Nat.log2_lt hk).mpr h
    omega

/-- **An integer comes back exactly when a double holds it.** -/
theorem jsonOfNumber_ofInt_iff {n : Int} (h : n.natAbs < integerBound) :
    jsonOfNumber (Float.ofInt n) = .integer n ↔ Number.Held n := by
  constructor
  · intro hback
    rw [jsonOfNumber] at hback
    split at hback
    · rename_i i hi
      split at hback
      · obtain rfl := Json.integer.inj hback
        exact Number.held_of_whole? hi
      · cases hback
    · split at hback <;> cases hback
  · intro hheld
    rw [jsonOfNumber, Number.whole?_ofInt hheld (log2_lt_of_lt_integerBound h)]
    exact if_pos h

/-! ## 3. Documents -/

theorem toJsonItems_ofItems (items : List Json) :
    toJsonItems (ofItems items) = items.map fun j => (ofJson j).toJson := by
  induction items with
  | nil => rfl
  | cons j items ih => rw [ofItems, toJsonItems, ih, List.map_cons]

theorem toJsonFields_map (fields : List (String × Json)) :
    toJsonFields (fields.map fun f => (f.1, ofJson f.2)) =
      fields.map fun f => (f.1, (ofJson f.2).toJson) := by
  induction fields with
  | nil => rfl
  | cons f fields ih => rw [List.map_cons, toJsonFields, ih, List.map_cons]

theorem insert_of_lt {d : Dict Value} {name : String} (h : ∀ p ∈ d, p.1 < name) (v : Value) :
    Dict.insert d name v = d ++ [(name, v)] := by
  induction d with
  | nil => rfl
  | cons p d ih =>
    have hp := h p List.mem_cons_self
    rw [Dict.insert, if_neg (ne_of_lt hp), if_pos hp,
      ih fun q hq => h q (List.mem_cons_of_mem _ hq), List.cons_append]

/-- Fields in order are put one behind the other. -/
theorem ofFields_sorted {fields : List (String × Json)} (h : Dict.Sorted fields) :
    ∀ {read : Dict Value}, (∀ r ∈ read, ∀ f ∈ fields, r.1 < f.1) →
      ofFields read fields = read ++ fields.map fun f => (f.1, ofJson f.2) := by
  induction fields with
  | nil => exact fun _ => (List.append_nil _).symm
  | cons f fields ih =>
    intro read hread
    obtain ⟨hf, hfields⟩ := List.pairwise_cons.mp h
    rw [ofFields, insert_of_lt fun r hr => hread r hr f List.mem_cons_self, ih hfields,
      List.map_cons, List.append_assoc]
    · rfl
    · intro r hr g hg
      rcases List.mem_append.mp hr with hr | hr
      · exact hread r hr g (List.mem_cons_of_mem _ hg)
      · rw [List.mem_singleton.mp hr]
        exact hf g hg

theorem map_eq_self_iff {α : Type} {f : α → α} {l : List α} :
    l.map f = l ↔ ∀ a ∈ l, f a = a := by
  conv_lhs => rhs; rw [← List.map_id l]
  exact List.map_inj_left

theorem toJson_ofItems_iff (items : List Json) :
    (ofJson (.array items)).toJson = .array items ↔ ∀ j ∈ items, (ofJson j).toJson = j := by
  rw [ofJson, toJson, Json.array.injEq, toJsonItems_ofItems, map_eq_self_iff]

theorem toJson_ofFields_iff {fields : List (String × Json)} (h : Dict.Sorted fields) :
    (ofJson (.object fields)).toJson = .object fields ↔
      ∀ f ∈ fields, (ofJson f.2).toJson = f.2 := by
  rw [ofJson, ofFields_sorted h fun r hr => absurd hr List.not_mem_nil, List.nil_append, toJson,
    Json.object.injEq, toJsonFields_map, map_eq_self_iff]
  exact forall₂_congr fun f _ => Prod.mk_inj.trans (and_iff_right rfl)

/-- **A document with integers of 63 bits comes back exactly when doubles hold its integers.** -/
theorem toJson_ofJson_iff {j : Json} (hj : j.Over fun n => n.natAbs < integerBound) :
    (ofJson j).toJson = j ↔ j.Over Json.Kept := by
  induction hj with
  | null => exact iff_of_true rfl .null
  | bool b => exact iff_of_true rfl (.bool b)
  | string s => exact iff_of_true rfl (.string s)
  | integer h =>
    rw [ofJson, toJson, jsonOfNumber_ofInt_iff h, Json.Over.integer_iff]
    exact (and_iff_right h).symm
  | array h ih =>
    rw [toJson_ofItems_iff, Json.Over.array_iff]
    exact forall₂_congr ih
  | object sorted h ih =>
    rw [toJson_ofFields_iff sorted, Json.Over.object_iff sorted]
    exact forall₂_congr ih

/-! ## 4. Same data -/

theorem jsonOfNumber_congr {a b : Float} (h : sameNumber a b = true) :
    jsonOfNumber a = jsonOfNumber b := by
  rcases Number.eq_or_whole?_of_sameNumber h with rfl | hzero
  · rfl
  · rw [jsonOfNumber, jsonOfNumber, ← Number.whole?_congr h, hzero]
    rfl

mutual

/-- **Same data have the same document.** -/
theorem toJson_congr : ∀ {a b : Value}, same a b = true → a.toJson = b.toJson
  | .undefined, b, h => by cases b <;> simp_all [same]
  | .null, b, h => by cases b <;> simp_all [same]
  | .bool _, b, h => by cases b <;> simp_all [same]
  | .string _, b, h => by cases b <;> simp_all [same]
  | .function .., .function .., _ => rfl
  | .number _, .number _, h => jsonOfNumber_congr h
  | .array as, .array bs, h => by rw [toJson, toJson, @toJsonItems_congr as bs h]
  | .object as, .object bs, h => by rw [toJson, toJson, @toJsonFields_congr as bs h]

theorem toJsonItems_congr : ∀ {as bs : List Value}, sameItems as bs = true →
    toJsonItems as = toJsonItems bs
  | [], [], _ => rfl
  | a :: _, b :: _, h => by
    obtain ⟨ha, has⟩ := sameItems_cons.mp h
    rw [toJsonItems, toJsonItems, toJson_congr (a := a) (b := b) ha, toJsonItems_congr has]

theorem toJsonFields_congr : ∀ {as bs : List (String × Value)}, sameFields as bs = true →
    toJsonFields as = toJsonFields bs
  | [], [], _ => rfl
  | (_, a) :: _, (_, b) :: _, h => by
    obtain ⟨⟨rfl, ha⟩, has⟩ := sameFields_cons.mp h
    rw [toJsonFields, toJsonFields, toJson_congr (a := a) (b := b) ha, toJsonFields_congr has]

end

/-! ## 5. Keys -/

theorem keyText_integer (n : Int) : keyText (ofJson (.integer n)) = Number.text (Float.ofInt n) := rfl

/-- **Two integers that doubles hold are not one key.** -/
theorem keyText_integer_inj {a b : Int} (ha : Json.Kept a) (hb : Json.Kept b)
    (h : keyText (ofJson (.integer a)) = keyText (ofJson (.integer b))) : a = b := by
  rw [keyText_integer, keyText_integer, Number.text_eq_iff] at h
  have hwhole := Number.whole?_congr h
  rw [Number.whole?_ofInt ha.2 (log2_lt_of_lt_integerBound ha.1),
    Number.whole?_ofInt hb.2 (log2_lt_of_lt_integerBound hb.1)] at hwhole
  exact Option.some.inj hwhole

end Value

/-- The value whose text is the key of a round. -/
def Loop.keyValue (l : Loop) (m : Machine) (layers : Layers) (place : Place) : Value :=
  let item := (layers.lookup l.item).getD .undefined
  match l.key with
  | none => .undefined
  | some .whole => item
  | some (.field path) => ((Path.parse? path).map item.getPath).getD .undefined
  | some (.computed p) => p.value m layers place

theorem Loop.keyOf_eq_keyText (l : Loop) (m : Machine) (layers : Layers) (place : Place) :
    l.keyOf m layers place = keyText (l.keyValue m layers place) := by
  unfold Loop.keyOf Loop.keyValue
  cases l.key with
  | none => rfl
  | some key =>
    cases key with
    | whole => rfl
    | computed p => rfl
    | field path =>
      dsimp only
      cases Path.parse? path <;> rfl

/-- In a round it is what the item has at the path, unless the index hides the item. -/
theorem Loop.keyValue_bindRound {l : Loop} {path : String} {keys : List Key}
    (hkey : l.key = some (.field path)) (hpath : Path.parse? path = some keys)
    (hnames : l.index ≠ l.item) (m : Machine) (layers : Layers) (place : Place)
    (item index : Value) :
    l.keyValue m (layers.bindRound l item index) place = item.getPath keys := by
  rw [keyValue, hkey, Layers.lookup_bindRound, if_neg hnames, if_pos rfl]
  dsimp only
  rw [hpath]
  rfl

/-! ## 6. What is kept, and what is rounded -/

namespace Value

/-- **Documents are kept as data.** A document with integers of 63 bits comes back exactly when
    doubles hold its integers; two such documents are never the same data; and the keys of two
    rounds whose values are different integers of that kind are different. -/
theorem ofJson_lossless :
    (∀ j : Json, j.Over (fun n => n.natAbs < integerBound) →
      ((ofJson j).toJson = j ↔ j.Over Json.Kept)) ∧
    (∀ j k : Json, j.Over Json.Kept → k.Over Json.Kept →
      same (ofJson j) (ofJson k) = true → j = k) ∧
    ∀ (l : Loop) (m : Machine) (layers layers' : Layers) (place place' : Place) (a b : Int),
      Json.Kept a → Json.Kept b →
      l.keyValue m layers place = ofJson (.integer a) →
      l.keyValue m layers' place' = ofJson (.integer b) →
      a ≠ b → l.keyOf m layers place ≠ l.keyOf m layers' place' := by
  have hback : ∀ j : Json, j.Over Json.Kept → (ofJson j).toJson = j := fun j hj =>
    (toJson_ofJson_iff (hj.mono fun _ h => h.1)).mpr hj
  refine ⟨fun j hj => toJson_ofJson_iff hj, fun j k hj hk h => ?_, ?_⟩
  · rw [← hback j hj, ← hback k hk, toJson_congr h]
  · intro l m layers layers' place place' a b ha hb hvalue hvalue' hab hkey
    rw [l.keyOf_eq_keyText, l.keyOf_eq_keyText, hvalue, hvalue'] at hkey
    exact hab (keyText_integer_inj ha hb hkey)

/-- A loop over items that are told apart by their field `id`. -/
def idLoop : Loop := ⟨⟨"", []⟩, "item", "index", some (.field "id")⟩

/-- The names in the round of `idLoop` for an item with the given `id`. -/
def idRound (n : Int) : Layers :=
  Layers.bindRound ⟨[], [], []⟩ idLoop (ofJson (.object [("id", .integer n)])) .undefined

theorem keyValue_idRound (n : Int) :
    idLoop.keyValue ⟨[], 0⟩ (idRound n) [] = ofJson (.integer n) :=
  have hpath : Path.parse? "id" = some [.name "id"] := by decide
  have hnames : idLoop.index ≠ idLoop.item := by decide
  Loop.keyValue_bindRound rfl hpath hnames _ _ _ _ _

theorem kept_two_pow : Json.Kept 9007199254740992 := ⟨by decide, 1, 53, rfl, by decide⟩

theorem kept_two_pow_add : Json.Kept 9007199254740994 :=
  ⟨by decide, 4503599627370497, 1, rfl, by decide⟩

theorem ofJson_lossless_ids :
    (ofJson (.object [("id", .integer 9007199254740992), ("on", .array [.bool true, .null])])).toJson =
      .object [("id", .integer 9007199254740992), ("on", .array [.bool true, .null])] ∧
    idLoop.keyOf ⟨[], 0⟩ (idRound 9007199254740992) [] ≠
      idLoop.keyOf ⟨[], 0⟩ (idRound 9007199254740994) [] := by
  have hdoc : Json.Over Json.Kept
      (.object [("id", .integer 9007199254740992), ("on", .array [.bool true, .null])]) :=
    .object (List.pairwise_pair.mpr (by decide)) (List.forall_mem_cons.mpr
      ⟨.integer kept_two_pow, List.forall_mem_singleton.mpr (.array (List.forall_mem_cons.mpr
        ⟨.bool true, List.forall_mem_singleton.mpr .null⟩))⟩)
  exact ⟨(ofJson_lossless.1 _ (hdoc.mono fun _ h => h.1)).mpr hdoc,
    ofJson_lossless.2.2 _ _ _ _ _ _ _ _ kept_two_pow kept_two_pow_add (keyValue_idRound _)
      (keyValue_idRound _) (by decide)⟩

/-- **An integer with 54 bits is rounded**, and becomes the data of another one. -/
theorem toJson_ofJson_ne :
    (Json.integer 9007199254740993).Over
        (fun n => -(integerBound : Int) ≤ n ∧ n < integerBound) ∧
      (ofJson (.integer 9007199254740993)).toJson ≠ .integer 9007199254740993 ∧
      ofJson (.integer 9007199254740993) = ofJson (.integer 9007199254740992) ∧
      idLoop.keyOf ⟨[], 0⟩ (idRound 9007199254740993) [] =
        idLoop.keyOf ⟨[], 0⟩ (idRound 9007199254740992) [] := by
  have hround : ofJson (.integer 9007199254740993) = ofJson (.integer 9007199254740992) := rfl
  refine ⟨.integer (by decide), ?_, hround, ?_⟩
  · rw [hround, (toJson_ofJson_iff (.integer kept_two_pow.1)).mpr (.integer kept_two_pow)]
    intro h
    exact absurd (Json.integer.inj h) (by decide)
  · rw [Loop.keyOf_eq_keyText, Loop.keyOf_eq_keyText, keyValue_idRound, keyValue_idRound, hround]

end Value

end Trellis
