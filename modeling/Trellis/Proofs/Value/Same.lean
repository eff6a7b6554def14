import Trellis.Proofs.Number.Same
import Trellis.Value.Coerce

/-!
# Sameness of values

`Value.same` is the equality by which a difference of trees decides that an attribute has not
changed. It is an equivalence (`same_refl`, `same_symm`, `same_trans`) but not identity: the two
zeros are the same, and so are two functions that came into being at one place. Nothing of that
shows on a page: same values have the same text (`toText_congr`).
-/

namespace Trellis.Value

/-! ## 1. An equivalence -/

theorem sameNumber_refl (a : Float) : sameNumber a a = true := (Number.sameNumber_iff a a).mpr rfl

theorem sameNumber_symm {a b : Float} (h : sameNumber a b = true) : sameNumber b a = true :=
  (Number.sameNumber_iff b a).mpr ((Number.sameNumber_iff a b).mp h).symm

theorem sameNumber_trans {a b c : Float} (h : sameNumber a b = true) (h' : sameNumber b c = true) :
    sameNumber a c = true :=
  (Number.sameNumber_iff a c).mpr
    (((Number.sameNumber_iff a b).mp h).trans ((Number.sameNumber_iff b c).mp h'))

theorem sameItems_cons {a b : Value} {as bs : List Value} :
    sameItems (a :: as) (b :: bs) = true ↔ same a b = true ∧ sameItems as bs = true := by
  rw [sameItems]
  split <;> simp_all

theorem sameFields_cons {k l : String} {a b : Value} {as bs : List (String × Value)} :
    sameFields ((k, a) :: as) ((l, b) :: bs) = true ↔
      (k = l ∧ same a b = true) ∧ sameFields as bs = true := by
  rw [sameFields]
  split <;> simp_all

mutual

/-- **Every value is the same as itself**, not a number included. -/
theorem same_refl : ∀ v : Value, same v v = true
  | .undefined | .null => rfl
  | .bool _ | .string _ => by simp [same]
  | .function .. => by simp [same]
  | .number n => sameNumber_refl n
  | .array items => sameItems_refl items
  | .object fields => sameFields_refl fields

theorem sameItems_refl : ∀ vs : List Value, sameItems vs vs = true
  | [] => rfl
  | v :: vs => sameItems_cons.mpr ⟨same_refl v, sameItems_refl vs⟩

theorem sameFields_refl : ∀ fs : List (String × Value), sameFields fs fs = true
  | [] => rfl
  | (_, v) :: fs => sameFields_cons.mpr ⟨⟨rfl, same_refl v⟩, sameFields_refl fs⟩

end

mutual

theorem same_symm : ∀ {a b : Value}, same a b = true → same b a = true
  | .undefined, b, h => by cases b <;> simp_all [same]
  | .null, b, h => by cases b <;> simp_all [same]
  | .bool _, b, h => by cases b <;> simp_all [same]
  | .string _, b, h => by cases b <;> simp_all [same]
  | .function .., b, h => by cases b <;> simp_all [same]
  | .number _, .number _, h => sameNumber_symm h
  | .array items, .array items', h => @sameItems_symm items items' h
  | .object fields, .object fields', h => @sameFields_symm fields fields' h

theorem sameItems_symm : ∀ {as bs : List Value}, sameItems as bs = true → sameItems bs as = true
  | [], [], _ => rfl
  | a :: _, _ :: _, h =>
    have ⟨ha, has⟩ := sameItems_cons.mp h
    sameItems_cons.mpr ⟨same_symm (a := a) ha, sameItems_symm has⟩

theorem sameFields_symm : ∀ {as bs : List (String × Value)}, sameFields as bs = true →
    sameFields bs as = true
  | [], [], _ => rfl
  | (_, a) :: _, (_, _) :: _, h =>
    have ⟨⟨hk, ha⟩, has⟩ := sameFields_cons.mp h
    sameFields_cons.mpr ⟨⟨hk.symm, same_symm (a := a) ha⟩, sameFields_symm has⟩

end

mutual

theorem same_trans : ∀ {a b c : Value}, same a b = true → same b c = true → same a c = true
  | .undefined, .undefined, _, _, h' => h'
  | .null, .null, _, _, h' => h'
  | .bool _, .bool _, .bool _, h, h' => by simp_all [same]
  | .string _, .string _, .string _, h, h' => by simp_all [same]
  | .function .., .function .., .function .., h, h' => by simp_all [same]
  | .number _, .number _, .number _, h, h' => sameNumber_trans h h'
  | .array as, .array bs, .array cs, h, h' => @sameItems_trans as bs cs h h'
  | .object as, .object bs, .object cs, h, h' => @sameFields_trans as bs cs h h'

theorem sameItems_trans : ∀ {as bs cs : List Value}, sameItems as bs = true →
    sameItems bs cs = true → sameItems as cs = true
  | [], [], _, _, h' => h'
  | a :: _, b :: _, c :: _, h, h' =>
    have ⟨ha, has⟩ := sameItems_cons.mp h
    have ⟨hb, hbs⟩ := sameItems_cons.mp h'
    sameItems_cons.mpr ⟨same_trans (a := a) (b := b) (c := c) ha hb, sameItems_trans has hbs⟩

theorem sameFields_trans : ∀ {as bs cs : List (String × Value)}, sameFields as bs = true →
    sameFields bs cs = true → sameFields as cs = true
  | [], [], _, _, h' => h'
  | (_, a) :: _, (_, b) :: _, (_, c) :: _, h, h' =>
    have ⟨⟨hk, ha⟩, has⟩ := sameFields_cons.mp h
    have ⟨⟨hl, hb⟩, hbs⟩ := sameFields_cons.mp h'
    sameFields_cons.mpr
      ⟨⟨hk.trans hl, same_trans (a := a) (b := b) (c := c) ha hb⟩, sameFields_trans has hbs⟩

end

/-! ## 2. What shows of a value -/

mutual

/-- **Same values have the same text.** -/
theorem toText_congr : ∀ {a b : Value}, same a b = true → a.toText = b.toText
  | .undefined, b, h => by cases b <;> simp_all [same]
  | .null, b, h => by cases b <;> simp_all [same]
  | .bool _, b, h => by cases b <;> simp_all [same]
  | .string _, b, h => by cases b <;> simp_all [same]
  | .function .., b, h => by cases b <;> simp_all [same, toText]
  | .number _, .number _, h => Number.text_eq_of_sameNumber h
  | .array as, .array bs, h => by rw [toText, toText, @toTexts_congr as bs h]
  | .object _, .object _, _ => rfl

theorem toTexts_congr : ∀ {as bs : List Value}, sameItems as bs = true → toTexts as = toTexts bs
  | [], [], _ => rfl
  | a :: _, b :: _, h => by
    obtain ⟨ha, has⟩ := sameItems_cons.mp h
    rw [toTexts, toTexts, toText_congr (a := a) (b := b) ha, toTexts_congr has]

end

end Trellis.Value
