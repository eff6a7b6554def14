import Mathlib.Data.String.Basic
import Trellis.Component.Basic
import Trellis.Proofs.Value.Relocate
import Trellis.Value.Json

/-!
# Merged data

Data that are read from a document hold no functions (`relocate_ofJson`), and their names stand in
order (`sorted_ofFields`). A name that says no more than itself is a plain one. Data under plain names
go over those that were there, which are kept under all other names: `get?_mergeData`.
-/
namespace Trellis

open Value

/-! ## 1. Names in order -/

namespace Dict

/-- The names stand in order, each of them once. -/
def Sorted {α : Type} (d : Dict α) : Prop := d.Pairwise fun p q => p.1 < q.1

section

variable {α : Type} {d : Dict α}

theorem get?_eq_none_of_lt {name : String} (h : ∀ p ∈ d, name < p.1) : get? d name = none := by
  induction d with
  | nil => rfl
  | cons p d ih =>
    rw [get?, if_neg (ne_of_gt (h p List.mem_cons_self)),
      ih fun q hq => h q (List.mem_cons_of_mem _ hq)]

theorem mem_insert {name : String} {v : α} {p : String × α} (h : p ∈ insert d name v) :
    p = (name, v) ∨ p ∈ d := by
  induction d with
  | nil => exact .inl (List.mem_singleton.mp h)
  | cons q d ih =>
    rw [insert] at h
    split at h
    · exact (List.mem_cons.mp h).imp_right (List.mem_cons_of_mem _)
    · split at h
      · rcases List.mem_cons.mp h with rfl | h
        · exact .inr List.mem_cons_self
        · exact (ih h).imp_right (List.mem_cons_of_mem _)
      · exact List.mem_cons.mp h

/-- **An insertion keeps the names in order.** -/
theorem sorted_insert (h : Sorted d) (name : String) (v : α) : Sorted (insert d name v) := by
  induction d with
  | nil => exact List.pairwise_singleton _ _
  | cons q d ih =>
    obtain ⟨hq, hd⟩ := List.pairwise_cons.mp h
    rw [insert]
    split
    · rename_i hname
      exact List.pairwise_cons.mpr ⟨fun p hp => hname ▸ hq p hp, hd⟩
    · rename_i hname
      split
      · rename_i hlt
        refine List.pairwise_cons.mpr ⟨fun p hp => ?_, ih hd⟩
        rcases mem_insert hp with rfl | hp
        · exact hlt
        · exact hq p hp
      · rename_i hlt
        have hbefore : name < q.1 := lt_of_le_of_ne (not_lt.mp hlt) (Ne.symm hname)
        refine List.pairwise_cons.mpr ⟨fun p hp => ?_, h⟩
        rcases List.mem_cons.mp hp with rfl | hp
        · exact hbefore
        · exact hbefore.trans (hq p hp)

end

end Dict

/-! ## 2. Data from documents -/

section

variable (f : Place → Place)

mutual

/-- **A document holds no functions.** -/
theorem relocate_ofJson : ∀ j : Json, (ofJson j).relocate f = ofJson j
  | .null | .bool _ | .integer _ | .real _ | .string _ => by rw [ofJson, relocate]
  | .array items => by rw [ofJson, relocate, relocateItems_ofItems items]
  | .object fields => by rw [ofJson, relocate, relocateFields_ofFields fields rfl]

theorem relocateItems_ofItems : ∀ js : List Json, relocateItems f (ofItems js) = ofItems js
  | [] => rfl
  | j :: js => by rw [ofItems, relocateItems, relocate_ofJson j, relocateItems_ofItems js]

theorem relocateFields_ofFields : ∀ (fields : List (String × Json)) {read : Dict Value},
    relocateFields f read = read → relocateFields f (ofFields read fields) = ofFields read fields
  | [], _, h => h
  | (k, j) :: fields, read, h => by
    rw [ofFields]
    refine relocateFields_ofFields fields ?_
    rw [← insert_relocate, h, relocate_ofJson j]

end

end

theorem sorted_ofFields (fields : List (String × Json)) {read : Dict Value} (h : read.Sorted) :
    (ofFields read fields).Sorted := by
  induction fields generalizing read with
  | nil => exact h
  | cons p fields ih =>
    rw [ofFields]
    exact ih (Dict.sorted_insert h p.1 _)

/-! ## 3. Plain names -/

/-- A name that leads to nothing but what is stored under it. -/
def PlainName (name : String) : Prop :=
  Path.parse? name = none ∨ Path.parse? name = some [.name name]

instance (name : String) : Decidable (PlainName name) :=
  inferInstanceAs (Decidable (_ ∨ _))

namespace Component

theorem writeData_plain {name : String} (h : PlainName name) (data : Dict Value) (v : Value) :
    writeData data name v = Dict.insert data name v := by
  unfold writeData
  rcases h with h | h
  · rw [h]
  · rw [h]
    rfl

/-- **Plain names go over what was there**, and the data under all other names are kept. -/
theorem get?_mergeData {patch : Dict Value} (hsorted : patch.Sorted)
    (hplain : ∀ p ∈ patch, PlainName p.1) (data : Dict Value) (x : String) :
    Dict.get? (mergeData data patch) x = (Dict.get? patch x).or (Dict.get? data x) := by
  induction patch generalizing data with
  | nil => rfl
  | cons p patch ih =>
    obtain ⟨hp, hpatch⟩ := List.pairwise_cons.mp hsorted
    show Dict.get? (mergeData (writeData data p.1 p.2) patch) x = _
    rw [writeData_plain (hplain p List.mem_cons_self),
      ih hpatch fun q hq => hplain q (List.mem_cons_of_mem _ hq), Dict.get?]
    split
    · rename_i hname
      rw [← hname, Dict.get?_eq_none_of_lt hp, Dict.get?_insert_self]
      rfl
    · rename_i hname
      rw [Dict.get?_insert_of_ne _ _ hname]

/-- Merged into others, data under plain names are what they were just where nothing shows through. -/
theorem get?_mergeData_eq_iff {patch : Dict Value} (hsorted : patch.Sorted)
    (hplain : ∀ p ∈ patch, PlainName p.1) (data : Dict Value) (x : String) :
    Dict.get? (mergeData data patch) x = Dict.get? patch x ↔
      (Dict.has data x = true → Dict.has patch x = true) := by
  rw [get?_mergeData hsorted hplain, Dict.has, Dict.has]
  cases Dict.get? patch x with
  | some v => simp
  | none => cases Dict.get? data x <;> simp

end Component

end Trellis
