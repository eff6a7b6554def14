import Mathlib.Data.Fintype.EquivFin
import Trellis.Proofs.Template.Names
import Trellis.Proofs.Template.Runs

/-!
# Trees of different renders

A function that a script makes during a render is known by that render. So a tree that holds one
differs from what any other render shows, and only such a tree does (`generate_same_iff`). Beyond
that what is shown depends on the names in the template: `generate_by_names`.
-/
namespace Trellis

open Value

/-! ## 1. Functions in a tree -/

mutual

/-- The places by which the functions in a value are known. What a function has captured does not
    count. -/
def Value.functions : Value → List Place
  | .undefined | .null | .bool _ | .number _ | .string _ => []
  | .array items => functionsOfItems items
  | .object fields => functionsOfFields fields
  | .function origin _ _ _ => [origin]

/-- The places by which the functions in values are known. -/
def Value.functionsOfItems : List Value → List Place
  | [] => []
  | v :: vs => v.functions ++ functionsOfItems vs

/-- The places by which the functions in named values are known. -/
def Value.functionsOfFields : List (String × Value) → List Place
  | [] => []
  | (_, v) :: fields => v.functions ++ functionsOfFields fields

end

mutual

/-- The places by which the functions in the attributes of a tree are known. -/
def VNode.functions : VNode → List Place
  | ⟨_, _, _, _, _, attrs, _, children, _⟩ =>
    attrs.flatMap (fun a => a.value.functions) ++ functionsOfAll children

/-- The places by which the functions in the attributes of trees are known. -/
def VNode.functionsOfAll : List VNode → List Place
  | [] => []
  | v :: vs => v.functions ++ functionsOfAll vs

end

/-- A tree shows a function that was made in the render with a number. -/
def VNode.HoldsMade (v : VNode) (run : Nat) : Prop := ∃ o ∈ v.functions, renderPlace run <:+ o

section

variable {f : Place → Place}

mutual

/-- **A value is the same as its relocation just when the functions in it stay where they are.** -/
theorem same_relocate_iff : ∀ v : Value,
    same v (v.relocate f) = true ↔ ∀ o ∈ v.functions, f o = o
  | .undefined | .null | .bool _ | .number _ | .string _ => by
    rw [relocate, Value.functions]
    exact ⟨fun _ => nofun, fun _ => same_refl _⟩
  | .array items => sameItems_relocate_iff items
  | .object fields => sameFields_relocate_iff fields
  | .function origin module code captured => by
    rw [relocate, same, beq_iff_eq, Value.functions, List.forall_mem_singleton, eq_comm]

theorem sameItems_relocate_iff : ∀ vs : List Value,
    sameItems vs (relocateItems f vs) = true ↔ ∀ o ∈ functionsOfItems vs, f o = o
  | [] => ⟨fun _ => nofun, fun _ => rfl⟩
  | v :: vs => by
    rw [relocateItems, sameItems_cons, same_relocate_iff v, sameItems_relocate_iff vs,
      functionsOfItems, List.forall_mem_append]

theorem sameFields_relocate_iff : ∀ fields : List (String × Value),
    sameFields fields (relocateFields f fields) = true ↔ ∀ o ∈ functionsOfFields fields, f o = o
  | [] => ⟨fun _ => nofun, fun _ => rfl⟩
  | (k, v) :: fields => by
    rw [relocateFields, sameFields_cons, same_relocate_iff v, sameFields_relocate_iff fields,
      functionsOfFields, List.forall_mem_append]
    exact and_congr_left' (and_iff_right rfl)

end

theorem attrs_relocate_iff (attrs : List Attr) :
    (attrs == attrs.map (Attr.relocate f)) = true ↔
      ∀ o ∈ attrs.flatMap (fun a => a.value.functions), f o = o := by
  induction attrs with
  | nil => exact ⟨fun _ => nofun, fun _ => rfl⟩
  | cons a attrs ih =>
    rw [List.map_cons, Attrs.beq_cons, ih, List.flatMap_cons, List.forall_mem_append,
      ← same_relocate_iff]
    exact and_iff_right rfl

mutual

/-- Every tree is the same as itself. -/
theorem VNode.same_refl : ∀ v : VNode, v.same v = true
  | ⟨kind, tag, component, content, key, attrs, events, children, host⟩ => by
    rw [VNode.same, Attrs.beq_refl, VNode.sameAll_refl children]
    simp only [beq_self_eq_true, Bool.and_self]

theorem VNode.sameAll_refl : ∀ vs : List VNode, VNode.sameAll vs vs = true
  | [] => rfl
  | v :: vs => by rw [VNode.sameAll, VNode.same_refl v, VNode.sameAll_refl vs, Bool.and_self]

end

mutual

/-- **A tree is the same as its relocation just when the functions in it stay where they are.** -/
theorem VNode.same_relocate_iff : ∀ v : VNode,
    v.same (v.relocate f) = true ↔ ∀ o ∈ v.functions, f o = o
  | ⟨kind, tag, component, content, key, attrs, events, children, host⟩ => by
    rw [VNode.relocate, VNode.same, VNode.functions, List.forall_mem_append, ← attrs_relocate_iff,
      ← VNode.sameAll_relocate_iff children]
    simp only [beq_self_eq_true, Bool.true_and, Bool.and_true, Bool.and_eq_true]

theorem VNode.sameAll_relocate_iff : ∀ vs : List VNode,
    VNode.sameAll vs (VNode.relocateAll f vs) = true ↔ ∀ o ∈ VNode.functionsOfAll vs, f o = o
  | [] => ⟨fun _ => nofun, fun _ => rfl⟩
  | v :: vs => by
    rw [VNode.relocateAll, VNode.sameAll, Bool.and_eq_true, VNode.same_relocate_iff v,
      VNode.sameAll_relocate_iff vs, VNode.functionsOfAll, List.forall_mem_append]

end

end

/-! ## 2. Two renders -/

section

variable {k r : Nat}

/-- A place in one of two renders is exchanged with the one in the other. -/
theorem exchangeRuns_append (p : Place) :
    exchangeRuns k r (p ++ renderPlace k) = p ++ renderPlace r := by
  induction p with
  | nil => exact exchangeRuns_renderPlace
  | cons i p ih =>
    rw [List.cons_append, exchangeRuns_cons, ih, List.cons_append]
    intro h
    have hlength := congrArg List.length h
    rw [List.length_append] at hlength
    exact absurd hlength (by simp [renderPlace])

/-- A place that stays is in neither of two renders, the first of them. -/
theorem not_suffix_of_exchangeRuns {o : Place} (hkr : k ≠ r) (h : exchangeRuns k r o = o) :
    ¬ renderPlace k <:+ o := by
  rintro ⟨p, rfl⟩
  rw [exchangeRuns_append] at h
  exact hkr (List.cons.inj (List.append_cancel_left h)).1.symm

/-- There is a render whose number stands nowhere in data. -/
theorem exists_outside (data : Dict Value) (runs : List Nat) :
    ∃ run, run ∉ runs ∧ data.Outside run := by
  obtain ⟨run, hrun⟩ := Infinite.exists_notMem_finset (runs ++ (originsOfFields data).flatten).toFinset
  rw [List.mem_toFinset, List.mem_append, not_or] at hrun
  refine ⟨run, hrun.1, fun o ho hsuffix => hrun.2 ?_⟩
  exact List.mem_flatten.mpr ⟨o, ho, hsuffix.subset List.mem_cons_self⟩

variable {s : Setting} {name markup : String} {t : Template}
  (ht : Template.ofMarkup s name markup = .ok t) {data : Dict Value}
include ht

/-- **One render and another**: the same tree, with the functions of the one in place of those of
    the other. -/
theorem generate_exchanged (hk : data.Outside k) (hr : data.Outside r) :
    t.generate r data = (t.generate k data).relocate (exchangeRuns k r) :=
  generate_relocate relocation_exchangeRuns
    (ofMarkup_staysPut relocation_exchangeRuns exchangeRuns_modulePlace ht)
    (relocate_of_outside hk hr) exchangeRuns_renderPlace

/-- A render shows no function that was made in another one, if none is in the data. -/
theorem not_holdsMade (hkr : k ≠ r) (hr : data.Outside r) : ¬ (t.generate k data).HoldsMade r := by
  obtain ⟨r', hruns, hr'⟩ := exists_outside data [k, r]
  obtain ⟨hk', hk''⟩ : r' ≠ k ∧ r' ≠ r := by simpa using hruns
  have hplace : exchangeRuns r r' (renderPlace k) = renderPlace k := by
    refine exchangeRuns_eq_self (fun h => ?_) (fun h => ?_)
    · exact hkr (List.cons.inj (h.eq_of_length rfl)).1.symm
    · exact hk' (List.cons.inj (h.eq_of_length rfl)).1
  -- With `r` and an unused number exchanged, the render `k` is what it is.
  have hsame : t.generate k data = (t.generate k data).relocate (exchangeRuns r r') :=
    generate_relocate relocation_exchangeRuns
      (ofMarkup_staysPut relocation_exchangeRuns exchangeRuns_modulePlace ht)
      (relocate_of_outside hr hr') hplace
  have hstay : ∀ o ∈ (t.generate k data).functions, exchangeRuns r r' o = o := by
    rw [← VNode.same_relocate_iff, ← hsame]
    exact VNode.same_refl _
  rintro ⟨o, ho, hsuffix⟩
  exact not_suffix_of_exchangeRuns (Ne.symm hk'') (hstay o ho) hsuffix

/-- **Two renders show the same tree just when no function in it was made by its render.** -/
theorem generate_same_iff (hkr : k ≠ r) (hk : data.Outside k) (hr : data.Outside r) :
    (t.generate k data).same (t.generate r data) = true ↔ ¬ (t.generate k data).HoldsMade k := by
  rw [generate_exchanged ht hk hr, VNode.same_relocate_iff]
  constructor
  · rintro hstay ⟨o, ho, hsuffix⟩
    exact not_suffix_of_exchangeRuns hkr (hstay o ho) hsuffix
  · intro hnone o ho
    exact exchangeRuns_eq_self (fun h => hnone ⟨o, ho, h⟩)
      fun h => not_holdsMade ht hkr hr ⟨o, ho, h⟩

end

/-- **What a template shows depends on the data that it names, and on nothing else.** Data that agree
    on the names in a template are shown as one tree by a render, whichever render it is. Two renders
    of such data show the same page; their trees differ only in the functions that the renders made,
    and are the same just when there is none. The data are older than the two renders. -/
theorem generate_by_names {s : Setting} {name markup : String} {t : Template}
    (ht : Template.ofMarkup s name markup = .ok t) {data data' : Dict Value}
    (hnames : ∀ x ∈ t.names, Dict.get? data x = Dict.get? data' x) :
    (∀ run, t.generate run data = t.generate run data') ∧
      ∀ k r, k ≠ r → data.Outside k → data.Outside r →
        VNode.pageAll (t.generate r data').children = VNode.pageAll (t.generate k data).children ∧
          t.generate r data' = (t.generate k data).relocate (exchangeRuns k r) ∧
          ((t.generate k data).same (t.generate r data') = true ↔
            ¬ (t.generate k data).HoldsMade k) := by
  refine ⟨Template.generate_agree hnames, fun k r hkr hk hr => ?_⟩
  rw [← Template.generate_agree hnames r]
  exact ⟨page_generate_eq ht (relocate_of_outside hk hr), generate_exchanged ht hk hr,
    generate_same_iff ht hkr hk hr⟩

/-- A script whose function makes a function, and an element that shows one. -/
def functionShown : String :=
  "<wxs module=\"m\">module.exports.mk = function () \x7b return function () \x7b\x7d; \x7d;</wxs>"
    ++ "<p a=\"\x7b\x7bm.mk()\x7d\x7d\"></p>"

/-- Two renders of such an element show one page, and different trees. -/
theorem functionShown_renders :
    ∃ t, Template.ofMarkup ⟨.standard, [], fun _ => false⟩ "" functionShown = .ok t ∧
      (∀ run, t.generate run [] = t.generate run [("x", .null)]) ∧
      VNode.pageAll (t.generate 1 [("x", .null)]).children = VNode.pageAll (t.generate 0 []).children ∧
      (t.generate 0 []).same (t.generate 1 [("x", .null)]) = false := by
  have hall : (match Template.ofMarkup ⟨.standard, [], fun _ => false⟩ "" functionShown with
      | .ok t => t.names == ["m"] && !(t.generate 0 []).same (t.generate 1 [])
      | .error _ => false) = true := by decide +kernel
  cases ht : Template.ofMarkup ⟨.standard, [], fun _ => false⟩ "" functionShown with
  | error e =>
    rw [ht] at hall
    cases hall
  | ok t =>
    rw [ht] at hall
    obtain ⟨hnames, hsame⟩ := Bool.and_eq_true_iff.mp hall
    have hagree : ∀ x ∈ t.names, Dict.get? ([] : Dict Value) x = Dict.get? [("x", .null)] x := by
      rw [beq_iff_eq.mp hnames, List.forall_mem_singleton]
      rfl
    obtain ⟨hone, htwo⟩ := generate_by_names ht hagree
    obtain ⟨hpage, -, -⟩ := htwo 0 1 (by decide) nofun nofun
    exact ⟨t, rfl, hone, hpage, by rwa [← hone 1, ← Bool.not_eq_true']⟩

end Trellis
