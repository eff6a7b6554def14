import Trellis.Proofs.Host.Page
import Trellis.Proofs.Template.Relocate

/-!
# Renders by number

Renders are numbered so that functions made in different ones differ. What is on the page does not
depend on the number: `exchangeRuns` carries one render to the other, and where no function in the
data was made by either of them both show the same page (`page_generate_eq`).
-/

namespace Trellis

open Value VNode

/-! ## 1. Exchanging two renders -/

/-- The place with two renders exchanged. -/
def exchangeRuns (k r : Nat) : Place → Place
  | [] => []
  | [run, 1] => [if run = k then r else if run = r then k else run, 1]
  | i :: p => i :: exchangeRuns k r p

section

variable {k r : Nat}

theorem exchangeRuns_cons {p : Place} (hp : p ≠ [1]) (i : Nat) :
    exchangeRuns k r (i :: p) = i :: exchangeRuns k r p := by
  rw [exchangeRuns]
  exact hp

theorem length_exchangeRuns (p : Place) : (exchangeRuns k r p).length = p.length := by
  fun_induction exchangeRuns k r p with
  | case1 => rfl
  | case2 run => rfl
  | case3 i p h ih => rw [List.length_cons, List.length_cons, ih]

theorem exchangeRuns_ne_one {p : Place} (hp : p ≠ [1]) : exchangeRuns k r p ≠ [1] := by
  intro h
  have hlength := congrArg List.length h
  rw [length_exchangeRuns] at hlength
  obtain ⟨i, rfl⟩ := List.length_eq_one_iff.mp hlength
  rw [exchangeRuns_cons (by nofun)] at h
  exact hp h

/-- Exchanged twice, a place is what it was. -/
theorem exchangeRuns_exchangeRuns (p : Place) : exchangeRuns k r (exchangeRuns k r p) = p := by
  fun_induction exchangeRuns k r p with
  | case1 => rfl
  | case2 run =>
    rw [exchangeRuns]
    by_cases hk : run = k
    · subst hk
      by_cases hr : r = run <;> simp [hr]
    · by_cases hr : run = r <;> simp [hk, hr]
  | case3 i p h ih =>
    rw [exchangeRuns_cons (exchangeRuns_ne_one h), ih]

theorem relocation_exchangeRuns : Relocation (exchangeRuns k r) where
  apart p q h := by
    rw [← @exchangeRuns_exchangeRuns k r p, h, exchangeRuns_exchangeRuns]
  cons i p hp := exchangeRuns_cons (fun e => by rw [e] at hp; exact absurd hp (by decide)) i

theorem exchangeRuns_modulePlace (module : Nat) :
    exchangeRuns k r (modulePlace module) = modulePlace module := rfl

theorem exchangeRuns_renderPlace : exchangeRuns k r (renderPlace k) = renderPlace r := by
  rw [renderPlace, exchangeRuns, if_pos rfl]
  rfl

/-- Places of other renders, and those of no render, stay. -/
theorem exchangeRuns_eq_self {p : Place} (hk : ¬ renderPlace k <:+ p) (hr : ¬ renderPlace r <:+ p) :
    exchangeRuns k r p = p := by
  fun_induction exchangeRuns k r p with
  | case1 => rfl
  | case2 run =>
    have hk' : run ≠ k := by
      rintro rfl
      exact hk (List.suffix_refl _)
    have hr' : run ≠ r := by
      rintro rfl
      exact hr (List.suffix_refl _)
    rw [if_neg hk', if_neg hr']
  | case3 i p h ih =>
    rw [ih (fun hs => hk (hs.trans (List.suffix_cons i p)))
      fun hs => hr (hs.trans (List.suffix_cons i p))]

end

/-! ## 2. Data from outside -/

/-- No function in data was made by a render. -/
def Dict.Outside (run : Nat) (d : Dict Value) : Prop :=
  ∀ o ∈ originsOfFields d, ¬ renderPlace run <:+ o

theorem relocate_of_outside {k r : Nat} {d : Dict Value} (hk : d.Outside k) (hr : d.Outside r) :
    relocateFields (exchangeRuns k r) d = d :=
  relocateFields_eq_self fun o ho => exchangeRuns_eq_self (hk o ho) (hr o ho)

/-! ## 3. Pages -/

theorem shown?_relocate (f : Place → Place) (a : Attr) : (a.relocate f).shown? = a.shown? := by
  obtain ⟨name, v⟩ := a
  have ht := @toText_relocate f v
  unfold Attr.relocate Attr.shown?
  cases v with
  | bool b => rfl
  | array items => exact congrArg (fun s => some (name, some s)) ht
  | _ => rfl

/-- **Where functions were made does not matter for a page.** -/
theorem page_relocate (f : Place → Place) (v : VNode) : (v.relocate f).page = v.page := by
  induction v using VNode.induction with
  | h v ih =>
    obtain ⟨kind, tag, component, content, key, attrs, events, children, host⟩ := v
    have hattrs : (attrs.map (Attr.relocate f)).filterMap Attr.shown? = attrs.filterMap Attr.shown? := by
      rw [List.filterMap_map]
      exact List.filterMap_congr fun a _ => shown?_relocate f a
    rw [VNode.relocate, page, page, VNode.relocateAll_eq, pageAll_map ih, hattrs]

/-- **Renders with different numbers show the same page.** -/
theorem page_generate_eq {s : Setting} {name markup : String} {t : Template}
    (ht : Template.ofMarkup s name markup = .ok t) {data : Dict Value} {k r : Nat}
    (hdata : relocateFields (exchangeRuns k r) data = data) :
    pageAll (t.generate r data).children = pageAll (t.generate k data).children := by
  have hmodules := ofMarkup_staysPut (@relocation_exchangeRuns k r) exchangeRuns_modulePlace ht
  rw [generate_relocate relocation_exchangeRuns hmodules hdata exchangeRuns_renderPlace]
  have hchildren : ∀ v : VNode, (v.relocate (exchangeRuns k r)).children =
      v.children.map (VNode.relocate (exchangeRuns k r)) := by
    rintro ⟨⟩
    exact VNode.relocateAll_eq _ _
  rw [hchildren, pageAll_map fun c _ => page_relocate _ c]

end Trellis
