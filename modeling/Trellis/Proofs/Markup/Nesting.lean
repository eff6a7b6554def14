import Mathlib.Data.List.TakeWhile
import Mathlib.Logic.ExistsUnique
import Trellis.Markup.Event

/-!
# Events that nest

Markup that reads to its end has the events of a forest: every element that opens closes again
behind what stands in it.
- `Follows`: what events do to the open elements, each of them closing the innermost one only,
- `scan_follows`: the events of markup leave nothing open,
- `existsUnique_forest`: such events are those of one forest and of no other.
-/
namespace Trellis.Markup

/-! ## 1. Forests -/

/-- What events tell of: a text, an element that closes itself, or an element with what stands in
    it and why it closes. -/
inductive Nested where
  | text (content : String)
  | single (tag : String) (attrs : List RawAttr)
  | element (tag : String) (attrs : List RawAttr) (children : List Nested) (kind : EndKind)

namespace Nested

mutual

/-- The events of a tree in the order of the document. -/
def events : Nested → List Event
  | .text content => [.text content]
  | .single tag attrs => [.opening tag attrs true]
  | .element tag attrs children kind =>
    .opening tag attrs false :: (eventsAll children ++ [.closing tag kind])

/-- The events of trees one behind the other. -/
def eventsAll : List Nested → List Event
  | [] => []
  | t :: ts => t.events ++ eventsAll ts

end

/-- Events behind which no tree goes on: there are none, or an element closes. -/
def Ends : List Event → Prop
  | [] => True
  | .closing _ _ :: _ => True
  | _ => False

/-- **Events tell of one forest only**: what stands before the end of an element is determined. -/
theorem eventsAll_cancel : ∀ (ts us : List Nested) {es es' : List Event}, Ends es → Ends es' →
    eventsAll ts ++ es = eventsAll us ++ es' → ts = us ∧ es = es'
  | [], [], _, _, _, _, h => ⟨rfl, h⟩
  | [], u :: us, es, es', hes, _, h => by
    have hne : Ends (u.events ++ (eventsAll us ++ es')) := by
      rw [← List.append_assoc, ← eventsAll, ← h]
      exact hes
    cases u <;> cases hne
  | t :: ts, [], es, es', _, hes', h => by
    have hne : Ends (t.events ++ (eventsAll ts ++ es)) := by
      rw [← List.append_assoc, ← eventsAll, h]
      exact hes'
    cases t <;> cases hne
  | .text content :: ts, u :: us, es, es', hes, hes', h => by
    cases u with
    | text content' =>
      obtain ⟨he, hrest⟩ := List.cons_eq_cons.mp h
      cases he
      obtain ⟨rfl, rfl⟩ := eventsAll_cancel ts us hes hes' hrest
      exact ⟨rfl, rfl⟩
    | single tag attrs => cases h
    | element tag attrs children kind => cases h
  | .single tag attrs :: ts, u :: us, es, es', hes, hes', h => by
    cases u with
    | text content => cases h
    | single tag' attrs' =>
      obtain ⟨he, hrest⟩ := List.cons_eq_cons.mp h
      cases he
      obtain ⟨rfl, rfl⟩ := eventsAll_cancel ts us hes hes' hrest
      exact ⟨rfl, rfl⟩
    | element tag' attrs' children kind => cases h
  | .element tag attrs children kind :: ts, u :: us, es, es', hes, hes', h => by
    cases u with
    | text content => cases h
    | single tag' attrs' => cases h
    | element tag' attrs' children' kind' =>
      simp only [eventsAll, events, List.cons_append, List.append_assoc, List.nil_append] at h
      obtain ⟨he, hinside⟩ := List.cons_eq_cons.mp h
      cases he
      -- what stands in the element first, then what stands behind its end
      obtain ⟨rfl, hbehind⟩ := eventsAll_cancel children children'
        (show Ends (.closing tag kind :: _) from trivial)
        (show Ends (.closing tag kind' :: _) from trivial) hinside
      obtain ⟨hend, hrest⟩ := List.cons_eq_cons.mp hbehind
      cases hend
      obtain ⟨rfl, rfl⟩ := eventsAll_cancel ts us hes hes' hrest
      exact ⟨rfl, rfl⟩

end Nested

open Nested

/-! ## 2. Open elements -/

/-- Events take the open elements, the innermost first, to others. -/
inductive Follows : List String → List Event → List String → Prop
  | nil {stack} : Follows stack [] stack
  | text {stack content es stack'} : Follows stack es stack' →
      Follows stack (.text content :: es) stack'
  | single {stack tag attrs es stack'} : Follows stack es stack' →
      Follows stack (.opening tag attrs true :: es) stack'
  | opening {stack tag attrs es stack'} : Follows (tag :: stack) es stack' →
      Follows stack (.opening tag attrs false :: es) stack'
  | closing {stack tag kind es stack'} : Follows stack es stack' →
      Follows (tag :: stack) (.closing tag kind :: es) stack'

theorem Follows.trans {stack stack' stack'' : List String} {es es' : List Event}
    (h : Follows stack es stack') (h' : Follows stack' es' stack'') :
    Follows stack (es ++ es') stack'' := by
  induction h with
  | nil => exact h'
  | text _ ih => exact .text (ih h')
  | single _ ih => exact .single (ih h')
  | opening _ ih => exact .opening (ih h')
  | closing _ ih => exact .closing (ih h')

theorem follows_closings (kind : EndKind) (inner stack : List String) :
    Follows (inner ++ stack) (inner.map (.closing · kind)) stack := by
  induction inner with
  | nil => exact .nil
  | cons tag inner ih => exact .closing ih

theorem follows_closeAll (stack : List String) : Follows stack (closeAll stack) [] := by
  have h := follows_closings .endOfInput stack []
  rwa [List.append_nil] at h

/-- An end tag closes from within: first what was opened later, then its own element. -/
theorem follows_close (tag : String) (stack : List String) :
    Follows stack (close tag stack).1 (close tag stack).2 := by
  unfold close
  split
  · rename_i hmem
    have hsplit : stack.takeWhile (· ≠ tag) ++ stack.dropWhile (· ≠ tag) = stack :=
      List.takeWhile_append_dropWhile
    have hne : stack.dropWhile (· ≠ tag) ≠ [] := by
      intro hnil
      have hall := List.dropWhile_eq_nil_iff.mp hnil tag (List.contains_iff_mem.mp hmem)
      simp at hall
    obtain ⟨top, outer, hdrop⟩ := List.exists_cons_of_ne_nil hne
    have htop : top = tag := by
      have hhead := List.head?_dropWhile_not (· ≠ tag) stack
      rw [hdrop] at hhead
      simpa using hhead
    subst htop
    have hinner := follows_closings .implicit (stack.takeWhile (· ≠ top)) (top :: outer)
    rw [← hdrop, hsplit] at hinner
    rw [hdrop] at hinner ⊢
    exact hinner.trans (.closing .nil)
  · exact .nil

theorem follows_textEvent (cs : List Char) (stack : List String) :
    Follows stack (textEvent cs) stack := by
  unfold textEvent
  split
  · exact .nil
  · exact .text .nil

/-- What the events of a reading do, one round after the other. -/
theorem scanFrom_follows (raw : String) (fuel : Nat) (stack : List String) (cs : List Char)
    (h : (scanFrom raw fuel stack cs).unread = none) :
    Follows stack (scanFrom raw fuel stack cs).events [] := by
  fun_induction scanFrom raw fuel stack cs with
  | case1 fuel stack => exact follows_closeAll stack
  | case2 stack c cs => cases h
  | case3 fuel stack c cs hraw body rest hbody ends stack' hclose ih =>
    have hends := follows_close raw stack
    rw [hclose] at hends
    exact ((follows_textEvent body stack).trans hends).trans (ih h)
  | case4 fuel stack c cs hraw hbody =>
    exact (follows_textEvent (c :: cs) stack).trans (follows_closeAll stack)
  | case5 fuel stack cs hraw hmark => cases h
  | case6 fuel stack cs hraw rest hmark ih => exact ih h
  | case7 fuel stack cs hraw tag rest ends stack' hclose hmark ih =>
    have hends := follows_close tag stack
    rw [hclose] at hends
    exact hends.trans (ih h)
  | case8 fuel stack cs hraw tag attrs selfClosing rest hmark ih =>
    cases selfClosing with
    | true => exact .single (ih h)
    | false => exact .opening (ih h)
  | case9 fuel stack c cs hraw hc text ih => exact (follows_textEvent text stack).trans (ih h)

/-- **Nothing is left open at the end of markup.** -/
theorem scan_follows {markup raw : String} (h : (scan markup raw).unread = none) :
    Follows [] (scan markup raw).events [] :=
  scanFrom_follows _ _ _ _ h

/-! ## 3. The forest of events -/

/-- Events that close the given elements, with trees before each of the ends and behind the last. -/
inductive Hanging : List String → List Event → Prop
  | done (ts : List Nested) : Hanging [] (eventsAll ts)
  | closing {stack es} (ts : List Nested) (tag : String) (kind : EndKind) : Hanging stack es →
      Hanging (tag :: stack) (eventsAll ts ++ .closing tag kind :: es)

theorem Hanging.cons {stack : List String} {es : List Event} (t : Nested) (h : Hanging stack es) :
    Hanging stack (t.events ++ es) := by
  cases h with
  | done ts => exact .done (t :: ts)
  | closing ts tag kind h =>
    rw [← List.append_assoc]
    exact .closing (t :: ts) tag kind h

/-- Induction from behind: an element that opens takes the trees up to its own end. -/
theorem Follows.hanging {stack stack' : List String} {es : List Event}
    (h : Follows stack es stack') (hstack : stack' = []) : Hanging stack es := by
  induction h with
  | nil =>
    subst hstack
    exact .done []
  | text _ ih => exact (ih hstack).cons (.text _)
  | single _ ih => exact (ih hstack).cons (.single _ _)
  | @opening _ tag attrs _ _ _ ih =>
    cases ih hstack with
    | closing children _ kind hrest =>
      have h := hrest.cons (.element tag attrs children kind)
      rwa [events, List.cons_append, List.append_assoc] at h
  | closing _ ih => exact .closing [] _ _ (ih hstack)

/-- **Events that leave nothing open are those of one forest.** -/
theorem existsUnique_forest {es : List Event} (h : Follows [] es []) :
    ∃! ts : List Nested, eventsAll ts = es := by
  obtain ⟨ts⟩ := h.hanging rfl
  refine ⟨ts, rfl, fun us hus => ?_⟩
  have hcancel := eventsAll_cancel us ts (show Ends [] from trivial) (show Ends [] from trivial)
  rw [List.append_nil, List.append_nil] at hcancel
  exact (hcancel hus).1

end Trellis.Markup
