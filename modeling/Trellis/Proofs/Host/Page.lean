import Mathlib.Data.List.Perm.Subperm
import Trellis.Host.Html
import Trellis.Proofs.Host.Shows

/-!
# Pages

An `Html` is a page as it is read: texts and elements with their attributes in order. `VNode.page`
is the page of a tree, `Html.print` writes it, and a host that shows a plain tree writes the same
(`htmlFrom_eq_print`). Trees that are alike have pages that differ in the order of attributes
inside their tags, and in nothing else (`page_reordered`).
-/

namespace Trellis

/-! ## 1. Pages and how they are written -/

/-- A text, or an element with its attributes, which may be bare, and what is in it. -/
inductive Html where
  | text (content : String)
  | element (tag : String) (attrs : List (String × Option String)) (children : List Html)

namespace Html

/-- An attribute behind a tag. -/
def printAttr : String × Option String → String
  | (name, none) => " " ++ name
  | (name, some value) => " " ++ name ++ "=\"" ++ Text.escape value ++ "\""

mutual

/-- Writes a page. -/
def print : Html → String
  | .text content => Text.escape content
  | .element tag attrs children =>
    "<" ++ tag ++ String.join (attrs.map printAttr) ++ ">" ++ printAll children ++ "</" ++ tag ++ ">"

/-- Writes pages one behind the other. -/
def printAll : List Html → String
  | [] => ""
  | p :: ps => print p ++ printAll ps

end

theorem printAll_append (ps qs : List Html) : printAll (ps ++ qs) = printAll ps ++ printAll qs := by
  induction ps with
  | nil => exact String.empty_append.symm
  | cons p ps ih => rw [List.cons_append, printAll, printAll, ih, String.append_assoc]

theorem printAll_flatMap {α : Type} {xs : List α} {write : α → String} {pages : α → List Html}
    (h : ∀ x, write x = printAll (pages x)) :
    String.join (xs.map write) = printAll (xs.flatMap pages) := by
  induction xs with
  | nil => rfl
  | cons x xs ih =>
    rw [List.map_cons, String.join_cons, List.flatMap_cons, printAll_append, h, ih]

mutual

/-- The same page, but for the order of attributes inside each tag. -/
def Reordered : Html → Html → Prop
  | .text content, .text content' => content = content'
  | .element tag attrs children, .element tag' attrs' children' =>
    tag = tag' ∧ attrs.Perm attrs' ∧ ReorderedAll children children'
  | _, _ => False

/-- The same pages, but for the order of attributes inside each tag. -/
def ReorderedAll : List Html → List Html → Prop
  | [], [] => True
  | p :: ps, q :: qs => Reordered p q ∧ ReorderedAll ps qs
  | _, _ => False

end

end Html

/-! ## 2. The page of a tree -/

/-- An attribute as it stands on a page: `true` is bare, and `false` and nothing do not stand there. -/
def Attr.shown? (a : Attr) : Option (String × Option String) :=
  match a.value with
  | .bool true => some (a.name, none)
  | .bool false | .undefined | .null => none
  | v => some (a.name, some v.toText)

namespace VNode

mutual

/-- The page of a tree. -/
def page : VNode → Html
  | ⟨kind, tag, _, content, _, attrs, _, children, _⟩ =>
    match Host.contentOf kind tag content with
    | .text content => .text content
    | .element tag => .element tag (attrs.filterMap Attr.shown?) (pageAll children)

/-- The pages of trees. -/
def pageAll : List VNode → List Html
  | [] => []
  | v :: vs => page v :: pageAll vs

end

end VNode

open VNode

theorem attrHtml_eq (a : Attr) :
    Host.attrHtml a = (a.shown?.map Html.printAttr).getD "" := by
  obtain ⟨name, v⟩ := a
  unfold Host.attrHtml Attr.shown?
  cases v with
  | bool b => cases b <;> rfl
  | _ => rfl

theorem join_attrHtml (attrs : List Attr) :
    String.join (attrs.map Host.attrHtml) =
      String.join ((attrs.filterMap Attr.shown?).map Html.printAttr) := by
  induction attrs with
  | nil => rfl
  | cons a attrs ih =>
    rw [List.map_cons, String.join_cons, ih, attrHtml_eq, List.filterMap_cons]
    cases a.shown? with
    | none => exact String.empty_append
    | some p => rw [List.map_cons, String.join_cons]; rfl

theorem page_of_text {v : VNode} (hv : v.kind = .text) : v.page = .text v.content := by
  obtain ⟨kind, tag, component, content, key, attrs, events, children, host⟩ := v
  cases hv
  rfl

theorem page_of_ne {v : VNode} (hv : v.kind ≠ .text) :
    ∃ tag, Host.contentOf v.kind v.tag v.content = .element tag ∧
      v.page = .element tag (v.attrs.filterMap Attr.shown?) (pageAll v.children) := by
  obtain ⟨kind, tag, component, content, key, attrs, events, children, host⟩ := v
  cases kind with
  | text => exact absurd rfl hv
  | _ => exact ⟨_, rfl, rfl⟩

/-! ## 3. The page of a host -/

namespace Host

section

variable {h : Host} {n : Handle} {nd : HostNode} {p : Option Handle}

theorem htmlFrom_text (hn : h.get? n = some nd) {content : String} (hc : nd.content = .text content)
    (fuel : Nat) : htmlFrom h (fuel + 1) n = Text.escape content := by
  obtain ⟨c, attrs, listeners, children, parent⟩ := nd
  cases hc
  rw [htmlFrom, hn]

theorem htmlFrom_element (hn : h.get? n = some nd) {tag : String} (hc : nd.content = .element tag)
    (fuel : Nat) :
    htmlFrom h (fuel + 1) n =
      "<" ++ tag ++ String.join (nd.attrs.map attrHtml) ++ ">"
        ++ String.join (nd.children.map (htmlFrom h fuel)) ++ "</" ++ tag ++ ">" := by
  obtain ⟨c, attrs, listeners, children, parent⟩ := nd
  cases hc
  rw [htmlFrom, hn]

theorem join_htmlFrom {vs : List VNode} {write : Handle → String}
    (hvs : ∀ v ∈ vs, write v.top = v.page.print) :
    String.join ((vs.map VNode.top).map write) = Html.printAll (pageAll vs) := by
  induction vs with
  | nil => rfl
  | cons v vs ih =>
    rw [List.map_cons, List.map_cons, String.join_cons, hvs v List.mem_cons_self,
      ih fun w hw => hvs w (List.mem_cons_of_mem _ hw), pageAll, Html.printAll]

theorem length_handles_le {vs : List VNode} {v : VNode} (hv : v ∈ vs) :
    v.handles.length ≤ (handlesAll vs).length := by
  induction vs with
  | nil => cases hv
  | cons w vs ih =>
    rw [handlesAll, List.length_append]
    rcases List.mem_cons.mp hv with rfl | hv
    · omega
    · have := ih hv
      omega

/-- **A host that shows a plain tree writes its page**, when it goes deep enough. -/
theorem htmlFrom_eq_print {v : VNode} (hs : Shows h p v) (hv : v.Plain) {fuel : Nat}
    (hfuel : v.handles.length ≤ fuel) : htmlFrom h fuel v.top = v.page.print := by
  induction hs generalizing fuel with
  | @mk p v n nd host node content parent attrs listeners children below ih =>
    have htop : v.top = n := by rw [VNode.top, host, Option.getD_some]
    rw [VNode.handles_eq host, List.length_cons] at hfuel
    obtain ⟨fuel, rfl⟩ : ∃ k, fuel = k + 1 := ⟨fuel - 1, by omega⟩
    rw [htop]
    by_cases hk : v.kind = .text
    · rw [hk] at content
      rw [htmlFrom_text node content, page_of_text hk, Html.print]
    · obtain ⟨tag, htag, hpage⟩ := page_of_ne hk
      rw [shownAttrs, if_neg hk] at attrs
      rw [shownChildren_of_ne hk] at children below ih hfuel
      have hchildren : String.join (nd.children.map (htmlFrom h fuel)) =
          Html.printAll (pageAll v.children) := by
        rw [children]
        refine join_htmlFrom fun c hc => ih c hc (hv.children c hc) ?_
        have := length_handles_le hc
        omega
      rw [htmlFrom_element node (content.trans htag), attrs.eq_of_nodup hv.nodup_names, hchildren,
        join_attrHtml, hpage, Html.print]

/-- What hangs below a node is written into it. -/
theorem innerHtml_eq_print {O : Handle → Prop} {vs : List VNode} (hh : Hangs h O n nd vs)
    (hvs : ∀ v ∈ vs, v.Plain) : h.innerHtml n = Html.printAll (pageAll vs) := by
  rw [innerHtml, children_of_get? hh.node, hh.children]
  refine join_htmlFrom fun v hv => htmlFrom_eq_print (hh.shows v hv) (hvs v hv) ?_
  have hsub : (handlesAll vs).length ≤ (List.range h.nodes.size).length :=
    (List.subperm_of_subset hh.nodup fun m hm => List.mem_range.mpr (hh.lt_size hm)).length_le
  rw [List.length_range] at hsub
  exact Nat.le_trans (length_handles_le hv) hsub

end

end Host

/-! ## 4. Trees with the same page -/

theorem shown?_congr {a b : Attr} (hname : a.name = b.name) (h : Value.same a.value b.value = true) :
    a.shown? = b.shown? := by
  obtain ⟨name, v⟩ := a
  obtain ⟨_, w⟩ := b
  obtain rfl : name = _ := hname
  have ht := Value.toText_congr h
  unfold Attr.shown?
  cases v <;> cases w <;> simp_all [Value.same]

theorem filterMap_shown?_congr {l m : List Attr} (h : (l == m) = true) :
    l.filterMap Attr.shown? = m.filterMap Attr.shown? := by
  induction l generalizing m with
  | nil =>
    cases m with
    | nil => rfl
    | cons b m => cases h
  | cons a l ih =>
    cases m with
    | nil => cases h
    | cons b m =>
      obtain ⟨hname, hvalue, hrest⟩ := Attrs.beq_cons.mp h
      rw [List.filterMap_cons, List.filterMap_cons, shown?_congr hname hvalue, ih hrest]

theorem pageAll_map {vs : List VNode} {g : VNode → VNode} (h : ∀ c ∈ vs, (g c).page = c.page) :
    pageAll (vs.map g) = pageAll vs := by
  induction vs with
  | nil => rfl
  | cons v vs ih =>
    rw [List.map_cons, pageAll, pageAll, h v List.mem_cons_self,
      ih fun c hc => h c (List.mem_cons_of_mem _ hc)]

/-- The host of a tree does not matter for its page. -/
theorem page_detach (v : VNode) : v.detach.page = v.page := by
  induction v using VNode.induction with
  | h v ih =>
    obtain ⟨kind, tag, component, content, key, attrs, events, children, host⟩ := v
    rw [detach, page, page, detachAll_eq_map, pageAll_map ih]

theorem pageAll_of_map_detach {vs ws : List VNode} (h : ws.map detach = vs.map detach) :
    pageAll ws = pageAll vs := by
  rw [← pageAll_map fun c _ => page_detach c, h, pageAll_map fun c _ => page_detach c]

theorem pages_reordered_of {vs ws : List VNode}
    (hvs : ∀ v ∈ vs, ∀ w, Alike v w → Html.Reordered v.page w.page) (h : AlikeAll vs ws) :
    Html.ReorderedAll (pageAll vs) (pageAll ws) := by
  induction vs generalizing ws with
  | nil =>
    cases ws with
    | nil => trivial
    | cons w ws => exact h.elim
  | cons v vs ih =>
    cases ws with
    | nil => exact h.elim
    | cons w ws =>
      exact ⟨hvs v List.mem_cons_self w h.1, ih (fun c hc => hvs c (List.mem_cons_of_mem _ hc)) h.2⟩

/-- **Trees that are alike have the same page**, but for the order of attributes. -/
theorem page_reordered {v w : VNode} (h : Alike v w) : Html.Reordered v.page w.page := by
  induction v using VNode.induction generalizing w with
  | h v ih =>
    obtain ⟨hkind, htag, _, hcontent, _, ⟨l, hperm, hbeq⟩, _, hchildren⟩ := alike_iff.mp h
    by_cases hk : v.kind = .text
    · rw [page_of_text hk, page_of_text (hkind ▸ hk)]
      exact hcontent
    · obtain ⟨tag, hv, hpage⟩ := page_of_ne hk
      obtain ⟨tag', hw, hpage'⟩ := page_of_ne (v := w) (hkind ▸ hk)
      rw [hkind, htag, hcontent, hw] at hv
      rw [hpage, hpage', Html.Reordered]
      refine ⟨(Content.element.inj hv).symm, ?_, pages_reordered_of (fun c hc w => ih c hc) hchildren⟩
      rw [← filterMap_shown?_congr hbeq]
      exact hperm.symm.filterMap _

theorem pages_reordered {vs ws : List VNode} (h : AlikeAll vs ws) :
    Html.ReorderedAll (pageAll vs) (pageAll ws) :=
  pages_reordered_of (fun _ _ _ => page_reordered) h

end Trellis
