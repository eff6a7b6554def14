import Trellis.Proofs.Component.Merge
import Trellis.Proofs.Markup.Balance
import Trellis.Proofs.Markup.Boundaries
import Trellis.Proofs.Template.Described
import Trellis.Proofs.Template.Static

/-!
# How names are spelled

Tags and the names of attributes are runs of the characters that names are made of, so nothing else
is in them: no blank, no line break, no sign of markup. That goes for all the names that a template
takes from them, of elements, of their attributes and of the events that they listen to
(`spelled_of_mem_elements`). It does not go for what stands in the values of attributes.
-/
namespace Trellis

/-! ## 1. Names in markup -/

namespace Markup

/-- Made of the characters of names. -/
def Spelled (name : String) : Prop := ∀ c ∈ name.toList, isAttrChar c = true

theorem isTagChar_toLower {c : Char} (h : isTagChar c = true) : isTagChar c.toLower = true := by
  have hascii : ∀ n < 128, isTagChar (Char.ofNat n) = true → isTagChar (Char.ofNat n).toLower = true := by
    decide
  have hc := hascii c.toNat (Bytes.isTagChar_lt h)
  rw [Char.ofNat_toNat] at hc
  exact hc h

theorem spelled_lower {name : String} (h : ∀ c ∈ name.toList, isTagChar c = true) :
    Spelled (Text.lower name) := by
  intro c hc
  rw [Text.lower, String.toList_ofList, List.mem_map] at hc
  obtain ⟨d, hd, rfl⟩ := hc
  rw [isAttrChar, isTagChar_toLower (h d hd), Bool.true_or]

section

variable {cs rest : List Char}

theorem spelled_of_attr? {a : RawAttr} (h : attr? cs = some (a, rest)) : Spelled a.name := by
  rw [attr?] at h
  split at h
  · cases h
  · rename_i name behind hname
    have hchars := (run?_eq_some hname).2.2.1
    split at h
    · obtain ⟨⟨v, r⟩, -, heq⟩ := Option.map_eq_some_iff.mp h
      cases heq
      exact hchars
    · cases h
      exact hchars

theorem spelled_of_attrs? {fuel : Nat} {as : List RawAttr} {selfClosing : Bool}
    (h : attrs? fuel cs = some (as, selfClosing, rest)) : ∀ a ∈ as, Spelled a.name := by
  induction fuel generalizing cs as with
  | zero => cases h
  | succ fuel ih =>
    rw [attrs?] at h
    split at h
    · cases h
    · cases h
      exact List.forall_mem_nil _
    · cases h
      exact List.forall_mem_nil _
    · split at h
      · cases h
      · split at h
        · cases h
        · rename_i a behind ha
          obtain ⟨⟨as', b, r⟩, has, heq⟩ := Option.map_eq_some_iff.mp h
          cases heq
          exact List.forall_mem_cons.mpr ⟨spelled_of_attr? ha, ih has⟩

/-- **The names in a start tag are spelled with the characters of names.** -/
theorem spelled_of_mark? {tag : String} {as : List RawAttr} {selfClosing : Bool}
    (h : mark? cs = some (.startTag tag as selfClosing, rest)) :
    Spelled tag ∧ ∀ a ∈ as, Spelled a.name := by
  unfold mark? at h
  split at h
  · obtain ⟨r, -, heq⟩ := Option.map_eq_some_iff.mp h
    cases heq
  · obtain ⟨r, -, heq⟩ := Option.map_eq_some_iff.mp h
    cases heq
  · rw [startTag?] at h
    split at h
    · cases h
    · rename_i name behind hname
      obtain ⟨⟨as', b, r⟩, has, heq⟩ := Option.map_eq_some_iff.mp h
      cases heq
      exact ⟨spelled_lower (run?_eq_some hname).2.2.1, spelled_of_attrs? has⟩
  · cases h

end

section

variable {raw : String} {stack stack' : List String} {cs cs' : List Char} {es : List Event}
  {tag : String} {as : List RawAttr} {selfClosing : Bool}

theorem not_opening_mem_textEvent (cs : List Char) :
    .opening tag as selfClosing ∉ textEvent cs := by
  rw [textEvent]
  split <;> simp

theorem not_opening_mem_close (name : String) (stack : List String) :
    .opening tag as selfClosing ∉ (close name stack).1 := by
  rw [close]
  split <;> simp

theorem Round.spelled (h : Round raw stack cs es stack' cs')
    (hmem : .opening tag as selfClosing ∈ es) : Spelled tag ∧ ∀ a ∈ as, Spelled a.name := by
  cases h with
  | body hraw h =>
    rcases List.mem_append.mp hmem with hmem | hmem
    · exact absurd hmem (not_opening_mem_textEvent _)
    · exact absurd hmem (not_opening_mem_close _ _)
  | unended hraw h => exact absurd hmem (not_opening_mem_textEvent _)
  | comment hraw h => cases hmem
  | endTag hraw h => exact absurd hmem (not_opening_mem_close _ _)
  | startTag hraw h =>
    cases List.mem_singleton.mp hmem
    exact spelled_of_mark? h
  | text hraw hc => exact absurd hmem (not_opening_mem_textEvent _)

theorem Run.spelled (h : Run raw stack cs es stack' cs')
    (hmem : .opening tag as selfClosing ∈ es) : Spelled tag ∧ ∀ a ∈ as, Spelled a.name := by
  induction h with
  | refl => cases hmem
  | step hround _ ih =>
    rcases List.mem_append.mp hmem with hmem | hmem
    · exact hround.spelled hmem
    · exact ih hmem

/-- **All names in the start tags of markup are spelled with the characters of names.** -/
theorem spelled_scan {markup : String}
    (hmem : .opening tag as selfClosing ∈ (scan markup raw).events) :
    Spelled tag ∧ ∀ a ∈ as, Spelled a.name := by
  obtain ⟨es, stack, rest, hrun, ⟨-, hscan⟩ | ⟨-, hscan⟩⟩ := scan_run markup raw
  · rw [hscan] at hmem
    rcases List.mem_append.mp hmem with hmem | hmem
    · exact hrun.spelled hmem
    · simp [closeAll] at hmem
  · rw [hscan] at hmem
    exact hrun.spelled hmem

end

end Markup

open Markup

/-! ## 2. Names of elements -/

/-- The names of an element, of its attributes and of the events that it listens to. -/
structure Element.Spelled (e : Element) : Prop where
  tag : Markup.Spelled e.tag
  attrs : ∀ a ∈ e.attrs, Markup.Spelled a.1
  events : ∀ b ∈ Events.all e.events, Markup.Spelled b.name

/-- The event of a binding is a part of the attribute's name. -/
theorem spelled_of_binding {name : String} {handler : Option String} {b : Binding}
    (h : Binding.read? name handler = some b) (hname : Markup.Spelled name) :
    Markup.Spelled b.name := by
  obtain ⟨phase, -, word, -, colon, -, -, -, heq⟩ := parts_of_read h
  intro c hc
  refine hname c ?_
  rw [heq]
  exact List.mem_append_right _ hc

theorem Dict.mem_of_get? {α : Type} {d : Dict α} {name : String} {v : α} (h : get? d name = some v) :
    (name, v) ∈ d := by
  induction d with
  | nil => cases h
  | cons p d ih =>
    rw [get?] at h
    split at h
    · rename_i hname
      cases h
      exact hname ▸ List.mem_cons_self
    · exact List.mem_cons_of_mem _ (ih h)

theorem mem_all_add {events : Events} {b b' : Binding} (h : b' ∈ Events.all (Events.add events b)) :
    b' = b ∨ b' ∈ Events.all events := by
  obtain ⟨⟨name, bs⟩, hmem, hb⟩ := List.mem_flatMap.mp h
  rcases Dict.mem_insert hmem with heq | hmem
  · cases heq
    rcases List.mem_append.mp hb with hb | hb
    · cases hget : Dict.get? events b.name with
      | none => rw [hget] at hb; cases hb
      | some old =>
        rw [hget] at hb
        exact .inr (List.mem_flatMap.mpr ⟨_, Dict.mem_of_get? hget, hb⟩)
    · exact .inl (List.mem_singleton.mp hb)
  · exact .inr (List.mem_flatMap.mpr ⟨_, hmem, hb⟩)

theorem spelled_addAttr {h h' : Heading} {name : String} {value : Option String}
    (hadd : h.addAttr name value = .ok h') (hname : Markup.Spelled name) (hh : h.element.Spelled) :
    h'.element.Spelled := by
  obtain ⟨p, -, hp⟩ := bind_eq_ok_iff.mp hadd
  cases hp
  refine ⟨hh.tag, fun a ha => ?_, hh.events⟩
  rcases List.mem_append.mp ha with ha | ha
  · exact hh.attrs a ha
  · cases List.mem_singleton.mp ha
    exact hname

/-- An attribute whose name is spelled so brings no other names. -/
theorem spelled_add {c : Config} {h h' : Heading} {a : RawAttr} (hadd : h.add c a = .ok h')
    (ha : Markup.Spelled a.name) (hh : h.element.Spelled) : h'.element.Spelled := by
  unfold Heading.add at hadd
  split at hadd
  · cases hadd
    exact ⟨hh.tag, hh.attrs, hh.events⟩
  · split at hadd
    · rcases element_addStatement hadd with heq | hadd
      · exact heq ▸ hh
      · exact spelled_addAttr hadd ha hh
    · split at hadd
      · rename_i b hb
        cases hadd
        refine ⟨hh.tag, hh.attrs, fun b' hb' => ?_⟩
        rcases mem_all_add hb' with rfl | hb'
        · exact spelled_of_binding hb ha
        · exact hh.events b' hb'
      · exact spelled_addAttr hadd ha hh

/-- **An element takes all its names from its start tag.** -/
theorem spelled_read {c : Config} {kind : ElementKind} {tag : String} {attrs : List RawAttr}
    {h : Heading} (hread : Heading.read c kind tag attrs = .ok h) (htag : Markup.Spelled tag)
    (hattrs : ∀ a ∈ attrs, Markup.Spelled a.name) : h.element.Spelled := by
  have hfold : ∀ (attrs : List RawAttr) {g : Heading}, (∀ a ∈ attrs, Markup.Spelled a.name) →
      g.element.Spelled → attrs.foldlM (Heading.add c) g = .ok h → h.element.Spelled := by
    intro attrs
    induction attrs with
    | nil =>
      intro g _ hg hread
      cases hread
      exact hg
    | cons a attrs ih =>
      intro g hattrs hg hread
      obtain ⟨ha, hattrs⟩ := List.forall_mem_cons.mp hattrs
      rw [List.foldlM_cons] at hread
      obtain ⟨g₁, hadd, hread⟩ := bind_eq_ok_iff.mp hread
      exact ih hattrs (spelled_add hadd ha hg) hread
  exact hfold attrs hattrs ⟨htag, List.forall_mem_nil _, List.forall_mem_nil _⟩ hread

/-! ## 3. Elements of a template -/

mutual

/-- The elements of a tree, each before those in it. -/
def Node.elements : Node → List Element
  | .text _ => []
  | .element e children => e :: Node.elementsAll children
  | .branch _ body => body.elements
  | .loop _ body => body.elements

/-- The elements of trees. -/
def Node.elementsAll : List Node → List Element
  | [] => []
  | n :: rest => n.elements ++ Node.elementsAll rest

end

/-- The elements of a template. -/
def Template.elements (t : Template) : List Element := Node.elementsAll t.children

theorem mem_elementsAll {ns : List Node} {e : Element} :
    e ∈ Node.elementsAll ns ↔ ∃ n ∈ ns, e ∈ n.elements := by
  induction ns with
  | nil => simp [Node.elementsAll]
  | cons n ns ih => simp [Node.elementsAll, ih]

/-- Statements bring no elements. -/
theorem elements_wrap (st : Statements) (n : Node) : (st.wrap n).elements = n.elements := by
  have hlooped (n : Node) : (st.looped n).elements = n.elements := by
    unfold Statements.looped
    split <;> rfl
  unfold Statements.wrap
  split
  · exact hlooped n
  · split
    · exact hlooped _
    · exact hlooped n

theorem mem_elements_tree {o : Opened} {e : Element} :
    e ∈ o.tree.elements ↔ e = o.heading.element ∨ e ∈ Node.elementsAll o.children := by
  rw [Opened.tree, elements_wrap, Node.elements, List.mem_cons, mem_elementsAll, mem_elementsAll]
  simp only [List.mem_reverse]

namespace Builder

variable {s : Setting} {b b' : Builder} {e : Element}

/-- The elements so far: those that are open, and all that has come into them and before them. -/
def elements (b : Builder) : List Element :=
  b.opened.flatMap (fun o => o.heading.element :: Node.elementsAll o.children)
    ++ Node.elementsAll b.top

theorem mem_elements_addNode {n : Node} :
    e ∈ (b.addNode n).elements ↔ e ∈ n.elements ∨ e ∈ b.elements := by
  unfold addNode elements
  split
  · rename_i hopened
    simp [hopened, Node.elementsAll]
  · rename_i o rest hopened
    simp only [hopened, Node.elementsAll, List.flatMap_cons, List.mem_append, List.mem_cons]
    tauto

theorem mem_elements_addText {content : String} (h : b.addText s content = .ok b')
    (he : e ∈ b'.elements) : e ∈ b.elements := by
  unfold addText at h
  dsimp only at h
  split at h
  · cases h
    exact he
  · obtain ⟨p, -, rfl⟩ := map_eq_ok_iff.mp h
    exact (mem_elements_addNode.mp he).resolve_left List.not_mem_nil

/-- The element of a start tag, read from it with a kind that its tag has. -/
def ReadFrom (s : Setting) (e : Element) (event : Markup.Event) : Prop :=
  ∃ tag attrs selfClosing kind heading, event = .opening tag attrs selfClosing ∧
    s.kindOf tag = .ok kind ∧ Heading.read s.config kind tag attrs = .ok heading ∧
      heading.element = e

/-- **An event brings no element but the one of a start tag.** -/
theorem mem_elements_step {event : Markup.Event} (h : b.step s event = .ok b')
    (he : e ∈ b'.elements) : e ∈ b.elements ∨ ReadFrom s e event := by
  unfold step at h
  split at h
  · rename_i tag attrs selfClosing
    obtain ⟨kind, hkind, h⟩ := bind_eq_ok_iff.mp h
    obtain ⟨heading, hheading, h⟩ := bind_eq_ok_iff.mp h
    have hread : ReadFrom s heading.element (.opening tag attrs selfClosing) :=
      ⟨tag, attrs, selfClosing, kind, heading, rfl, hkind, hheading, rfl⟩
    cases h
    split at he
    · rcases mem_elements_addNode.mp he with he | he
      · rcases mem_elements_tree.mp he with rfl | he
        · exact .inr hread
        · cases he
      · exact .inl he
    · rcases List.mem_cons.mp he with rfl | he
      · exact .inr hread
      · exact .inl he
  · cases h
  · split at h
    · cases h
      exact .inl he
    · rename_i o rest hopened
      obtain ⟨b₁, hscript, rfl⟩ := map_eq_ok_iff.mp h
      refine .inl ?_
      rw [mem_elements_addNode, mem_elements_tree, elements, (runScript_keeps hscript).2] at he
      rw [elements, hopened, List.flatMap_cons, List.append_assoc, List.mem_append, List.mem_cons]
      exact he
  · split at h
    · rename_i o rest hopened
      split at h
      · cases h
        refine .inl ?_
        rw [elements, hopened]
        exact he
      · exact .inl (mem_elements_addText h he)
    · exact .inl (mem_elements_addText h he)

theorem mem_elements_foldlM {events : List Markup.Event} (h : events.foldlM (step s) b = .ok b')
    (he : e ∈ b'.elements) : e ∈ b.elements ∨ ∃ event ∈ events, ReadFrom s e event := by
  induction events generalizing b with
  | nil =>
    cases h
    exact .inl he
  | cons event events ih =>
    rw [List.foldlM_cons] at h
    obtain ⟨b₁, hstep, h⟩ := bind_eq_ok_iff.mp h
    rcases ih h with he | ⟨later, hlater, hread⟩
    · exact (mem_elements_step hstep he).imp_right fun hread => ⟨event, List.mem_cons_self, hread⟩
    · exact .inr ⟨later, List.mem_cons_of_mem _ hlater, hread⟩

end Builder

/-- **The elements of a template that is built are read from the start tags of its markup.** -/
theorem readFrom_of_mem_elements {s : Setting} {name markup : String} {t : Template}
    (h : Template.ofMarkup s name markup = .ok t) {e : Element} (he : e ∈ t.elements) :
    ∃ event ∈ (scan markup s.config.scriptTag).events, Builder.ReadFrom s e event := by
  obtain ⟨b, hfold, -, hchildren⟩ := ofMarkup_cases h
  have hb : e ∈ b.elements := by
    rw [Template.elements, hchildren, mem_elementsAll] at he
    simp only [List.mem_reverse] at he
    exact List.mem_append_right _ (mem_elementsAll.mpr he)
  exact (Builder.mem_elements_foldlM hfold hb).resolve_left List.not_mem_nil

/-- **All names in a template that is built are spelled with the characters of names.** -/
theorem spelled_of_mem_elements {s : Setting} {name markup : String} {t : Template}
    (h : Template.ofMarkup s name markup = .ok t) {e : Element} (he : e ∈ t.elements) :
    e.Spelled := by
  obtain ⟨event, hmem, tag, attrs, selfClosing, kind, heading, rfl, -, hread, rfl⟩ :=
    readFrom_of_mem_elements h he
  obtain ⟨htag, hattrs⟩ := spelled_scan hmem
  exact spelled_read hread htag hattrs

end Trellis
