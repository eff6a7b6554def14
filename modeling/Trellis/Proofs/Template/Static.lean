import Trellis.Proofs.Component.Fresh
import Trellis.Proofs.Markup.Written
import Trellis.Proofs.Text.Collapse
import Trellis.Template.Registry

/-!
# Static pages

Markup of native elements and texts, with no statement, no event and no expression in it, is shown as
it is written (`static_toHtml`): elements and attributes stay, and every text is trimmed, with its runs
of blanks as one space. Each stage hands the forest on:
- `Written.build_events`: the builder makes a tree for each piece from the events of the scanner,
- `Written.meaningAll_nodes`: the trees mean nodes whose pages are those of the pieces,
- the host writes these pages (`Component.Stands.toHtml_eq`).
-/

namespace Trellis

universe u

open Markup

/-! ## 1. Programs without expressions -/

/-- A text without opening marks stays literal. -/
theorem Piece.splitFrom_of_not_opening {cs : List Char} (h : ¬ opening <:+: cs) (n : Nat) :
    splitFrom n cs = literal? cs := by
  cases n with
  | zero => rfl
  | succ n =>
    rw [splitFrom]
    split
    · rfl
    · rename_i before rest hcut
      exact absurd ⟨before, rest, (Text.cut?_eq_some hcut).symm⟩ h

namespace Program

/-- The program of a text without expressions. -/
def verbatim (s : String) : Program := ⟨s, if s.toList.isEmpty then [] else [.text s]⟩

theorem compile_verbatim {s : String} (h : ¬ Piece.opening <:+: s.toList) :
    compile s = .ok (verbatim s) := by
  rw [compile, Piece.split, Piece.splitFrom_of_not_opening h, Piece.literal?, verbatim]
  by_cases hempty : s.toList.isEmpty = true
  · rw [if_pos hempty, if_pos hempty]
    rfl
  · rw [if_neg hempty, if_neg hempty]
    simp [segmentsOf, segment, Except.map]

theorem value_verbatim (s : String) (m : Machine) (layers : Layers) (place : Place) :
    (verbatim s).value m layers place = .string s := by
  rw [verbatim]
  by_cases hempty : s.toList.isEmpty = true
  · obtain rfl : s = "" := by simpa using hempty
    rfl
  · rw [if_neg hempty]
    rfl

end Program

/-! ## 2. Names of events -/

/-- A name that binds an event: `bind` or `catch`, maybe behind `capture-`, maybe a colon, and the
    event. -/
def NamesEvent (name : String) : Prop :=
  ∃ phase ∈ ["", "capture-"], ∃ word ∈ ["bind", "catch"], ∃ colon ∈ ["", ":"], ∃ event : List Char,
    event ≠ [] ∧ (colon = "" → event.head? ≠ some ':') ∧
      name.toList = phase.toList ++ word.toList ++ colon.toList ++ event

/-- A part of a name: the word at the front, if it stands there. -/
theorem wordTail?_getD (word : String) (cs : List Char) :
    ∃ w ∈ ["", word], cs = w.toList ++ (wordTail? word cs).getD cs ∧
      (w = "" → word ≠ "" → ¬ word.toList <+: cs) := by
  cases h : wordTail? word cs with
  | some rest =>
    refine ⟨word, by simp, Text.after?_eq_some h, fun he hne => absurd he hne⟩
  | none =>
    refine ⟨"", by simp, rfl, ?_⟩
    rintro - - ⟨rest, rfl⟩
    rw [wordTail?, Text.after?_append_self] at h
    cases h

/-- What is read as one of the two words begins with it. -/
theorem word_of_read {cs rest : List Char} {catches : Bool}
    (h : (match wordTail? "bind" cs with
      | some rest => some (false, rest)
      | none => (wordTail? "catch" cs).map fun rest => (true, rest)) = some (catches, rest)) :
    ∃ word ∈ ["bind", "catch"], cs = word.toList ++ rest := by
  split at h
  · rename_i hbind
    cases h
    exact ⟨"bind", by simp, Text.after?_eq_some hbind⟩
  · obtain ⟨_, hcatch, heq⟩ := Option.map_eq_some_iff.mp h
    cases heq
    exact ⟨"catch", by simp, Text.after?_eq_some hcatch⟩

/-- The parts of a name that is read as a binding; the last one is the event. -/
theorem parts_of_read {name : String} {handler : Option String} {b : Binding}
    (h : Binding.read? name handler = some b) :
    ∃ phase ∈ ["", "capture-"], ∃ word ∈ ["bind", "catch"], ∃ colon ∈ ["", ":"],
      b.name.toList ≠ [] ∧ (colon = "" → b.name.toList.head? ≠ some ':') ∧
        name.toList = phase.toList ++ word.toList ++ colon.toList ++ b.name.toList := by
  obtain ⟨⟨catches, rest⟩, hword, hevent⟩ := Option.bind_eq_some_iff.mp h
  obtain ⟨phase, hphase, hname, -⟩ := wordTail?_getD "capture-" name.toList
  obtain ⟨colon, hcolon, hrest, hstop⟩ := wordTail?_getD ":" rest
  have hbehind : ∃ word ∈ ["bind", "catch"],
      (wordTail? "capture-" name.toList).getD name.toList = word.toList ++ rest := by
    cases hcapture : wordTail? "capture-" name.toList <;> simp only [hcapture] at hword ⊢ <;>
      exact word_of_read hword
  obtain ⟨word, hmem, hbehind⟩ := hbehind
  have hb : b.name.toList = (wordTail? ":" rest).getD rest ∧ b.name.toList ≠ [] := by
    dsimp only at hevent
    generalize (wordTail? ":" rest).getD rest = event at hevent
    cases event with
    | nil => cases hevent
    | cons c event =>
      cases hevent
      rw [String.toList_ofList]
      exact ⟨rfl, List.cons_ne_nil c event⟩
  refine ⟨phase, hphase, word, hmem, colon, hcolon, hb.2, ?_, ?_⟩
  · rintro rfl he
    obtain ⟨event, he⟩ := List.head?_eq_some_iff.mp he
    exact hstop rfl (by decide) ⟨event, by rw [hrest, ← hb.1, he]; rfl⟩
  · rw [hb.1, List.append_assoc, ← hrest, List.append_assoc, ← hbehind, ← hname]

/-- **The names that bind an event are those that are read as a binding.** -/
theorem namesEvent_iff {name : String} (handler : Option String) :
    NamesEvent name ↔ (Binding.read? name handler).isSome = true := by
  constructor
  · rintro ⟨phase, hphase, word, hword, colon, hcolon, event, hne, hevent, heq⟩
    obtain ⟨c, event, rfl⟩ := List.exists_cons_of_ne_nil hne
    have hc : colon = "" → ':' ≠ c := fun e hc => hevent e (by rw [hc]; rfl)
    simp only [List.mem_cons, List.not_mem_nil, or_false] at hphase hword hcolon
    rcases hphase with rfl | rfl <;> rcases hword with rfl | rfl <;> rcases hcolon with rfl | rfl <;>
      simp [Binding.read?, wordTail?, heq, Text.after?, hc]
  · intro h
    obtain ⟨b, hb⟩ := Option.isSome_iff_exists.mp h
    obtain ⟨phase, hphase, word, hword, colon, hcolon, hparts⟩ := parts_of_read hb
    exact ⟨phase, hphase, word, hword, colon, hcolon, b.name.toList, hparts⟩

instance (name : String) : Decidable (NamesEvent name) :=
  decidable_of_iff _ (namesEvent_iff none).symm

/-! ## 3. Static markup -/

/-- A tag that is shown as a plain element and nothing else. -/
def IsPlainTag (tag : String) : Prop :=
  tag ∈ htmlTags ∧ tag ∉ ["slot", "template", "block", "import", "include", "wxs"]

/-- An attribute that is no statement and binds no event, with a value that has neither double quotes
    nor backslashes nor expressions. -/
structure Markup.RawAttr.IsStatic (a : RawAttr) : Prop where
  ne_nil : a.name.toList ≠ []
  chars : ∀ c ∈ a.name.toList, isAttrChar c = true
  no_statement : ¬ "wx:".toList <+: a.name.toList
  no_event : ¬ NamesEvent a.name
  no_quote : ∀ v ∈ a.value, ∀ c ∈ v.toList, c ≠ '"' ∧ c ≠ '\\'
  no_expression : ∀ v ∈ a.value, ¬ Piece.opening <:+: v.toList

instance (a : RawAttr) : Decidable a.IsStatic :=
  decidable_of_iff (a.name.toList ≠ [] ∧ (∀ c ∈ a.name.toList, isAttrChar c = true) ∧
      ¬ "wx:".toList <+: a.name.toList ∧ ¬ NamesEvent a.name ∧
      (∀ v ∈ a.value, ∀ c ∈ v.toList, c ≠ '"' ∧ c ≠ '\\') ∧
      ∀ v ∈ a.value, ¬ Piece.opening <:+: v.toList)
    ⟨fun ⟨h₁, h₂, h₃, h₄, h₅, h₆⟩ => ⟨h₁, h₂, h₃, h₄, h₅, h₆⟩,
      fun ⟨h₁, h₂, h₃, h₄, h₅, h₆⟩ => ⟨h₁, h₂, h₃, h₄, h₅, h₆⟩⟩

/-- Attributes of distinct names that may stand in a static element. -/
def StaticAttrs (attrs : List RawAttr) : Prop :=
  (∀ a ∈ attrs, a.IsStatic) ∧ (attrs.map RawAttr.name).Nodup

instance (tag : String) : Decidable (IsPlainTag tag) := inferInstanceAs (Decidable (_ ∧ _))

instance (attrs : List RawAttr) : Decidable (StaticAttrs attrs) :=
  inferInstanceAs (Decidable (_ ∧ _))

namespace Markup.Written

mutual

/-- A piece of a static page: an element with a plain tag and static attributes, or a text without
    expressions. Comments may stand anywhere. -/
def IsStatic : Written → Prop
  | .text cs => (∀ c ∈ cs, c ≠ '<') ∧ ¬ Piece.opening <:+: cs
  | .comment cs => ¬ ['-', '-', '>'] <:+: ['<', '!', '-', '-'] ++ cs
  | .single tag attrs => IsPlainTag tag ∧ StaticAttrs attrs
  | .element tag attrs children => IsPlainTag tag ∧ StaticAttrs attrs ∧ AreStatic children
  | .raw .. => False

/-- Pieces of a static page one behind the other: no text stands next to another one. -/
def AreStatic : List Written → Prop
  | [] => True
  | t :: rest => IsStatic t ∧ (t.isText → ∀ u ∈ rest.head?, u.isText = false) ∧ AreStatic rest

end

mutual

instance decidableStatic : (t : Written) → Decidable t.IsStatic
  | .text cs => inferInstanceAs (Decidable ((∀ c ∈ cs, c ≠ '<') ∧ ¬ Piece.opening <:+: cs))
  | .comment cs => inferInstanceAs (Decidable (¬ ['-', '-', '>'] <:+: ['<', '!', '-', '-'] ++ cs))
  | .single tag attrs => inferInstanceAs (Decidable (IsPlainTag tag ∧ StaticAttrs attrs))
  | .element tag attrs children =>
    have := decidableAllStatic children
    inferInstanceAs (Decidable (IsPlainTag tag ∧ StaticAttrs attrs ∧ AreStatic children))
  | .raw .. => inferInstanceAs (Decidable False)

instance decidableAllStatic : (ts : List Written) → Decidable (AreStatic ts)
  | [] => inferInstanceAs (Decidable True)
  | t :: rest =>
    have := decidableStatic t
    have := decidableAllStatic rest
    inferInstanceAs (Decidable (t.IsStatic ∧ (t.isText → ∀ u ∈ rest.head?, u.isText = false) ∧
      AreStatic rest))

end

/-- An attribute as a page shows it. -/
def shownAttr (a : RawAttr) : String × Option String := (a.name, a.value)

mutual

/-- What a piece of a static page looks like: a text is trimmed and has its runs of blanks as one
    space, if anything is left of it. -/
def page : Written → List Html
  | .text cs => if Text.squeezed cs = [] then [] else [.text (String.ofList (Text.squeezed cs))]
  | .single tag attrs => [.element tag (attrs.map shownAttr) []]
  | .element tag attrs children => [.element tag (attrs.map shownAttr) (pages children)]
  | .comment _ | .raw .. => []

/-- What pieces of a static page look like. -/
def pages : List Written → List Html
  | [] => []
  | t :: rest => page t ++ pages rest

end

end Markup.Written

/-! ## 4. Scanning -/

theorem isTag_of_mem {tag : String} (h : tag ∈ htmlTags) : IsTag tag := by
  have hall : ∀ tag ∈ htmlTags, IsTag tag := by decide +kernel
  exact hall tag h

theorem quotable_of_static {v : List Char} (h : ∀ c ∈ v, c ≠ '"' ∧ c ≠ '\\') :
    quotable v = true := by
  induction v with
  | nil => rfl
  | cons c v ih =>
    obtain ⟨hc, hv⟩ := List.forall_mem_cons.mp h
    rw [quotable.eq_def]
    simp [hc.1, hc.2, ih hv]

theorem Markup.RawAttr.IsStatic.fits {a : RawAttr} (h : a.IsStatic) : a.Fits :=
  ⟨h.ne_nil, h.chars, fun v hv => quotable_of_static (h.no_quote v hv)⟩

namespace Markup.Written

mutual

/-- A static piece can be written where `wxs` is the raw element. -/
theorem fits_of_static : ∀ {t : Written}, t.IsStatic → t.Fits "wxs"
  | .text _, h => h.1
  | .comment _, h => h
  | .single _ _, h => ⟨isTag_of_mem h.1.1, fun a ha => (h.2.1 a ha).fits⟩
  | .element _ _ _, h =>
    ⟨⟨isTag_of_mem h.1.1, fun e => h.1.2 (by simp [e]), fun a ha => (h.2.1.1 a ha).fits⟩,
      fitsAll_of_static h.2.2⟩
  | .raw .., h => h.elim

theorem fitsAll_of_static : ∀ {ts : List Written}, AreStatic ts → FitsAll "wxs" ts
  | [], _ => trivial
  | _ :: _, h => ⟨fits_of_static h.1, h.2.1, fitsAll_of_static h.2.2⟩

end

end Markup.Written

/-! ## 5. Building -/

/-- The program of a static attribute. -/
def Markup.RawAttr.program (a : RawAttr) : Program :=
  match a.value with
  | none => .constantTrue
  | some v => .verbatim v

/-- A static element. -/
def staticElement (tag : String) (attrs : List RawAttr) : Element :=
  { Element.bare .native tag with attrs := attrs.map fun a => (a.name, a.program) }

namespace Markup.Written

mutual

/-- The trees of a static piece. -/
def nodes : Written → List Node
  | .text cs =>
    if Text.squeezed cs = [] then [] else [.text (.verbatim (String.ofList (Text.squeezed cs)))]
  | .single tag attrs => [.element (staticElement tag attrs) []]
  | .element tag attrs children => [.element (staticElement tag attrs) (nodesAll children)]
  | .comment _ | .raw .. => []

/-- The trees of static pieces one behind the other. -/
def nodesAll : List Written → List Node
  | [] => []
  | t :: rest => nodes t ++ nodesAll rest

end

end Markup.Written

theorem kindOf_plain {s : Setting} (hs : s.config = .standard) {tag : String} (h : IsPlainTag tag) :
    s.kindOf tag = .ok .native := by
  obtain ⟨hmem, hno⟩ := h
  simp only [List.mem_cons, List.not_mem_nil, or_false, not_or] at hno
  unfold Setting.kindOf
  split
  · exact absurd rfl hno.1
  · exact absurd rfl hno.2.1
  · exact absurd rfl hno.2.2.1
  · exact absurd rfl hno.2.2.2.1
  · exact absurd rfl hno.2.2.2.2.1
  · rw [hs, if_neg (show tag ≠ Config.standard.scriptTag from hno.2.2.2.2.2), if_pos]
    exact List.contains_iff_mem.mpr hmem

theorem attrProgram_static {a : RawAttr} (h : a.IsStatic) : attrProgram a.value = .ok a.program := by
  have hv := h.no_expression
  rw [Markup.RawAttr.program]
  cases hvalue : a.value with
  | none => rfl
  | some v => exact Program.compile_verbatim (hv v (by simp [hvalue]))

/-- An attribute that is no statement and binds no event is taken over as an ordinary one. -/
theorem add_ordinary {a : RawAttr} (hword : ¬ "wx:".toList <+: a.name.toList)
    (hevent : ¬ NamesEvent a.name) {g : Heading} (hg : g.element.kind = .native) :
    Heading.add .standard g a = g.addAttr a.name a.value := by
  have hstatement : Config.standard.statement? a.name = none := by
    cases hstatement : Config.standard.statement? a.name with
    | none => rfl
    | some word =>
      obtain ⟨rest, hrest, -⟩ := Option.map_eq_some_iff.mp hstatement
      exact absurd ⟨rest, (Text.after?_eq_some hrest).symm⟩ hword
  have hbinding : Binding.read? a.name a.value = none := by
    cases hbinding : Binding.read? a.name a.value with
    | none => rfl
    | some b => exact absurd ((namesEvent_iff a.value).mpr (by simp [hbinding])) hevent
  rw [Heading.add, if_neg (by simp [hg]), hstatement]
  dsimp only
  rw [hbinding]

/-- A static attribute is taken over with its text. -/
theorem add_static {a : RawAttr} (h : a.IsStatic) {g : Heading} (hg : g.element.kind = .native) :
    Heading.add .standard g a =
      .ok { g with element := { g.element with attrs := g.element.attrs ++ [(a.name, a.program)] } } := by
  rw [add_ordinary h.no_statement h.no_event hg, Heading.addAttr, attrProgram_static h]
  rfl

theorem read_static {attrs : List RawAttr} (h : ∀ a ∈ attrs, a.IsStatic) (tag : String) :
    Heading.read .standard .native tag attrs = .ok ⟨staticElement tag attrs, .none⟩ := by
  have hfold (before : List RawAttr) : attrs.foldlM (Heading.add .standard)
      ⟨staticElement tag before, .none⟩ = .ok ⟨staticElement tag (before ++ attrs), .none⟩ := by
    induction attrs generalizing before with
    | nil => rw [List.append_nil]; rfl
    | cons a attrs ih =>
      obtain ⟨ha, hattrs⟩ := List.forall_mem_cons.mp h
      have hadd := add_static ha (g := ⟨staticElement tag before, .none⟩) rfl
      have hnext := ih hattrs (before ++ [a])
      rw [List.append_assoc, List.singleton_append] at hnext
      rw [List.foldlM_cons, hadd, ← hnext]
      simp [staticElement, bind, Except.bind]
  exact hfold []

namespace Builder

/-- Puts trees behind the others, one after the other. -/
def addNodes (b : Builder) (ns : List Node) : Builder := ns.foldl addNode b

/-- The innermost open element is no script. -/
def Outside (b : Builder) : Prop := ∀ o ∈ b.opened.head?, o.heading.element.kind ≠ .script

theorem Outside.addNode {b : Builder} (h : b.Outside) (n : Node) : (b.addNode n).Outside := by
  unfold Builder.addNode
  cases hopened : b.opened with
  | nil => simp [Outside]
  | cons o rest =>
    have := h o (by simp [hopened])
    simpa [Outside] using this

theorem Outside.addNodes {b : Builder} (h : b.Outside) (ns : List Node) : (b.addNodes ns).Outside := by
  induction ns generalizing b with
  | nil => exact h
  | cons n ns ih => exact ih (h.addNode n)

/-- Trees come into the innermost open element. -/
theorem addNodes_opened (b : Builder) (o : Opened) (rest : List Opened) (ns : List Node) :
    ({ b with opened := o :: rest } : Builder).addNodes ns =
      { b with opened := { o with children := ns.reverse ++ o.children } :: rest } := by
  induction ns generalizing o with
  | nil => rfl
  | cons n ns ih =>
    have := ih { o with children := n :: o.children }
    rw [List.reverse_cons, List.append_assoc]
    exact this

variable {s : Setting}

theorem step_opening (hs : s.config = .standard) {tag : String} {attrs : List RawAttr}
    (ht : IsPlainTag tag) (hattrs : ∀ a ∈ attrs, a.IsStatic) (b : Builder) (selfClosing : Bool) :
    b.step s (.opening tag attrs selfClosing) = .ok
      (if selfClosing then b.addNode (.element (staticElement tag attrs) [])
        else { b with opened := ⟨⟨staticElement tag attrs, .none⟩, [], ""⟩ :: b.opened }) := by
  rw [step, kindOf_plain hs ht, hs]
  dsimp only [bind, Except.bind]
  rw [read_static hattrs]
  rfl

theorem step_closing (b : Builder) (tag : String) (attrs : List RawAttr) (ns : List Node)
    (rest : List Opened) :
    ({ b with opened := ⟨⟨staticElement tag attrs, .none⟩, ns.reverse, ""⟩ :: rest } : Builder).step s
        (.closing tag .explicit) =
      .ok ({ b with opened := rest }.addNode (.element (staticElement tag attrs) ns)) := by
  have htree : Opened.tree ⟨⟨staticElement tag attrs, .none⟩, ns.reverse, ""⟩ =
      .element (staticElement tag attrs) ns := by
    rw [Opened.tree, List.reverse_reverse]
    rfl
  rw [← htree]
  rfl

/-- Outside of scripts a text is taken over as one. -/
theorem step_text_outside {b : Builder} (hb : b.Outside) (content : String) :
    b.step s (.text content) = b.addText s content := by
  rw [step]
  cases hopened : b.opened with
  | nil => rfl
  | cons o rest => exact if_neg (hb o (by rw [hopened]; rfl))

/-- A text comes as it is shown, unless nothing of it is. -/
theorem step_text (hs : s.config = .standard) {b : Builder} (hb : b.Outside) {cs : List Char}
    (hcs : ¬ Piece.opening <:+: cs) :
    (textEvent cs).foldlM (step s) b = .ok (b.addNodes (Written.text cs).nodes) := by
  have hadd : b.addText s (String.ofList cs) = .ok (b.addNodes (Written.text cs).nodes) := by
    have hnormal : s.normalize (String.ofList cs) = String.ofList (Text.squeezed cs) := by
      rw [Setting.normalize, hs, if_pos (show Config.standard.collapses = true from rfl), Text.collapse_eq, String.toList_ofList]
    have hsqueezed : ¬ Piece.opening <:+: (String.ofList (Text.squeezed cs)).toList := by
      rw [String.toList_ofList]
      exact fun h => hcs (Text.pair_of_squeezed rfl rfl h)
    rw [addText, hnormal, Written.nodes]
    by_cases hnil : Text.squeezed cs = []
    · rw [if_pos hnil, if_pos (by simp [hnil])]
      rfl
    · rw [if_neg hnil, if_neg (by simpa using hnil), Program.compile_verbatim hsqueezed]
      rfl
  cases cs with
  | nil => rfl
  | cons c cs =>
    rw [textEvent, if_neg (by simp), List.foldlM_cons, step_text_outside hb, hadd]
    rfl

end Builder

namespace Markup.Written

variable {s : Setting}

mutual

/-- **The builder makes the trees of a static piece from its events**, whatever is open around it. -/
theorem build_events (hs : s.config = .standard) : ∀ (t : Written) {b : Builder}, t.IsStatic →
    b.Outside → t.events.foldlM (Builder.step s) b = .ok (b.addNodes t.nodes)
  | .text cs, b, ht, hb => Builder.step_text hs hb ht.2
  | .comment cs, b, _, _ => rfl
  | .single tag attrs, b, ht, _ => by
    rw [events, List.foldlM_cons, Builder.step_opening hs ht.1 ht.2.1]
    rfl
  | .element tag attrs children, b, ⟨htag, hattrs, hchildren⟩, hb => by
    have hinner := build_eventsAll hs children
      (b := { b with opened := ⟨⟨staticElement tag attrs, .none⟩, [], ""⟩ :: b.opened }) hchildren
      (by simp [Builder.Outside, staticElement, Element.bare])
    rw [Builder.addNodes_opened, List.append_nil] at hinner
    rw [events, List.foldlM_cons, Builder.step_opening hs htag hattrs.1]
    dsimp only [bind, Except.bind]
    rw [if_neg Bool.false_ne_true, List.foldlM_append, hinner]
    dsimp only [bind, Except.bind]
    rw [List.foldlM_cons, Builder.step_closing]
    rfl
  | .raw .., _, ht, _ => ht.elim

theorem build_eventsAll (hs : s.config = .standard) : ∀ (ts : List Written) {b : Builder},
    AreStatic ts → b.Outside →
    (eventsAll ts).foldlM (Builder.step s) b = .ok (b.addNodes (nodesAll ts))
  | [], b, _, _ => rfl
  | t :: ts, b, ⟨ht, _, hts⟩, hb => by
    rw [eventsAll, List.foldlM_append, build_events hs t ht hb]
    dsimp only [bind, Except.bind]
    rw [build_eventsAll hs ts hts (hb.addNodes _), nodesAll, Builder.addNodes, Builder.addNodes,
      Builder.addNodes, List.foldl_append]

end

end Markup.Written

theorem addNodes_start (ns : List Node) :
    Builder.start.addNodes ns = { Builder.start with top := ns.reverse } := by
  have hfold (top : List Node) : ({ Builder.start with top } : Builder).addNodes ns =
      { Builder.start with top := ns.reverse ++ top } := by
    induction ns generalizing top with
    | nil => rfl
    | cons n ns ih =>
      rw [List.reverse_cons, List.append_assoc]
      exact ih (n :: top)
  rw [← List.append_nil ns.reverse]
  exact hfold []

/-- **Static markup compiles**, to the trees of its pieces. -/
theorem ofMarkup_static {s : Setting} (hs : s.config = .standard) {ts : List Written}
    (hts : Written.AreStatic ts) (name : String) :
    Template.ofMarkup s name (String.ofList (Written.writeAll ts)) =
      .ok { name, children := Written.nodesAll ts, exports := [], globals := [] } := by
  have hlower : Text.lower "wxs" = "wxs" := by decide
  have hscan := (reads_writeAll (Written.fitsAll_of_static hts)).scan hlower
  have hbuild := Written.build_eventsAll hs ts hts
    (b := Builder.start) (by simp [Builder.Outside, Builder.start])
  rw [addNodes_start] at hbuild
  have hraw : s.config.scriptTag = "wxs" := by rw [hs]; rfl
  rw [Template.ofMarkup, hraw, hscan]
  dsimp only
  rw [hbuild]
  simp [bind, Except.bind, Scan.failure, Builder.start, pure, Except.pure]

/-! ## 6. Showing -/

open VNode

theorem meaningAll_append (m : Machine) (layers : Layers) (place : Place) (i : Nat) (before : Chain)
    (ns ms : List Node) :
    meaningAll m layers place i before (ns ++ ms) = meaningAll m layers place i before ns ++
      meaningAll m layers place (i + ns.length) (ns.foldl Chain.next before) ms := by
  induction ns generalizing i before with
  | nil => rfl
  | cons n ns ih =>
    rw [List.cons_append, meaningAll, meaningAll, ih, List.append_assoc, List.length_cons,
      List.foldl_cons, Nat.add_assoc, Nat.add_comm 1]

theorem pageAll_append (vs ws : List VNode) : pageAll (vs ++ ws) = pageAll vs ++ pageAll ws := by
  induction vs with
  | nil => rfl
  | cons v vs ih => rw [List.cons_append, pageAll, pageAll, ih, List.cons_append]

/-- A static attribute is shown as it is written. -/
theorem shown_static (m : Machine) (layers : Layers) (place : Place) (i : Nat)
    (attrs : List RawAttr) :
    (attrValues m layers place i (attrs.map fun a => (a.name, a.program))).filterMap Attr.shown? =
      attrs.map Written.shownAttr := by
  induction attrs generalizing i with
  | nil => rfl
  | cons a attrs ih =>
    obtain ⟨name, value⟩ := a
    have hshown : Attr.shown? ⟨name, (RawAttr.program ⟨name, value⟩).value m layers (i :: place)⟩ =
        some (name, value) := by
      cases value with
      | none => rfl
      | some v =>
        rw [Markup.RawAttr.program, Program.value_verbatim]
        rfl
    rw [List.map_cons, attrValues, List.filterMap_cons, hshown, ih, List.map_cons]
    rfl

namespace Markup.Written

mutual

/-- **The trees of a static piece show its page**, whatever the data are, and without keys. -/
theorem pageAll_meaning (m : Machine) (layers : Layers) : ∀ (t : Written) (place : Place) (i : Nat)
    (before : Chain), pageAll (meaningAll m layers place i before t.nodes) = t.page ∧
      ∀ v ∈ meaningAll m layers place i before t.nodes, v.key = ""
  | .text cs, place, i, before => by
    rw [nodes, page]
    by_cases hnil : Text.squeezed cs = []
    · rw [if_pos hnil, if_pos hnil]
      exact ⟨rfl, nofun⟩
    · rw [if_neg hnil, if_neg hnil, meaningAll, meaningAll, Node.meaning, Program.value_verbatim]
      simp [pageAll, VNode.ofText, VNode.plain, VNode.page, Host.contentOf, Value.toText]
  | .comment cs, _, _, _ => ⟨rfl, nofun⟩
  | .raw .., _, _, _ => ⟨rfl, nofun⟩
  | .single tag attrs, place, i, before => by
    have hattrs := shown_static m layers (0 :: i :: place) 0 attrs
    rw [nodes, page, meaningAll, meaningAll, Node.meaning]
    simp [staticElement, Element.bare, ElementKind.showing, pageAll, VNode.plain, VNode.page,
      Host.contentOf, hattrs, meaningAll, clearRepeats_of_unkeyed]
  | .element tag attrs children, place, i, before => by
    have hattrs := shown_static m layers (0 :: i :: place) 0 attrs
    obtain ⟨hpages, hkeys⟩ := pageAll_meaningAll m layers children (1 :: i :: place) 0 []
    rw [nodes, page, meaningAll, meaningAll, Node.meaning]
    simp [staticElement, Element.bare, ElementKind.showing, pageAll, VNode.plain, VNode.page,
      Host.contentOf, hattrs, clearRepeats_of_unkeyed hkeys, hpages]

theorem pageAll_meaningAll (m : Machine) (layers : Layers) : ∀ (ts : List Written) (place : Place)
    (i : Nat) (before : Chain),
    pageAll (meaningAll m layers place i before (nodesAll ts)) = pages ts ∧
      ∀ v ∈ meaningAll m layers place i before (nodesAll ts), v.key = ""
  | [], _, _, _ => ⟨rfl, nofun⟩
  | t :: ts, place, i, before => by
    obtain ⟨hpage, hkey⟩ := pageAll_meaning m layers t place i before
    obtain ⟨hpages, hkeys⟩ := pageAll_meaningAll m layers ts place (i + t.nodes.length)
      (t.nodes.foldl Chain.next before)
    rw [nodesAll, pages, meaningAll_append, pageAll_append, hpage, hpages]
    exact ⟨rfl, fun v hv => (List.mem_append.mp hv).elim (hkey v) (hkeys v)⟩

end

theorem distinctAll_append (ns ms : List Node) :
    Node.distinctAll (ns ++ ms) = (Node.distinctAll ns && Node.distinctAll ms) := by
  induction ns with
  | nil => rfl
  | cons n ns ih => rw [List.cons_append, Node.distinctAll, Node.distinctAll, ih, Bool.and_assoc]

/-- A static element names each of its attributes once. -/
theorem nodup_staticElement (tag : String) {attrs : List RawAttr} (h : StaticAttrs attrs) :
    ((staticElement tag attrs).attrs.map Prod.fst).Nodup := by
  have hnames : (staticElement tag attrs).attrs.map Prod.fst = attrs.map RawAttr.name := by
    rw [staticElement, List.map_map]
    rfl
  exact hnames ▸ h.2

mutual

theorem distinct_nodes : ∀ (t : Written), t.IsStatic → Node.distinctAll t.nodes = true
  | .text cs, _ => by
    rw [nodes]
    split <;> rfl
  | .comment cs, _ => rfl
  | .raw .., _ => rfl
  | .single tag attrs, ht => by
    have hnames := nodup_staticElement tag ht.2
    simp [nodes, Node.distinctAll, Node.distinct, hnames,
      show (staticElement tag attrs).kind.showing = .node .native none from rfl]
  | .element tag attrs children, ht => by
    have hnames := nodup_staticElement tag ht.2.1
    simp [nodes, Node.distinctAll, Node.distinct, hnames, distinct_nodesAll children ht.2.2,
      show (staticElement tag attrs).kind.showing = .node .native none from rfl]

theorem distinct_nodesAll : ∀ (ts : List Written), AreStatic ts →
    Node.distinctAll (nodesAll ts) = true
  | [], _ => rfl
  | t :: ts, ⟨ht, _, hts⟩ => by
    rw [nodesAll, distinctAll_append, distinct_nodes t ht, distinct_nodesAll ts hts]
    rfl

end

end Markup.Written

/-- **Static markup is shown as itself.** In the standard dialect it compiles, and whatever the data
    are, the page of a component with that template is the forest that was written: every element with
    an end tag, attributes and texts escaped, texts trimmed with their runs of blanks as one space. -/
theorem static_toHtml {α : Type u} {r : Registry} (hr : r.config = .standard) {ts : List Written}
    (hts : Written.AreStatic ts) (data : Dict Value) :
    ∃ (t : Template) (c : Component α), r.compile (String.ofList (Written.writeAll ts)) = .ok t ∧
      Component.fresh t data = .ok c ∧ c.toHtml = Html.printAll (Written.pages ts) := by
  have hcompile := ofMarkup_static (s := ⟨r.config, [], r.contains⟩) hr hts ""
  obtain ⟨c, hfresh, ht, -, hstands, hpage⟩ := Component.freshAt_stands (α := α) 0
    ⟨"", Written.nodesAll ts, [], []⟩ data
  have hdistinct : c.template.distinct = true := by
    rw [ht]
    exact Written.distinct_nodesAll ts hts
  have hpages : pageAll (Template.generate ⟨"", Written.nodesAll ts, [], []⟩ 0 data).children =
      Written.pages ts := by
    obtain ⟨hpages, hkeys⟩ := Written.pageAll_meaningAll ⟨[], 0⟩ ⟨[], data, []⟩ ts (renderPlace 0) 0 []
    rw [Template.generate_eq]
    exact (congrArg pageAll (clearRepeats_of_unkeyed hkeys)).trans hpages
  refine ⟨_, c, hcompile, hfresh, ?_⟩
  rw [hstands.toHtml_eq hdistinct, hpage, hpages]

/-- A division with a break in it, and a text between blanks. -/
def divisionWithText : List Written :=
  [.text ['\n'], .element "div" [⟨"id", some "a&b"⟩, ⟨"hidden", none⟩]
    [.single "br" [], .text " 1  > \n 0 ".toList, .element "p" [] []]]

theorem static_toHtml_division :
    ∃ (t : Template) (c : Component Unit),
      (Registry.empty .standard).compile
          "\n<div id=\"a&b\" hidden><br/> 1  > \n 0 <p></p></div>" = .ok t ∧
        Component.fresh t [] = .ok c ∧
        c.toHtml = "<div id=\"a&amp;b\" hidden><br></br>1 &gt; 0<p></p></div>" := by
  have hconfig : (Registry.empty .standard).config = .standard := by decide +kernel
  have hstatic : Written.AreStatic divisionWithText := by decide +kernel
  have hwritten : String.ofList (Written.writeAll divisionWithText) =
      "\n<div id=\"a&b\" hidden><br/> 1  > \n 0 <p></p></div>" := by decide +kernel
  have hpage : Html.printAll (Written.pages divisionWithText) =
      "<div id=\"a&amp;b\" hidden><br></br>1 &gt; 0<p></p></div>" := by decide +kernel
  obtain ⟨t, c, hcompile, hfresh, hhtml⟩ := static_toHtml (α := Unit) hconfig hstatic []
  exact ⟨t, c, hwritten ▸ hcompile, hfresh, hhtml.trans hpage⟩

end Trellis
