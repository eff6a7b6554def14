import Trellis.Proofs.Markup.Nesting
import Trellis.Proofs.Template.Numbering
import Trellis.Proofs.Template.Relocate
import Trellis.Proofs.Text.Collapse

/-!
# The tree that markup describes

A template that is built from markup has the elements and texts that the events of the markup tell
of, nested in the same way, whatever statements stand around them.
- `Node.bare`: a tree of a template without its statements,
- `Nested.described`: the same tree read off the events, without blank texts and scripts,
- `bareAll_ofMarkup`: the two are one.
-/
namespace Trellis

open Markup

/-! ## 1. Trees without statements -/

/-- A tree of elements and texts. -/
inductive Bare where
  | text (content : String)
  | element (tag : String) (children : List Bare)

mutual

/-- The tree inside the branches and loops. -/
def Node.bare : Node → Bare
  | .text p => .text p.source
  | .element e children => .element e.tag (Node.bareAll children)
  | .branch _ body => body.bare
  | .loop _ body => body.bare

/-- The trees inside the branches and loops. -/
def Node.bareAll : List Node → List Bare
  | [] => []
  | n :: rest => n.bare :: Node.bareAll rest

end

/-- Whether the elements with a tag hold scripts. -/
def Setting.isScript (s : Setting) (tag : String) : Bool :=
  match s.kindOf tag with
  | .ok kind => kind = .script
  | .error _ => false

mutual

/-- What a tree of events describes. The text of a script is no text of the tree, nor is a text of
    nothing but blanks. -/
def Markup.Nested.described (s : Setting) (inScript : Bool) : Nested → List Bare
  | .text content =>
    if inScript || content.toList.all Text.isBlank then [] else [.text (s.normalize content)]
  | .single tag _ => [.element tag []]
  | .element tag _ children _ => [.element tag (Nested.describedAll s (s.isScript tag) children)]

/-- What trees of events describe. -/
def Markup.Nested.describedAll (s : Setting) (inScript : Bool) : List Nested → List Bare
  | [] => []
  | t :: ts => t.described s inScript ++ Nested.describedAll s inScript ts

end

theorem bareAll_append (ns ms : List Node) :
    Node.bareAll (ns ++ ms) = Node.bareAll ns ++ Node.bareAll ms := by
  induction ns with
  | nil => rfl
  | cons n ns ih => rw [List.cons_append, Node.bareAll, ih, Node.bareAll, List.cons_append]

/-- Statements do not show in the tree. -/
theorem bare_wrap (st : Statements) (n : Node) : (st.wrap n).bare = n.bare := by
  have hlooped (n : Node) : (st.looped n).bare = n.bare := by
    unfold Statements.looped
    split <;> rfl
  unfold Statements.wrap
  split
  · exact hlooped n
  · split
    · exact hlooped _
    · exact hlooped n

/-! ## 2. Texts and headings -/

/-- **A text is dropped just when it is blank.** -/
theorem isEmpty_normalize (s : Setting) (content : String) :
    (s.normalize content).isEmpty = content.toList.all Text.isBlank := by
  rw [Bool.eq_iff_iff, List.all_eq_true, Setting.normalize]
  split
  · rw [Text.collapse_eq, ← Text.squeezed_eq_nil_iff]
    simp
  · rw [Text.trim, ← Text.trimChars_eq_nil_iff]
    simp

theorem source_of_compile {text : String} {p : Program} (h : Program.compile text = .ok p) :
    p.source = text := by
  obtain ⟨segments, _, rfl⟩ := map_eq_ok_iff.mp h
  rfl

theorem addAttr_keeps {h h' : Heading} {name : String} {value : Option String}
    (hadd : h.addAttr name value = .ok h') :
    h'.element.kind = h.element.kind ∧ h'.element.tag = h.element.tag := by
  obtain ⟨p, _, hp⟩ := bind_eq_ok_iff.mp hadd
  cases hp
  exact ⟨rfl, rfl⟩

/-- A statement does not change the element, and what is not known as one is an ordinary attribute. -/
theorem element_addStatement {h h' : Heading} {word name : String} {value : Option String}
    (hadd : h.addStatement word name value = .ok h') :
    h'.element = h.element ∨ h.addAttr name value = .ok h' := by
  unfold Heading.addStatement at hadd
  dsimp only at hadd
  split at hadd
  case h_3 | h_6 | h_7 =>
    cases hadd
    exact .inl rfl
  case h_1 | h_2 | h_4 | h_5 =>
    obtain ⟨p, -, hp⟩ := bind_eq_ok_iff.mp hadd
    cases hp
    exact .inl rfl
  case h_8 | h_9 =>
    split at hadd
    · cases hadd
      exact .inl rfl
    · obtain ⟨key, -, hkey⟩ := bind_eq_ok_iff.mp hadd
      cases hkey
      exact .inl rfl
  case h_10 => exact .inr hadd

theorem addStatement_keeps {h h' : Heading} {word name : String} {value : Option String}
    (hadd : h.addStatement word name value = .ok h') :
    h'.element.kind = h.element.kind ∧ h'.element.tag = h.element.tag := by
  rcases element_addStatement hadd with heq | hadd
  · rw [heq]
    exact ⟨rfl, rfl⟩
  · exact addAttr_keeps hadd

/-- An attribute changes neither the tag nor what the element is for. -/
theorem add_keeps {c : Config} {h h' : Heading} {a : RawAttr} (hadd : h.add c a = .ok h') :
    h'.element.kind = h.element.kind ∧ h'.element.tag = h.element.tag := by
  unfold Heading.add at hadd
  split at hadd
  · cases hadd
    exact ⟨rfl, rfl⟩
  · split at hadd
    · exact addStatement_keeps hadd
    · split at hadd
      · cases hadd
        exact ⟨rfl, rfl⟩
      · exact addAttr_keeps hadd

theorem read_keeps {c : Config} {kind : ElementKind} {tag : String} {attrs : List RawAttr}
    {h : Heading} (hread : Heading.read c kind tag attrs = .ok h) :
    h.element.kind = kind ∧ h.element.tag = tag := by
  have hfold : ∀ (attrs : List RawAttr) {g h : Heading}, attrs.foldlM (Heading.add c) g = .ok h →
      h.element.kind = g.element.kind ∧ h.element.tag = g.element.tag := by
    intro attrs
    induction attrs with
    | nil =>
      intro g h hread
      cases hread
      exact ⟨rfl, rfl⟩
    | cons a attrs ih =>
      intro g h hread
      rw [List.foldlM_cons] at hread
      obtain ⟨g₁, hadd, hread⟩ := bind_eq_ok_iff.mp hread
      obtain ⟨hkind, htag⟩ := add_keeps hadd
      obtain ⟨hkind', htag'⟩ := ih hread
      exact ⟨hkind'.trans hkind, htag'.trans htag⟩
  exact hfold attrs hread

/-! ## 3. What events bring -/

namespace Builder

/-- Whether the innermost open element is a script. -/
def inScript (b : Builder) : Bool :=
  match b.opened with
  | o :: _ => o.heading.element.kind = .script
  | [] => false

/-- From one state to the other trees came behind those of the innermost open element, or of the
    template when nothing is open; the elements around it are as they were. -/
def Gains (b b' : Builder) (ns : List Node) : Prop :=
  match b.opened with
  | [] => b'.opened = [] ∧ b'.top = ns.reverse ++ b.top
  | o :: rest => b'.top = b.top ∧
      ∃ script, b'.opened = ⟨o.heading, ns.reverse ++ o.children, script⟩ :: rest

variable {s : Setting} {b b' b'' : Builder} {ns ms : List Node}

theorem gains_nil (hopened : b'.opened = b.opened) (htop : b'.top = b.top) : b.Gains b' [] := by
  unfold Gains
  split
  · rename_i h
    exact ⟨hopened.trans h, htop⟩
  · rename_i o rest h
    exact ⟨htop, o.script, hopened.trans h⟩

theorem Gains.trans (h : b.Gains b' ns) (h' : b'.Gains b'' ms) : b.Gains b'' (ns ++ ms) := by
  unfold Gains at h ⊢
  split at h
  · obtain ⟨hopened, htop⟩ := h
    unfold Gains at h'
    rw [hopened] at h'
    obtain ⟨hopened', htop'⟩ := h'
    refine ⟨hopened', ?_⟩
    rw [htop', htop, List.reverse_append, List.append_assoc]
  · obtain ⟨htop, script, hopened⟩ := h
    unfold Gains at h'
    rw [hopened] at h'
    obtain ⟨htop', script', hopened'⟩ := h'
    refine ⟨htop'.trans htop, script', ?_⟩
    rw [hopened', List.reverse_append, List.append_assoc]

theorem gains_addNode (b : Builder) (n : Node) : b.Gains (b.addNode n) [n] := by
  unfold Gains addNode
  cases b.opened with
  | nil => exact ⟨rfl, rfl⟩
  | cons o rest => exact ⟨rfl, o.script, rfl⟩

theorem Gains.inScript_eq (h : b.Gains b' ns) : b'.inScript = b.inScript := by
  unfold Gains at h
  unfold inScript
  split at h
  · rename_i hopened
    rw [h.1, hopened]
  · rename_i o rest hopened
    obtain ⟨_, script, hopened'⟩ := h
    rw [hopened', hopened]

theorem gains_addText {content : String} (h : b.addText s content = .ok b') :
    ∃ ns, b.Gains b' ns ∧
      Node.bareAll ns =
        if content.toList.all Text.isBlank then [] else [.text (s.normalize content)] := by
  unfold addText at h
  dsimp only at h
  rw [isEmpty_normalize] at h
  by_cases hblank : content.toList.all Text.isBlank
  · rw [if_pos hblank] at h
    cases h
    exact ⟨[], gains_nil rfl rfl, (if_pos hblank).symm⟩
  · rw [if_neg hblank] at h
    obtain ⟨p, hp, rfl⟩ := map_eq_ok_iff.mp h
    refine ⟨[.text p], gains_addNode b _, ?_⟩
    rw [if_neg hblank, Node.bareAll, Node.bare, source_of_compile hp]
    rfl

/-- The text of a script goes to the script, any other one into the tree. -/
theorem gains_text {content : String} (h : b.step s (.text content) = .ok b') :
    ∃ ns, b.Gains b' ns ∧ Node.bareAll ns = (Nested.text content).described s b.inScript := by
  unfold step at h
  dsimp only at h
  cases hopened : b.opened with
  | nil =>
    rw [hopened] at h
    rw [inScript, hopened]
    exact gains_addText h
  | cons o rest =>
    rw [hopened] at h
    rw [inScript, hopened]
    dsimp only at h ⊢
    by_cases hscript : o.heading.element.kind = .script
    · rw [if_pos hscript] at h
      cases h
      refine ⟨[], ?_, ?_⟩
      · rw [Gains, hopened]
        exact ⟨rfl, _, rfl⟩
      · rw [Nested.described, decide_eq_true hscript]
        rfl
    · rw [if_neg hscript] at h
      rw [Nested.described, decide_eq_false hscript]
      exact gains_addText h

/-- A script that runs leaves the trees alone. -/
theorem runScript_keeps {o : Opened} (h : b.runScript o = .ok b') :
    b'.opened = b.opened ∧ b'.top = b.top := by
  unfold runScript at h
  split at h
  · obtain ⟨run, _, rfl⟩ := map_eq_ok_iff.mp h
    exact ⟨rfl, rfl⟩
  · cases h
    exact ⟨rfl, rfl⟩

theorem bare_tree (o : Opened) :
    o.tree.bare = .element o.heading.element.tag (Node.bareAll o.children.reverse) := by
  rw [Opened.tree, bare_wrap]
  rfl

theorem step_opening_cases {tag : String} {attrs : List RawAttr} {selfClosing : Bool}
    (h : b.step s (.opening tag attrs selfClosing) = .ok b') :
    ∃ heading, heading.element.tag = tag ∧
      decide (heading.element.kind = .script) = s.isScript tag ∧
      b' = if selfClosing then b.addNode (Opened.tree ⟨heading, [], ""⟩)
        else { b with opened := ⟨heading, [], ""⟩ :: b.opened } := by
  obtain ⟨kind, hkind, h⟩ := bind_eq_ok_iff.mp h
  obtain ⟨heading, hheading, h⟩ := bind_eq_ok_iff.mp h
  obtain ⟨hsame, htag⟩ := read_keeps hheading
  refine ⟨heading, htag, ?_, (Except.ok.inj h).symm⟩
  rw [Setting.isScript, hkind, hsame]

theorem gains_single {tag : String} {attrs : List RawAttr}
    (h : b.step s (.opening tag attrs true) = .ok b') :
    ∃ n : Node, b.Gains b' [n] ∧ n.bare = .element tag [] := by
  obtain ⟨heading, rfl, _, rfl⟩ := step_opening_cases h
  exact ⟨_, gains_addNode b _, bare_tree _⟩

/-- An element that opens waits for what comes into it. -/
theorem waits_of_opening {tag : String} {attrs : List RawAttr}
    (h : b.step s (.opening tag attrs false) = .ok b') :
    ∃ heading, heading.element.tag = tag ∧ b'.inScript = s.isScript tag ∧
      b'.opened = ⟨heading, [], ""⟩ :: b.opened ∧ b'.top = b.top := by
  obtain ⟨heading, htag, hscript, rfl⟩ := step_opening_cases h
  exact ⟨heading, htag, hscript, rfl, rfl⟩

/-- What comes into an open element. -/
theorem Gains.inside {o : Opened} {rest : List Opened} (h : b.Gains b' ns)
    (hopened : b.opened = o :: rest) : b'.top = b.top ∧
      ∃ script, b'.opened = ⟨o.heading, ns.reverse ++ o.children, script⟩ :: rest := by
  rwa [Gains, hopened] at h

/-- An element that closes becomes a tree of what it stands in. -/
theorem step_closing_cases {tag : String} {kind : EndKind} {o : Opened} {rest : List Opened}
    (hopened : b.opened = o :: rest) (h : b.step s (.closing tag kind) = .ok b') :
    ∃ b₁ : Builder, b₁.opened = rest ∧ b₁.top = b.top ∧ b' = b₁.addNode o.tree := by
  have hpop : (b.runScript o).map (fun b => { b with opened := rest }.addNode o.tree) = .ok b' := by
    unfold step at h
    cases kind with
    | endOfInput => cases h
    | explicit | implicit =>
      dsimp only at h
      rwa [hopened] at h
  obtain ⟨b₂, hrun, rfl⟩ := map_eq_ok_iff.mp hpop
  exact ⟨{ b₂ with opened := rest }, rfl, (runScript_keeps hrun).2, rfl⟩

mutual

/-- **What the events of a tree bring is the tree that they describe.** -/
theorem gains_events : ∀ (t : Nested) {b b' : Builder}, t.events.foldlM (step s) b = .ok b' →
    ∃ ns, b.Gains b' ns ∧ Node.bareAll ns = t.described s b.inScript
  | .text content, b, b', h => by
    obtain ⟨b₁, htext, h⟩ := bind_eq_ok_iff.mp h
    cases h
    exact gains_text htext
  | .single tag attrs, b, b', h => by
    obtain ⟨b₁, hopening, h⟩ := bind_eq_ok_iff.mp h
    cases h
    obtain ⟨n, hgains, hn⟩ := gains_single hopening
    exact ⟨[n], hgains, by rw [Node.bareAll, hn]; rfl⟩
  | .element tag attrs children kind, b, b', h => by
    rw [Nested.events, List.foldlM_cons] at h
    obtain ⟨b₁, hopening, h⟩ := bind_eq_ok_iff.mp h
    rw [List.foldlM_append] at h
    obtain ⟨b₂, hinside, h⟩ := bind_eq_ok_iff.mp h
    obtain ⟨b₃, hclosing, h⟩ := bind_eq_ok_iff.mp h
    cases h
    obtain ⟨heading, htag, hscript, hopened, htop⟩ := waits_of_opening hopening
    obtain ⟨ns, hgains, hns⟩ := gains_eventsAll children hinside
    obtain ⟨htop', script, hopened'⟩ := hgains.inside hopened
    obtain ⟨b₄, hrest, htop'', rfl⟩ := step_closing_cases hopened' hclosing
    have houter := gains_nil hrest (htop''.trans (htop'.trans htop))
    refine ⟨_, houter.trans (gains_addNode b₄ _), ?_⟩
    rw [List.nil_append, Node.bareAll, bare_tree, List.append_nil, List.reverse_reverse, hns,
      hscript, htag]
    rfl

theorem gains_eventsAll : ∀ (ts : List Nested) {b b' : Builder},
    (Nested.eventsAll ts).foldlM (step s) b = .ok b' →
    ∃ ns, b.Gains b' ns ∧ Node.bareAll ns = Nested.describedAll s b.inScript ts
  | [], b, b', h => by
    cases h
    exact ⟨[], gains_nil rfl rfl, rfl⟩
  | t :: ts, b, b', h => by
    rw [Nested.eventsAll, List.foldlM_append] at h
    obtain ⟨b₁, ht, hts⟩ := bind_eq_ok_iff.mp h
    obtain ⟨ns, hgains, hns⟩ := gains_events t ht
    obtain ⟨ms, hgains', hms⟩ := gains_eventsAll ts hts
    refine ⟨ns ++ ms, hgains.trans hgains', ?_⟩
    rw [bareAll_append, hns, hms, hgains.inScript_eq, Nested.describedAll]

end

/-- An element that is open at the end of the input is a failure. -/
theorem not_mem_endOfInput {es : List Markup.Event} (h : es.foldlM (step s) b = .ok b') (tag : String) :
    .closing tag .endOfInput ∉ es := by
  induction es generalizing b with
  | nil => exact List.not_mem_nil
  | cons e es ih =>
    rw [List.foldlM_cons] at h
    obtain ⟨b₁, hstep, h⟩ := bind_eq_ok_iff.mp h
    intro hmem
    rcases List.mem_cons.mp hmem with rfl | hmem
    · cases hstep
    · exact ih h hmem

end Builder

/-! ## 4. Whole templates -/

/-- A template that is built has read all events of its markup. -/
theorem ofMarkup_cases {s : Setting} {name markup : String} {t : Template}
    (h : Template.ofMarkup s name markup = .ok t) :
    ∃ b, (scan markup s.config.scriptTag).events.foldlM (Builder.step s) Builder.start = .ok b ∧
      (scan markup s.config.scriptTag).unread = none ∧ t.children = b.top.reverse := by
  obtain ⟨b, hfold, h⟩ := bind_eq_ok_iff.mp h
  refine ⟨b, hfold, ?_⟩
  unfold Scan.failure at h
  cases hunread : (scan markup s.config.scriptTag).unread with
  | some rest =>
    rw [hunread] at h
    cases h
  | none =>
    rw [hunread] at h
    cases h
    exact ⟨rfl, rfl⟩

/-- **A template has the elements and texts that the events of its markup describe.** -/
theorem bareAll_ofMarkup {s : Setting} {name markup : String} {t : Template}
    (h : Template.ofMarkup s name markup = .ok t) {forest : List Nested}
    (hforest : Nested.eventsAll forest = (scan markup s.config.scriptTag).events) :
    Node.bareAll t.children = Nested.describedAll s false forest := by
  obtain ⟨b, hfold, _, hchildren⟩ := ofMarkup_cases h
  rw [← hforest] at hfold
  obtain ⟨ns, ⟨_, htop⟩, hns⟩ := Builder.gains_eventsAll forest hfold
  rw [hchildren, htop]
  simpa [Builder.start, Builder.inScript] using hns

end Trellis
