import Trellis.Proofs.Template.Described

/-!
# What a template refers to

A template refers to the components that its elements name, at any depth and whether or not they
are shown. A template that was built refers to components that there are, and to nothing else
(`known_of_mem_refs`). However a build fails, it is not for a name that is taken
(`builds_ofMarkup`).
-/
namespace Trellis

open Markup

/-! ## 1. References -/

mutual

/-- The components that the elements of a tree name. -/
def Node.refs : Node → List String
  | .text _ => []
  | .element e children => e.kind.component?.toList ++ Node.refsAll children
  | .branch _ body => body.refs
  | .loop _ body => body.refs

/-- The components that the elements of trees name. -/
def Node.refsAll : List Node → List String
  | [] => []
  | n :: rest => n.refs ++ Node.refsAll rest

end

/-- The components that a template names. -/
def Template.refs (t : Template) : List String := Node.refsAll t.children

theorem mem_refsAll {ns : List Node} {c : String} :
    c ∈ Node.refsAll ns ↔ ∃ n ∈ ns, c ∈ n.refs := by
  induction ns with
  | nil => simp [Node.refsAll]
  | cons n ns ih => simp [Node.refsAll, ih]

/-- Statements name no component. -/
theorem refs_wrap (st : Statements) (n : Node) : (st.wrap n).refs = n.refs := by
  have hlooped (n : Node) : (st.looped n).refs = n.refs := by
    unfold Statements.looped
    split <;> rfl
  unfold Statements.wrap
  split
  · exact hlooped n
  · split
    · exact hlooped _
    · exact hlooped n

/-- The components that an open element names, with what has come into it. -/
def Opened.refs (o : Opened) : List String :=
  o.heading.element.kind.component?.toList ++ Node.refsAll o.children

theorem mem_refs_tree {o : Opened} {c : String} : c ∈ o.tree.refs ↔ c ∈ o.refs := by
  rw [Opened.tree, refs_wrap, Node.refs, Opened.refs, List.mem_append, List.mem_append, mem_refsAll,
    mem_refsAll]
  simp only [List.mem_reverse]

/-! ## 2. References of a build -/

namespace Builder

variable {s : Setting} {b b' : Builder} {c : String}

/-- The components that have been named so far. -/
def refs (b : Builder) : List String := b.opened.flatMap Opened.refs ++ Node.refsAll b.top

theorem mem_refs_addNode {n : Node} : c ∈ (b.addNode n).refs ↔ c ∈ n.refs ∨ c ∈ b.refs := by
  unfold addNode refs
  split
  · rename_i hopened
    simp [hopened, Node.refsAll]
  · rename_i o rest hopened
    simp only [hopened, Opened.refs, Node.refsAll, List.flatMap_cons, List.mem_append]
    tauto

theorem mem_refs_addText {content : String} (h : b.addText s content = .ok b') (hc : c ∈ b'.refs) :
    c ∈ b.refs := by
  unfold addText at h
  dsimp only at h
  split at h
  · cases h
    exact hc
  · obtain ⟨p, _, rfl⟩ := map_eq_ok_iff.mp h
    exact (mem_refs_addNode.mp hc).resolve_left List.not_mem_nil

/-- An element names a component only if there is one. -/
theorem known_of_kindOf {tag : String} {kind : ElementKind} (h : s.kindOf tag = .ok kind)
    (hc : c ∈ kind.component?) : s.known c = true := by
  unfold Setting.kindOf at h
  split at h
  case h_6 =>
    split at h
    · cases h
      cases hc
    · split at h
      · cases h
        cases hc
      · dsimp only at h
        split at h
        · rename_i hknown
          cases h
          cases hc
          exact hknown
        · cases h
  all_goals
    cases h
    cases hc

/-- **An event brings references to components that there are, and no others.** -/
theorem mem_refs_step {event : Markup.Event} (h : b.step s event = .ok b') (hc : c ∈ b'.refs) :
    c ∈ b.refs ∨ s.known c = true := by
  unfold step at h
  split at h
  · rename_i tag attrs selfClosing
    obtain ⟨kind, hkind, h⟩ := bind_eq_ok_iff.mp h
    obtain ⟨heading, hheading, h⟩ := bind_eq_ok_iff.mp h
    have hnew : c ∈ Opened.refs ⟨heading, [], ""⟩ → s.known c = true := by
      intro hc
      rw [Opened.refs, (read_keeps hheading).1, Node.refsAll, List.append_nil,
        Option.mem_toList] at hc
      exact known_of_kindOf hkind hc
    cases h
    split at hc
    · exact (mem_refs_addNode.mp hc).symm.imp_right (hnew ∘ mem_refs_tree.mp)
    · rw [refs, List.flatMap_cons, List.append_assoc, List.mem_append] at hc
      exact hc.symm.imp_right hnew
  · cases h
  · split at h
    · cases h
      exact .inl hc
    · rename_i o rest hopened
      obtain ⟨b₁, hscript, rfl⟩ := map_eq_ok_iff.mp h
      refine .inl ?_
      rw [mem_refs_addNode, mem_refs_tree, refs, (runScript_keeps hscript).2] at hc
      rw [refs, hopened, List.flatMap_cons, List.append_assoc]
      exact List.mem_append.mpr hc
  · split at h
    · rename_i o rest hopened
      split at h
      · cases h
        refine .inl ?_
        rw [refs, hopened]
        exact hc
      · exact .inl (mem_refs_addText h hc)
    · exact .inl (mem_refs_addText h hc)

theorem mem_refs_foldlM {events : List Markup.Event} (h : events.foldlM (step s) b = .ok b')
    (hc : c ∈ b'.refs) : c ∈ b.refs ∨ s.known c = true := by
  induction events generalizing b with
  | nil =>
    cases h
    exact .inl hc
  | cons event events ih =>
    rw [List.foldlM_cons] at h
    obtain ⟨b₁, hstep, h⟩ := bind_eq_ok_iff.mp h
    exact (ih h).elim (mem_refs_step hstep) .inr

end Builder

/-- **A template that was built refers to components that there are.** -/
theorem known_of_mem_refs {s : Setting} {name markup : String} {t : Template}
    (h : Template.ofMarkup s name markup = .ok t) {c : String} (hc : c ∈ t.refs) :
    s.known c = true := by
  obtain ⟨b, hfold, _, hchildren⟩ := ofMarkup_cases h
  have hb : c ∈ b.refs := by
    rw [Template.refs, hchildren, mem_refsAll] at hc
    simp only [List.mem_reverse] at hc
    exact List.mem_append_right _ (mem_refsAll.mpr hc)
  exact (Builder.mem_refs_foldlM hfold hb).resolve_left List.not_mem_nil

/-! ## 3. Failures of a build -/

/-- Whether a failure is that of a name that is taken. -/
def MarkupError.isDuplicate : MarkupError → Bool
  | .duplicateTemplate _ => true
  | _ => false

/-- A part of a build: when it fails, it is not for a name that is taken. -/
def Builds {α : Type} (x : Except MarkupError α) : Prop := ∀ e, x = .error e → e.isDuplicate = false

namespace Builds

variable {α β : Type} {x : Except MarkupError α}

theorem ok (a : α) : Builds (.ok a) := nofun

theorem error {e : MarkupError} (h : e.isDuplicate = false) :
    Builds (.error e : Except MarkupError α) := by
  intro e' he
  cases he
  exact h

theorem bind {f : α → Except MarkupError β} (hx : Builds x) (hf : ∀ a, Builds (f a)) :
    Builds (x >>= f) := by
  cases x with
  | error e => exact error (hx e rfl)
  | ok a => exact hf a

theorem map {f : α → β} (hx : Builds x) : Builds (x.map f) := by
  cases x with
  | error e => exact error (hx e rfl)
  | ok a => exact ok (f a)

theorem foldlM {f : β → α → Except MarkupError β} (h : ∀ b a, Builds (f b a)) (as : List α) (b : β) :
    Builds (as.foldlM f b) := by
  induction as generalizing b with
  | nil => exact ok b
  | cons a as ih =>
    rw [List.foldlM_cons]
    exact (h b a).bind ih

end Builds

theorem builds_segmentsOf (ps : List Piece) : Builds (Program.segmentsOf ps) := by
  induction ps with
  | nil => exact .ok _
  | cons p ps ih =>
    have hp : Builds (Program.segment p) := by
      unfold Program.segment
      split
      · exact .ok _
      · split
        · exact .ok _
        · split
          · exact .ok _
          · exact .error rfl
    unfold Program.segmentsOf
    split
    · rename_i e he
      exact .error (hp e he)
    · split
      · rename_i e he
        exact .error (ih e he)
      · exact .ok _

theorem builds_compile (text : String) : Builds (Program.compile text) := (builds_segmentsOf _).map

theorem builds_attrProgram (value : Option String) : Builds (attrProgram value) := by
  cases value with
  | none => exact .ok _
  | some v => exact builds_compile v

theorem builds_key (text : String) : Builds (KeySpec.read? text) := by
  unfold KeySpec.read?
  dsimp only
  split
  · exact .ok _
  · split
    · exact .ok _
    · split
      · exact (builds_compile _).map
      · exact .ok _

theorem builds_addAttr (h : Heading) (name : String) (value : Option String) :
    Builds (h.addAttr name value) :=
  (builds_attrProgram value).bind fun _ => .ok _

theorem builds_addStatement (h : Heading) (word name : String) (value : Option String) :
    Builds (h.addStatement word name value) := by
  unfold Heading.addStatement
  dsimp only
  split
  case h_3 | h_6 | h_7 => exact .ok _
  case h_1 | h_2 | h_4 | h_5 => exact (builds_attrProgram value).bind fun _ => .ok _
  case h_8 | h_9 =>
    split
    · exact .ok _
    · exact (builds_key _).bind fun _ => .ok _
  case h_10 => exact builds_addAttr h name value

theorem builds_heading (c : Config) (kind : ElementKind) (tag : String) (attrs : List RawAttr) :
    Builds (Heading.read c kind tag attrs) := by
  refine .foldlM (fun h a => ?_) attrs _
  unfold Heading.add
  split
  · exact .ok _
  · split
    · exact builds_addStatement h _ _ _
    · split
      · exact .ok _
      · exact builds_addAttr h _ _

theorem builds_kindOf (s : Setting) (tag : String) : Builds (s.kindOf tag) := by
  unfold Setting.kindOf
  split
  case h_6 =>
    split
    · exact .ok _
    · split
      · exact .ok _
      · dsimp only
        split
        · exact .ok _
        · exact .error rfl
  all_goals exact .ok _

theorem builds_runScript (b : Builder) (o : Opened) : Builds (b.runScript o) := by
  unfold Builder.runScript
  split
  · refine Builds.map ?_
    unfold evaluateModule
    split
    · exact .ok _
    · exact .error rfl
  · exact .ok _

theorem builds_step (s : Setting) (b : Builder) (event : Markup.Event) : Builds (b.step s event) := by
  have htext (content : String) : Builds (b.addText s content) := by
    unfold Builder.addText
    dsimp only
    split
    · exact .ok _
    · exact (builds_compile _).map
  unfold Builder.step
  split
  · exact (builds_kindOf s _).bind fun _ => (builds_heading _ _ _ _).bind fun _ => .ok _
  · exact .error rfl
  · split
    · exact .ok _
    · exact (builds_runScript b _).map
  · split
    · split
      · exact .ok _
      · exact htext _
    · exact htext _

/-- **No build fails for a name that is taken**, whatever the markup is. -/
theorem builds_ofMarkup (s : Setting) (name markup : String) :
    Builds (Template.ofMarkup s name markup) := by
  refine Builds.bind (.foldlM (builds_step s) _ _) fun b => ?_
  unfold Scan.failure
  cases (scan markup s.config.scriptTag).unread with
  | none => exact .ok _
  | some rest => exact .error rfl

end Trellis
