import Trellis.Proofs.Markup.Nesting
import Trellis.Proofs.Markup.Rounds

/-!
# The ends of a scan

Whatever the markup is, also one that does not read to its end, the events that are emitted nest.
- `Run.follows`: what a run does to the open elements is what its events do to them,
- `Follows.exists_opening`: an element that is open has its start among the events, and behind it
  stands the start of what is open in it,
- `ImplicitRuns`: implicit ends stand in front of an explicit one,
- `scan_balanced`: all together.
-/

namespace Trellis.Markup

open Nested

/-! ## 1. Events in parts -/

section

variable {stack stack' : List String} {es es' : List Event}

theorem Follows.of_append (h : Follows stack (es ++ es') stack') :
    ∃ between, Follows stack es between ∧ Follows between es' stack' := by
  induction es generalizing stack with
  | nil => exact ⟨stack, .nil, h⟩
  | cons e es ih =>
    cases h with
    | text hmore =>
      obtain ⟨between, h, h'⟩ := ih hmore
      exact ⟨between, .text h, h'⟩
    | single hmore =>
      obtain ⟨between, h, h'⟩ := ih hmore
      exact ⟨between, .single h, h'⟩
    | opening hmore =>
      obtain ⟨between, h, h'⟩ := ih hmore
      exact ⟨between, .opening h, h'⟩
    | closing hmore =>
      obtain ⟨between, h, h'⟩ := ih hmore
      exact ⟨between, .closing h, h'⟩

/-- What is closed one after the other was open one around the other. -/
theorem Follows.eq_append {inner : List String} {kind : EndKind}
    (h : Follows stack (inner.map (.closing · kind)) stack') : stack = inner ++ stack' := by
  induction inner generalizing stack with
  | nil =>
    cases h
    rfl
  | cons tag inner ih =>
    cases h with
    | closing hmore => rw [ih hmore, List.cons_append]

/-- **What is open was opened**, and behind its start stands the start of what is open in it. The
    induction takes the events from behind: an end makes one more element open before it. -/
theorem Follows.exists_opening {tag : String} {inner outer : List String}
    (h : Follows [] es (inner ++ tag :: outer)) :
    ∃ before attrs middle, es = before ++ .opening tag attrs false :: middle ∧
      Follows [] before outer ∧ Follows [] middle inner := by
  induction es using List.reverseRecOn generalizing inner with
  | nil =>
    generalize hopen : inner ++ tag :: outer = opened at h
    cases h
    simp at hopen
  | append_singleton es e ih =>
    obtain ⟨between, hes, he⟩ := h.of_append
    cases e with
    | text content =>
      cases he with
      | text hnil =>
        cases hnil
        obtain ⟨before, attrs, middle, rfl, hbefore, hmiddle⟩ := ih hes
        exact ⟨before, attrs, middle ++ [.text content], by simp, hbefore,
          hmiddle.trans (.text .nil)⟩
    | closing tag' kind =>
      cases he with
      | closing hnil =>
        cases hnil
        obtain ⟨before, attrs, middle, rfl, hbefore, hmiddle⟩ := @ih (tag' :: inner) hes
        exact ⟨before, attrs, middle ++ [.closing tag' kind], by simp, hbefore,
          hmiddle.trans (.closing .nil)⟩
    | opening tag' attrs' selfClosing =>
      generalize hopen : inner ++ tag :: outer = opened at he
      cases he with
      | single hnil =>
        cases hnil
        subst hopen
        obtain ⟨before, attrs, middle, rfl, hbefore, hmiddle⟩ := ih hes
        exact ⟨before, attrs, middle ++ [.opening tag' attrs' true], by simp, hbefore,
          hmiddle.trans (.single .nil)⟩
      | opening hnil =>
        cases hnil
        cases inner with
        | nil =>
          obtain ⟨rfl, rfl⟩ := List.cons.inj hopen
          exact ⟨es, attrs', [], rfl, hes, .nil⟩
        | cons tag'' inner =>
          obtain ⟨rfl, rfl⟩ := List.cons.inj hopen
          obtain ⟨before, attrs, middle, rfl, hbefore, hmiddle⟩ := ih hes
          exact ⟨before, attrs, middle ++ [.opening tag'' attrs' false], by simp, hbefore,
            hmiddle.trans (.opening .nil)⟩

/-- **An end closes the last element that has a start and no end yet.** -/
theorem Follows.exists_start {pre post : List Event} {tag : String} {kind : EndKind}
    (h : Follows [] (pre ++ .closing tag kind :: post) stack) :
    ∃ before attrs inside, pre = before ++ .opening tag attrs false :: inside ∧
      Follows [] inside [] := by
  obtain ⟨opened, hpre, hend⟩ := h.of_append
  cases hend
  obtain ⟨before, attrs, inside, rfl, -, hinside⟩ := @Follows.exists_opening _ tag [] _ hpre
  exact ⟨before, attrs, inside, rfl, hinside⟩

end

/-! ## 2. Elements with both tags -/

mutual

/-- A tree leaves what is open as it is. -/
theorem Nested.follows_events (stack : List String) : ∀ t : Nested, Follows stack t.events stack
  | .text _ => .text .nil
  | .single _ _ => .single .nil
  | .element _ _ children _ =>
    .opening ((follows_eventsAll _ children).trans (.closing .nil))

theorem Nested.follows_eventsAll (stack : List String) :
    ∀ ts : List Nested, Follows stack (eventsAll ts) stack
  | [] => .nil
  | t :: ts => (follows_events stack t).trans (follows_eventsAll stack ts)

end

/-- **Where nothing is left open, every start has one end**: what stands between the two, and so where
    the end stands, is determined. -/
theorem Follows.existsUnique_end {pre post : List Event} {tag : String} {attrs : List RawAttr}
    (h : Follows [] (pre ++ .opening tag attrs false :: post) []) :
    ∃! parts : List Event × EndKind × List Event,
      post = parts.1 ++ .closing tag parts.2.1 :: parts.2.2 ∧ Follows [] parts.1 [] := by
  obtain ⟨outer, -, hstart⟩ := h.of_append
  cases hstart with
  | opening hpost =>
    cases hpost.hanging rfl with
    | closing ts _ kind _ =>
      rename_i behind _
      refine ⟨(eventsAll ts, kind, behind), ⟨rfl, follows_eventsAll [] ts⟩, ?_⟩
      rintro ⟨inside, kind', behind'⟩ ⟨heq, hinside⟩
      obtain ⟨us, rfl, -⟩ := existsUnique_forest hinside
      obtain ⟨rfl, hend⟩ := eventsAll_cancel ts us
        (show Ends (.closing tag kind :: behind) from trivial)
        (show Ends (.closing tag kind' :: behind') from trivial) heq
      cases hend
      rfl

/-! ## 3. Implicit ends -/

/-- Each implicit end stands in an unbroken run of them directly in front of an explicit end. -/
def ImplicitRuns (es : List Event) : Prop :=
  ∀ pre tag post, es = pre ++ .closing tag .implicit :: post →
    ∃ (later : List String) (name : String) (behind : List Event),
      post = later.map (.closing · .implicit) ++ .closing name .explicit :: behind

section

variable {es es' : List Event}

theorem ImplicitRuns.append (h : ImplicitRuns es) (h' : ImplicitRuns es') :
    ImplicitRuns (es ++ es') := by
  intro pre tag post hall
  rcases List.append_eq_append_iff.mp hall with ⟨front, rfl, hes'⟩ | ⟨back, rfl, hback⟩
  · exact h' front tag post hes'
  · cases back with
    | nil => exact h' [] tag post hback.symm
    | cons e back =>
      obtain ⟨rfl, rfl⟩ := List.cons.inj hback
      obtain ⟨later, name, behind, rfl⟩ := h pre tag back rfl
      exact ⟨later, name, behind ++ es', by simp⟩

/-- Events without implicit ends. -/
theorem implicitRuns_of_forall (h : ∀ tag, .closing tag .implicit ∉ es) : ImplicitRuns es := by
  rintro pre tag post rfl
  exact absurd (by simp) (h tag)

theorem implicitRuns_run (inner : List String) (name : String) :
    ImplicitRuns (inner.map (.closing · .implicit) ++ [.closing name .explicit]) := by
  induction inner with
  | nil => exact implicitRuns_of_forall fun tag hmem => by cases List.mem_singleton.mp hmem
  | cons tag' inner ih =>
    rintro (_ | ⟨e, pre⟩) tag post heq
    · exact ⟨inner, name, [], (List.cons.inj heq).2.symm⟩
    · exact ih pre tag post (List.cons.inj heq).2

theorem implicitRuns_close (tag : String) (stack : List String) :
    ImplicitRuns (close tag stack).1 := by
  rw [close]
  split
  · exact implicitRuns_run _ tag
  · exact implicitRuns_of_forall fun _ => List.not_mem_nil

theorem implicitRuns_textEvent (cs : List Char) : ImplicitRuns (textEvent cs) := by
  refine implicitRuns_of_forall fun tag hmem => ?_
  rw [textEvent] at hmem
  split at hmem
  · cases hmem
  · cases List.mem_singleton.mp hmem

theorem implicitRuns_closeAll (stack : List String) : ImplicitRuns (closeAll stack) := by
  refine implicitRuns_of_forall fun tag hmem => ?_
  obtain ⟨_, -, heq⟩ := List.mem_map.mp hmem
  cases heq

/-- The implicit ends at the end of a list of events, all of them. -/
theorem exists_implicit_run (es : List Event) :
    ∃ (middle : List Event) (run : List String), es = middle ++ run.map (.closing · .implicit) ∧
      ∀ tag, middle.getLast? ≠ some (.closing tag .implicit) := by
  induction es using List.reverseRecOn with
  | nil => exact ⟨[], [], rfl, nofun⟩
  | append_singleton es e ih =>
    by_cases he : ∃ tag, e = .closing tag .implicit
    · obtain ⟨tag, rfl⟩ := he
      obtain ⟨middle, run, rfl, hlast⟩ := ih
      exact ⟨middle, run ++ [tag], by simp, hlast⟩
    · refine ⟨es ++ [e], [], by simp, fun tag hlast => he ⟨tag, ?_⟩⟩
      simpa using hlast

/-- **The implicit ends in front of an explicit one close what was opened behind the start of its
    element** and is open there, from within. -/
theorem Follows.exists_start_of_explicit {pre post : List Event} {name : String} {stack : List String}
    (h : Follows [] (pre ++ .closing name .explicit :: post) stack) :
    ∃ before attrs middle run,
      pre = before ++ .opening name attrs false :: (middle ++ run.map (.closing · .implicit)) ∧
        Follows [] middle run ∧ ∀ tag, middle.getLast? ≠ some (.closing tag .implicit) := by
  obtain ⟨before, attrs, inside, rfl, hinside⟩ := h.exists_start
  obtain ⟨middle, run, rfl, hlast⟩ := exists_implicit_run inside
  obtain ⟨opened, hmiddle, hrun⟩ := hinside.of_append
  have hopened := hrun.eq_append
  rw [List.append_nil] at hopened
  subst hopened
  exact ⟨before, attrs, middle, opened, rfl, hmiddle, hlast⟩

end

/-! ## 4. Runs -/

section

variable {raw : String} {stack stack' : List String} {cs cs' : List Char} {es : List Event}

/-- What a round does to the open elements is what its events do to them. -/
theorem Round.follows (h : Round raw stack cs es stack' cs') : Follows stack es stack' := by
  cases h with
  | body hraw h => exact (follows_textEvent _ _).trans (follows_close _ _)
  | unended hraw h => exact follows_textEvent _ _
  | comment hraw h => exact .nil
  | endTag hraw h => exact follows_close _ _
  | @startTag _ tag attrs selfClosing _ hraw h =>
    cases selfClosing with
    | true => exact .single .nil
    | false => exact .opening .nil
  | text hraw hc => exact follows_textEvent _ _

theorem Run.follows (h : Run raw stack cs es stack' cs') : Follows stack es stack' := by
  induction h with
  | refl => exact .nil
  | step hround _ ih => exact hround.follows.trans ih

theorem Round.implicitRuns (h : Round raw stack cs es stack' cs') : ImplicitRuns es := by
  cases h with
  | body hraw h => exact (implicitRuns_textEvent _).append (implicitRuns_close _ _)
  | unended hraw h => exact implicitRuns_textEvent _
  | comment hraw h => exact implicitRuns_of_forall fun _ => List.not_mem_nil
  | endTag hraw h => exact implicitRuns_close _ _
  | startTag hraw h =>
    exact implicitRuns_of_forall fun _ hmem => by cases List.mem_singleton.mp hmem
  | text hraw hc => exact implicitRuns_textEvent _

theorem Run.implicitRuns (h : Run raw stack cs es stack' cs') : ImplicitRuns es := by
  induction h with
  | refl => exact implicitRuns_of_forall fun _ => List.not_mem_nil
  | step hround _ ih => exact hround.implicitRuns.append ih

theorem not_endOfInput_mem_close (tag name : String) (stack : List String) :
    .closing tag .endOfInput ∉ (close name stack).1 := by
  rw [close]
  split <;> simp

theorem not_closing_mem_textEvent (tag : String) (kind : EndKind) (cs : List Char) :
    .closing tag kind ∉ textEvent cs := by
  rw [textEvent]
  split <;> simp

/-- No round takes the end of the input for reached. -/
theorem Round.not_endOfInput (h : Round raw stack cs es stack' cs') (tag : String) :
    .closing tag .endOfInput ∉ es := by
  cases h with
  | body hraw h =>
    rw [List.mem_append, not_or]
    exact ⟨not_closing_mem_textEvent _ _ _, not_endOfInput_mem_close _ _ _⟩
  | unended hraw h => exact not_closing_mem_textEvent _ _ _
  | comment hraw h => exact List.not_mem_nil
  | endTag hraw h => exact not_endOfInput_mem_close _ _ _
  | startTag hraw h => exact fun hmem => by cases List.mem_singleton.mp hmem
  | text hraw hc => exact not_closing_mem_textEvent _ _ _

theorem Run.not_endOfInput (h : Run raw stack cs es stack' cs') (tag : String) :
    .closing tag .endOfInput ∉ es := by
  induction h with
  | refl => exact List.not_mem_nil
  | step hround _ ih =>
    rw [List.mem_append, not_or]
    exact ⟨hround.not_endOfInput tag, ih⟩

end

/-! ## 5. Scans -/

/-- How the events of a scan nest, whether the markup reads to its end or not. -/
structure Balanced (markup raw : String) : Prop where
  /-- An end closes the last element that has a start, is not closed by itself and has no end yet. -/
  closes_innermost : ∀ pre tag kind post,
    (scan markup raw).events = pre ++ .closing tag kind :: post →
      ∃ before attrs inside, pre = before ++ .opening tag attrs false :: inside ∧
        Follows [] inside []
  /-- Behind an implicit end come implicit ends only, and then an explicit one. -/
  implicit_runs : ImplicitRuns (scan markup raw).events
  /-- The implicit ends in front of an explicit one, all of them, close exactly what is open there and
      was opened behind the start of its element, from within. -/
  closes_later : ∀ pre name post,
    (scan markup raw).events = pre ++ .closing name .explicit :: post →
      ∃ before attrs middle run,
        pre = before ++ .opening name attrs false :: (middle ++ run.map (.closing · .implicit)) ∧
          Follows [] middle run ∧ ∀ tag, middle.getLast? ≠ some (.closing tag .implicit)
  /-- An end tag whose element is not among those that the events so far leave open is passed over:
      the scan goes on behind it, with the same elements open and no event. -/
  passes_over : ∀ es stack cs tag rest,
    Run (Text.lower raw) [] markup.toList es stack cs → stack.head? ≠ some (Text.lower raw) →
      mark? cs = some (.endTag tag, rest) → tag ∉ stack →
        Follows [] es stack ∧
          scan markup raw = (scanFrom (Text.lower raw) rest.length stack rest).after es
  /-- The end of the input closes nothing before all is read, and then all that is open, from within. -/
  end_of_input : ∃ es stack rest,
    Run (Text.lower raw) [] markup.toList es stack rest ∧ Follows [] es stack ∧
      (∀ tag, .closing tag .endOfInput ∉ es) ∧
        (rest = [] ∧ scan markup raw = ⟨es ++ closeAll stack, none⟩ ∨
          rest ≠ [] ∧ scan markup raw = ⟨es, some rest⟩)
  /-- When all is read, each start of an element that is not closed by itself has exactly one end. -/
  one_end : (scan markup raw).unread = none → ∀ pre tag attrs post,
    (scan markup raw).events = pre ++ .opening tag attrs false :: post →
      ∃! parts : List Event × EndKind × List Event,
        post = parts.1 ++ .closing tag parts.2.1 :: parts.2.2 ∧ Follows [] parts.1 []

/-- The run of a scan, and what is emitted behind it. -/
theorem scan_run (markup raw : String) :
    ∃ es stack rest, Run (Text.lower raw) [] markup.toList es stack rest ∧
      (rest = [] ∧ scan markup raw = ⟨es ++ closeAll stack, none⟩ ∨
        Stuck (Text.lower raw) stack rest ∧ scan markup raw = ⟨es, some rest⟩) :=
  scanFrom_run (Nat.le_refl _)

theorem exists_follows_scan (markup raw : String) :
    ∃ stack, Follows [] (scan markup raw).events stack := by
  obtain ⟨es, stack, rest, hrun, ⟨-, hscan⟩ | ⟨-, hscan⟩⟩ := scan_run markup raw
  · exact ⟨[], hscan ▸ hrun.follows.trans (follows_closeAll stack)⟩
  · exact ⟨stack, hscan ▸ hrun.follows⟩

theorem implicitRuns_scan (markup raw : String) : ImplicitRuns (scan markup raw).events := by
  obtain ⟨es, stack, rest, hrun, ⟨-, hscan⟩ | ⟨-, hscan⟩⟩ := scan_run markup raw
  · exact hscan ▸ hrun.implicitRuns.append (implicitRuns_closeAll stack)
  · exact hscan ▸ hrun.implicitRuns

/-- **The events of a scan are balanced.** -/
theorem scan_balanced (markup raw : String) : Balanced markup raw := by
  obtain ⟨final, hfollows⟩ := exists_follows_scan markup raw
  refine ⟨fun pre tag kind post heq => ?_, implicitRuns_scan markup raw,
    fun pre name post heq => ?_, fun es stack cs tag rest hrun hraw hmark hopen => ?_, ?_,
    fun hunread pre tag attrs post heq => ?_⟩
  · exact (heq ▸ hfollows).exists_start
  · exact (heq ▸ hfollows).exists_start_of_explicit
  · have hnone : close tag stack = ([], stack) := by
      rw [close, if_neg (by simpa using hopen)]
    have hround := Round.endTag hraw hmark
    rw [hnone] at hround
    have hbehind := hrun.trans (.single hround)
    rw [List.append_nil] at hbehind
    exact ⟨hrun.follows, hbehind.scan_eq⟩
  · obtain ⟨es, stack, rest, hrun, hend⟩ := scan_run markup raw
    refine ⟨es, stack, rest, hrun, hrun.follows, hrun.not_endOfInput, ?_⟩
    rcases hend with hend | ⟨hstuck, hscan⟩
    · exact .inl hend
    · refine .inr ⟨?_, hscan⟩
      rintro rfl
      cases hstuck.angle
  · have hclosed := scan_follows hunread
    rw [heq] at hclosed
    exact hclosed.existsUnique_end

/-- In a paragraph, an end tag without its element is passed over, and the one of the paragraph closes
    what is open in it. Nothing closes the element behind it but the end of the input. -/
theorem scan_balanced_paragraph :
    (scan "<p><b>x</i></p><u>" "wxs").events =
        [.opening "p" [] false, .opening "b" [] false, .text "x", .closing "b" .implicit,
          .closing "p" .explicit, .opening "u" [] false, .closing "u" .endOfInput] ∧
      (∃ before attrs middle run,
        [.opening "p" [] false, .opening "b" [] false, .text "x", .closing "b" .implicit] =
            before ++ .opening "p" attrs false :: (middle ++ run.map (.closing · .implicit)) ∧
          Follows [] middle run ∧ ∀ tag, middle.getLast? ≠ some (.closing tag .implicit)) ∧
      scan "<p><b>x</i></p><u>" "wxs" = (scanFrom "wxs" 7 ["b", "p"] "</p><u>".toList).after
        [.opening "p" [] false, .opening "b" [] false, .text "x"] ∧
      ∃! parts : List Event × EndKind × List Event,
        [.closing "u" .endOfInput] = parts.1 ++ .closing "u" parts.2.1 :: parts.2.2 ∧
          Follows [] parts.1 [] := by
  have hevents : (scan "<p><b>x</i></p><u>" "wxs").events =
      [.opening "p" [] false, .opening "b" [] false, .text "x", .closing "b" .implicit] ++
        .closing "p" .explicit :: [.opening "u" [] false, .closing "u" .endOfInput] := by
    decide +kernel
  have hlower : Text.lower "wxs" = "wxs" := by decide
  have hrun : Run (Text.lower "wxs") [] "<p><b>x</i></p><u>".toList
      [.opening "p" [] false, .opening "b" [] false, .text "x"] ["b", "p"] "</i></p><u>".toList := by
    rw [hlower]
    have hp : Round "wxs" [] "<p><b>x</i></p><u>".toList [.opening "p" [] false] ["p"]
        "<b>x</i></p><u>".toList := .startTag (by decide) (by decide +kernel)
    have hb : Round "wxs" ["p"] "<b>x</i></p><u>".toList [.opening "b" [] false] ["b", "p"]
        "x</i></p><u>".toList := .startTag (by decide) (by decide +kernel)
    exact .step hp (.step hb (.single (.text (by decide) (by decide))))
  have hbalanced := scan_balanced "<p><b>x</i></p><u>" "wxs"
  refine ⟨hevents, hbalanced.closes_later _ _ _ hevents, ?_, ?_⟩
  · have hpassed := hbalanced.passes_over _ _ _ "i" "</p><u>".toList hrun (by decide)
      (by decide +kernel) (by decide)
    rw [hlower] at hpassed
    exact hpassed.2
  · exact hbalanced.one_end (by decide +kernel) [.opening "p" [] false, .opening "b" [] false,
      .text "x", .closing "b" .implicit, .closing "p" .explicit] "u" [] _ hevents

end Trellis.Markup
