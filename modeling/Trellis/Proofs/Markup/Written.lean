import Mathlib.Data.List.Infix
import Trellis.Markup.Event
import Trellis.Proofs.Text.Runs

/-!
# Markup as it is written

A forest of elements, texts, comments and raw elements has an obvious spelling (`writeAll`) and an
obvious list of events (`eventsAll`). Scanning the spelling gives the events back
(`scanFrom_writeAll`, `scan_writeAll`). Each part of the scanner is described by what it takes off the
front of its own spelling, whatever follows:
- `attr?_write`, `attrs?_write` for attributes, `startTag?_write` and `mark?_endTag` for tags,
- `mark?_comment` for comments, `rawBody?_write` for the body of a raw element,
- `scanFrom_write` for a tree, by recursion on it, with the open elements as a parameter.
-/

namespace Trellis.Markup

/-! ## 1. Forests -/

/-- A piece of markup: a text, a comment, an element that closes itself, one with an end tag, and the
    raw element with its body. -/
inductive Written where
  | text (cs : List Char)
  | comment (cs : List Char)
  | single (tag : String) (attrs : List RawAttr)
  | element (tag : String) (attrs : List RawAttr) (children : List Written)
  | raw (tag : String) (attrs : List RawAttr) (body : List Char)

/-- An attribute behind a blank, its value between double quotes. -/
def RawAttr.write (a : RawAttr) : List Char :=
  ' ' :: a.name.toList ++
    match a.value with
    | none => []
    | some v => '=' :: '"' :: v.toList ++ ['"']

/-- A start tag up to its last mark. -/
def writeOpening (tag : String) (attrs : List RawAttr) : List Char :=
  '<' :: tag.toList ++ attrs.flatMap RawAttr.write

/-- An end tag. -/
def writeClosing (tag : String) : List Char := '<' :: '/' :: tag.toList ++ ['>']

namespace Written

/-- Whether a piece is a text. -/
def isText : Written → Bool
  | .text _ => true
  | _ => false

mutual

/-- The spelling of a piece. -/
def write : Written → List Char
  | .text cs => cs
  | .comment cs => ['<', '!', '-', '-'] ++ cs ++ ['-', '-', '>']
  | .single tag attrs => writeOpening tag attrs ++ ['/', '>']
  | .element tag attrs children =>
    writeOpening tag attrs ++ '>' :: (writeAll children ++ writeClosing tag)
  | .raw tag attrs body => writeOpening tag attrs ++ '>' :: (body ++ writeClosing tag)

/-- The spelling of pieces one behind the other. -/
def writeAll : List Written → List Char
  | [] => []
  | t :: rest => write t ++ writeAll rest

end

mutual

/-- What happens in a piece. A comment is no event. -/
def events : Written → List Event
  | .text cs => textEvent cs
  | .comment _ => []
  | .single tag attrs => [.opening tag attrs true]
  | .element tag attrs children =>
    .opening tag attrs false :: (eventsAll children ++ [.closing tag .explicit])
  | .raw tag attrs body =>
    .opening tag attrs false :: (textEvent body ++ [.closing tag .explicit])

/-- What happens in pieces one behind the other. -/
def eventsAll : List Written → List Event
  | [] => []
  | t :: rest => events t ++ eventsAll rest

end

end Written

/-! ## 2. What can be written -/

/-- A lower-case name of tag characters. -/
def IsTag (tag : String) : Prop :=
  tag.toList ≠ [] ∧ (∀ c ∈ tag.toList, isTagChar c = true) ∧ Text.lower tag = tag

/-- Every backslash is followed by a character, and no double quote stands without one in front. -/
def quotable : List Char → Bool
  | [] => true
  | c :: rest =>
    if c = '\\' then
      match rest with
      | [] => false
      | _ :: more => quotable more
    else c != '"' && quotable rest

/-- An attribute with a name, and a value that the quotes around it hold. -/
def RawAttr.Fits (a : RawAttr) : Prop :=
  a.name.toList ≠ [] ∧ (∀ c ∈ a.name.toList, isAttrChar c = true) ∧
    ∀ v ∈ a.value, quotable v.toList = true

/-- Whether a text begins like an end tag of `raw`, in any case, that goes on with no character of a
    tag. -/
def beginsEnd (raw : String) : List Char → Bool
  | '<' :: '/' :: rest =>
    Text.lower (String.ofList (rest.take raw.toList.length)) == raw &&
      !(rest.drop raw.toList.length).head?.any isTagChar
  | _ => false

namespace Written

mutual

/-- A piece that can be written where `raw` is the raw element: a text has no `<`, a comment does not
    end early, an element that holds others is not the raw one, and the body of the raw element does
    not end early. -/
def Fits (raw : String) : Written → Prop
  | .text cs => ∀ c ∈ cs, c ≠ '<'
  | .comment cs => ¬ ['-', '-', '>'] <:+: ['<', '!', '-', '-'] ++ cs
  | .single tag attrs => IsTag tag ∧ ∀ a ∈ attrs, a.Fits
  | .element tag attrs children =>
    (IsTag tag ∧ tag ≠ raw ∧ ∀ a ∈ attrs, a.Fits) ∧ FitsAll raw children
  | .raw tag attrs body =>
    IsTag tag ∧ tag = raw ∧ (∀ a ∈ attrs, a.Fits) ∧ ∀ s ∈ body.tails, beginsEnd raw s = false

/-- Pieces that can be written one behind the other: no text stands next to another one. -/
def FitsAll (raw : String) : List Written → Prop
  | [] => True
  | t :: rest => Fits raw t ∧ (t.isText → ∀ u ∈ rest.head?, u.isText = false) ∧ FitsAll raw rest

end

end Written

instance (tag : String) : Decidable (IsTag tag) :=
  inferInstanceAs (Decidable (_ ∧ _))

instance (a : RawAttr) : Decidable a.Fits :=
  inferInstanceAs (Decidable (_ ∧ _))

namespace Written

mutual

instance decidableFits (raw : String) : (t : Written) → Decidable (t.Fits raw)
  | .text cs => inferInstanceAs (Decidable (∀ c ∈ cs, c ≠ '<'))
  | .comment cs => inferInstanceAs (Decidable (¬ ['-', '-', '>'] <:+: ['<', '!', '-', '-'] ++ cs))
  | .single tag attrs => inferInstanceAs (Decidable (IsTag tag ∧ ∀ a ∈ attrs, a.Fits))
  | .element tag attrs children =>
    have := decidableFitsAll raw children
    inferInstanceAs (Decidable ((IsTag tag ∧ tag ≠ raw ∧ ∀ a ∈ attrs, a.Fits) ∧ FitsAll raw children))
  | .raw tag attrs body =>
    inferInstanceAs (Decidable (IsTag tag ∧ tag = raw ∧ (∀ a ∈ attrs, a.Fits) ∧
      ∀ s ∈ body.tails, beginsEnd raw s = false))

instance decidableFitsAll (raw : String) : (ts : List Written) → Decidable (FitsAll raw ts)
  | [] => inferInstanceAs (Decidable True)
  | t :: rest =>
    have := decidableFits raw t
    have := decidableFitsAll raw rest
    inferInstanceAs (Decidable (t.Fits raw ∧ (t.isText → ∀ u ∈ rest.head?, u.isText = false) ∧
      FitsAll raw rest))

end

end Written

/-! ## 3. Names and attributes -/

section

variable {a : RawAttr} {rest : List Char}

theorem run?_run {p : Char → Bool} {run : String} (hne : run.toList ≠ [])
    (hrun : ∀ c ∈ run.toList, p c = true) (h : Text.Stops p rest) :
    run? p (run.toList ++ rest) = some (run, rest) := by
  obtain ⟨c, cs, hcs⟩ := List.exists_cons_of_ne_nil hne
  rw [run?, Text.takeWhile_run hrun h, Text.dropWhile_run hrun h, hcs]
  dsimp only
  rw [← hcs, String.ofList_toList]

theorem quoted?_cons_of_ne {quote c : Char} (hc : c ≠ '\\') (hq : c ≠ quote) :
    quoted? quote (c :: rest) = (quoted? quote rest).map fun (text, rest) => (c :: text, rest) := by
  rw [quoted?.eq_def]
  dsimp only
  rw [if_neg hc, if_neg hq]

/-- **A value between quotes is read up to the closing one.** -/
theorem quoted?_write {v : List Char} (hv : quotable v = true) :
    quoted? '"' (v ++ '"' :: rest) = some (v, rest) := by
  fun_induction quotable v with
  | case1 => cases rest <;> rfl
  | case2 => cases hv
  | case3 d more ih =>
    rw [List.cons_append, List.cons_append, quoted?, if_pos rfl, ih hv]
    rfl
  | case4 c v hc ih =>
    simp only [Bool.and_eq_true, bne_iff_ne] at hv
    rw [List.cons_append, quoted?_cons_of_ne hc hv.1, ih hv.2]
    rfl

theorem skip_blank : skip (' ' :: rest) = skip rest := rfl

theorem skip_of_stops (h : Text.Stops Text.isAsciiBlank rest) : skip rest = rest :=
  h.dropWhile_eq_self

theorem skip_append {ws : List Char} (hws : ∀ c ∈ ws, Text.isAsciiBlank c = true)
    (h : Text.Stops Text.isAsciiBlank rest) : skip (ws ++ rest) = rest :=
  Text.dropWhile_run hws h

/-- A character of a name is no blank. -/
theorem isAsciiBlank_of_isAttrChar {c : Char} (hc : isAttrChar c = true) :
    Text.isAsciiBlank c = false := by
  cases hb : Text.isAsciiBlank c with
  | false => rfl
  | true =>
    simp only [Text.isAsciiBlank, Bool.or_eq_true, beq_iff_eq] at hb
    rcases hb with (((rfl | rfl) | rfl) | rfl) | rfl <;> cases hc

/-- What may stand behind an attribute: no character of its name, and, blanks aside, no equals
    sign. -/
def EndsAttr (cs : List Char) : Prop :=
  Text.Stops isAttrChar cs ∧ (skip cs).head? ≠ some '='

theorem attr?_write (ha : a.Fits) (hrest : EndsAttr rest) :
    ∀ cs, a.write ++ rest = ' ' :: cs → attr? cs = some (a, rest) := by
  rintro cs hcs
  obtain ⟨name, value⟩ := a
  obtain ⟨hne, hname, hvalue⟩ := ha
  cases value with
  | none =>
    obtain rfl : name.toList ++ rest = cs := by simpa [RawAttr.write] using hcs
    rw [attr?, run?_run hne hname hrest.1]
    dsimp only
    split
    · rename_i v hv
      exact absurd (by rw [hv]; rfl) hrest.2
    · rfl
  | some v =>
    obtain rfl : name.toList ++ '=' :: '"' :: (v.toList ++ '"' :: rest) = cs := by
      simpa [RawAttr.write] using hcs
    rw [attr?, run?_run hne hname (Text.stops_cons.mpr rfl)]
    simp only [skip_of_stops (Text.stops_cons.mpr (rfl : Text.isAsciiBlank '=' = false)),
      skip_of_stops (Text.stops_cons.mpr (rfl : Text.isAsciiBlank '"' = false)), attrValue?,
      true_or, if_true, quoted?_write (hvalue v rfl), Option.map_some, String.ofList_toList]

/-- The characters of an attribute: a blank, and behind it the name. -/
theorem RawAttr.Fits.write_eq (ha : a.Fits) (rest : List Char) :
    ∃ c cs, isAttrChar c = true ∧ a.write ++ rest = ' ' :: c :: cs := by
  obtain ⟨c, cs, hcs⟩ := List.exists_cons_of_ne_nil ha.1
  exact ⟨c, _, ha.2.1 c (by simp [hcs]), by rw [RawAttr.write, hcs]; rfl⟩

theorem endsAttr_write (ha : a.Fits) (rest : List Char) : EndsAttr (a.write ++ rest) := by
  obtain ⟨c, cs, hc, heq⟩ := ha.write_eq rest
  rw [heq]
  refine ⟨Text.stops_cons.mpr rfl, ?_⟩
  rw [skip_blank, skip_of_stops (Text.stops_cons.mpr (isAsciiBlank_of_isAttrChar hc))]
  rintro ⟨⟩
  cases hc

/-- How a start tag ends. -/
def tagEnd (selfClosing : Bool) : List Char := if selfClosing then ['/', '>'] else ['>']

theorem endsAttr_tagEnd (b : Bool) (rest : List Char) : EndsAttr (tagEnd b ++ rest) := by
  cases b with
  | false => exact ⟨Text.stops_cons.mpr rfl, by simp [tagEnd, skip, Text.isAsciiBlank]⟩
  | true => exact ⟨Text.stops_cons.mpr rfl, by simp [tagEnd, skip, Text.isAsciiBlank]⟩

/-- One attribute is read where one begins behind blanks. -/
theorem attrs?_cons {ws cs : List Char} {b c : Char}
    (hws : ∀ d ∈ b :: ws, Text.isAsciiBlank d = true) (hc : isAttrChar c = true)
    (ha : attr? (c :: cs) = some (a, rest)) (fuel : Nat) :
    attrs? (fuel + 1) (b :: ws ++ c :: cs) =
      (attrs? fuel rest).map fun (as, selfClosing, rest) => (a :: as, selfClosing, rest) := by
  have hslash : c ≠ '/' := Text.ne_of_class hc rfl
  have hgreater : c ≠ '>' := Text.ne_of_class hc rfl
  rw [attrs?, skip_append hws (Text.stops_cons.mpr (isAsciiBlank_of_isAttrChar hc))]
  split
  · rename_i h; cases h
  · rename_i h; exact absurd (List.cons.inj h).1 hgreater
  · rename_i h; exact absurd (List.cons.inj h).1 hslash
  · rename_i h
    cases h
    simp [hslash, ha, hws b List.mem_cons_self]

/-- **The attributes of a tag are read one after the other**, up to its end. -/
theorem attrs?_write (b : Bool) (rest : List Char) {attrs : List RawAttr}
    (hattrs : ∀ a ∈ attrs, a.Fits) {fuel : Nat} (hfuel : attrs.length < fuel) :
    attrs? fuel (attrs.flatMap RawAttr.write ++ (tagEnd b ++ rest)) = some (attrs, b, rest) := by
  induction attrs generalizing fuel with
  | nil =>
    obtain ⟨fuel, rfl⟩ : ∃ k, fuel = k + 1 := ⟨fuel - 1, by simp at hfuel; omega⟩
    cases b <;> simp [attrs?, tagEnd, skip, Text.isAsciiBlank]
  | cons a attrs ih =>
    obtain ⟨fuel, rfl⟩ : ∃ k, fuel = k + 1 := ⟨fuel - 1, by simp at hfuel; omega⟩
    have ha := hattrs a List.mem_cons_self
    have hrest : EndsAttr (attrs.flatMap RawAttr.write ++ (tagEnd b ++ rest)) := by
      cases attrs with
      | nil => exact endsAttr_tagEnd b rest
      | cons a' attrs =>
        rw [List.flatMap_cons, List.append_assoc]
        exact endsAttr_write (hattrs a' (by simp)) _
    obtain ⟨c, cs, hc, heq⟩ := ha.write_eq (attrs.flatMap RawAttr.write ++ (tagEnd b ++ rest))
    have hattr := attr?_write ha hrest _ heq
    have hlength : attrs.length < fuel := by simp at hfuel; omega
    have hmore := ih (fun a' ha' => hattrs a' (List.mem_cons_of_mem _ ha')) hlength
    have hblank : ∀ d ∈ [' '], Text.isAsciiBlank d = true := by simp [Text.isAsciiBlank]
    have hread := attrs?_cons hblank hc hattr fuel
    rw [hmore] at hread
    rw [List.flatMap_cons, List.append_assoc, heq]
    exact hread

end

/-! ## 4. Tags, comments and raw bodies -/

section

variable {tag raw : String} {attrs : List RawAttr} {rest : List Char}

/-- The name in an end tag. -/
theorem endTag?_write (ht : IsTag tag) (rest : List Char) :
    endTag? (tag.toList ++ '>' :: rest) = some (tag, rest) := by
  obtain ⟨hne, hchars, hlower⟩ := ht
  rw [endTag?, run?_run hne hchars (Text.stops_cons.mpr rfl)]
  simp [Text.cut?, Text.after?, hlower]

theorem writeClosing_append (tag : String) (rest : List Char) :
    writeClosing tag ++ rest = '<' :: '/' :: (tag.toList ++ '>' :: rest) := by
  simp [writeClosing]

theorem mark?_writeClosing (ht : IsTag tag) (rest : List Char) :
    mark? (writeClosing tag ++ rest) = some (.endTag tag, rest) := by
  rw [writeClosing_append, mark?, endTag?_write ht]
  rfl

theorem length_le_length_write (attrs : List RawAttr) :
    attrs.length ≤ (attrs.flatMap RawAttr.write).length := by
  induction attrs with
  | nil => exact Nat.le_refl 0
  | cons a attrs ih =>
    have : 1 ≤ a.write.length := by simp [RawAttr.write]
    rw [List.flatMap_cons, List.length_append, List.length_cons]
    omega

theorem stops_attrs (hattrs : ∀ a ∈ attrs, a.Fits) (b : Bool) (rest : List Char) :
    Text.Stops isTagChar (attrs.flatMap RawAttr.write ++ (tagEnd b ++ rest)) := by
  refine Text.Stops.mono (p := isAttrChar) ?_ fun c hc => by simp [isAttrChar, hc]
  cases attrs with
  | nil => exact (endsAttr_tagEnd b rest).1
  | cons a attrs =>
    rw [List.flatMap_cons, List.append_assoc]
    exact (endsAttr_write (hattrs a List.mem_cons_self) _).1

/-- **A start tag is read with its attributes.** -/
theorem mark?_writeOpening (ht : IsTag tag) (hattrs : ∀ a ∈ attrs, a.Fits) (b : Bool)
    (rest : List Char) :
    mark? (writeOpening tag attrs ++ (tagEnd b ++ rest)) = some (.startTag tag attrs b, rest) := by
  obtain ⟨hne, hchars, hlower⟩ := ht
  have hstart : startTag? (tag.toList ++ (attrs.flatMap RawAttr.write ++ (tagEnd b ++ rest))) =
      some (.startTag tag attrs b, rest) := by
    have hlength := length_le_length_write attrs
    have hend : 1 ≤ (tagEnd b).length := by cases b <;> simp [tagEnd]
    rw [startTag?, run?_run hne hchars (stops_attrs hattrs b rest)]
    dsimp only
    rw [attrs?_write b rest hattrs (by simp only [List.length_append]; omega), Option.map_some, hlower]
  obtain ⟨c, cs, hcs⟩ := List.exists_cons_of_ne_nil hne
  have hc : isTagChar c = true := hchars c (by simp [hcs])
  rw [writeOpening, List.cons_append, List.cons_append, List.append_assoc, mark?, hstart]
  · rintro more h
    rw [hcs, List.cons_append] at h
    exact Text.ne_of_class hc rfl (List.cons.inj h).1
  · rintro more h
    rw [hcs, List.cons_append] at h
    exact Text.ne_of_class hc rfl (List.cons.inj h).1

/-- The first `-->` of a text that has none before its end. -/
theorem cut?_comment {cs : List Char} (h : ¬ ['-', '-', '>'] <:+: cs) (rest : List Char) :
    ∃ before, Text.cut? ['-', '-', '>'] (cs ++ '-' :: '-' :: '>' :: rest) = some (before, rest) := by
  induction cs with
  | nil => exact ⟨[], by simp [Text.cut?, Text.after?]⟩
  | cons c cs ih =>
    obtain ⟨before, hbefore⟩ := ih fun hin => h (hin.trans (List.suffix_cons c cs).isInfix)
    refine ⟨c :: before, ?_⟩
    rw [List.cons_append, Text.cut?, hbefore]
    cases hafter : Text.after? ['-', '-', '>'] (c :: (cs ++ '-' :: '-' :: '>' :: rest)) with
    | none => rfl
    | some more =>
      -- the mark stands at the front, so it lies within the text, or it overlaps the one at the end
      have heq := Text.after?_eq_some hafter
      rcases cs with _ | ⟨d, _ | ⟨e, cs⟩⟩
      · simp at heq
      · simp at heq
      · obtain ⟨rfl, rfl, rfl, -⟩ : c = '-' ∧ d = '-' ∧ e = '>' ∧ _ := by simpa using heq
        exact absurd ⟨[], cs, rfl⟩ h

theorem mark?_comment {cs : List Char} (h : ¬ ['-', '-', '>'] <:+: ['<', '!', '-', '-'] ++ cs)
    (rest : List Char) :
    mark? (['<', '!', '-', '-'] ++ cs ++ ['-', '-', '>'] ++ rest) = some (.comment, rest) := by
  have hnone : ¬ ['-', '-', '>'] <:+: '-' :: '-' :: cs :=
    fun hin => h (hin.trans ⟨['<', '!'], [], by simp⟩)
  obtain ⟨before, hcut⟩ := cut?_comment hnone rest
  have heq : ['<', '!', '-', '-'] ++ cs ++ ['-', '-', '>'] ++ rest =
      '<' :: '!' :: '-' :: '-' :: (cs ++ '-' :: '-' :: '>' :: rest) := by simp
  rw [heq, mark?]
  simp only [List.cons_append] at hcut
  rw [hcut]
  rfl

/-- An end tag names the characters of a tag behind its slash. -/
theorem name_of_endTag? {cs : List Char} {found : String} (h : endTag? cs = some (found, rest)) :
    found = Text.lower (String.ofList (cs.takeWhile isTagChar)) := by
  rw [endTag?, run?] at h
  split at h
  · cases h
  · rename_i name more heq
    split at heq
    · cases heq
    · rename_i hrun
      obtain ⟨rfl, rfl⟩ := Prod.mk.inj (Option.some.inj heq)
      obtain ⟨_, -, hfound⟩ := Option.map_eq_some_iff.mp h
      rw [hrun]
      exact (Prod.mk.inj hfound).1.symm

/-- A name that is the raw element's, and as long as it can be, begins an end tag. -/
theorem beginsEnd_of_name {cs : List Char}
    (h : Text.lower (String.ofList (cs.takeWhile isTagChar)) = raw) :
    beginsEnd raw ('<' :: '/' :: cs) = true := by
  have hlength : raw.toList.length = (cs.takeWhile isTagChar).length := by
    rw [← h]
    simp [Text.lower]
  have htake : cs.take raw.toList.length = cs.takeWhile isTagChar := by
    conv_lhs => rw [← cs.takeWhile_append_dropWhile (p := isTagChar), hlength]
    exact List.take_left
  have hdrop : cs.drop raw.toList.length = cs.dropWhile isTagChar := by
    conv_lhs => rw [← cs.takeWhile_append_dropWhile (p := isTagChar), hlength]
    exact List.drop_left
  have hstop : (cs.dropWhile isTagChar).head?.any isTagChar = false := by
    have hstops := Text.stops_dropWhile isTagChar cs
    cases hhead : (cs.dropWhile isTagChar).head? with
    | none => rfl
    | some c => exact hstops c hhead
  rw [beginsEnd, htake, hdrop, hstop, h]
  simp

/-- Where no end tag of the raw element begins in its body, none is found. -/
theorem behindEndTag?_body {c : Char} {cs : List Char} (h : beginsEnd raw (c :: cs) = false)
    (rest : List Char) : behindEndTag? raw (c :: (cs ++ writeClosing raw ++ rest)) = none := by
  rw [List.append_assoc, writeClosing_append]
  unfold behindEndTag?
  split
  · rename_i more heq
    obtain ⟨hc, heq⟩ := List.cons.inj heq
    cases cs with
    | nil => cases heq
    | cons d cs =>
      obtain ⟨hd, rfl⟩ := List.cons.inj heq
      subst hc hd
      split
      · rename_i found rest' hfound
        have hname := name_of_endTag? hfound
        rw [List.append_eq, Text.takeWhile_append_stops _ (Text.stops_cons.mpr rfl)] at hname
        refine if_neg fun e => ?_
        rw [beginsEnd_of_name (hname.symm.trans e)] at h
        cases h
      · rfl
  · rfl

/-- **The body of the raw element is read up to its end tag.** -/
theorem rawBody?_write (ht : IsTag raw) {body : List Char}
    (h : ∀ s ∈ body.tails, beginsEnd raw s = false) (rest : List Char) :
    rawBody? raw (body ++ writeClosing raw ++ rest) = some (body, rest) := by
  induction body with
  | nil =>
    rw [List.nil_append, writeClosing_append, rawBody?, behindEndTag?, endTag?_write ht]
    simp
  | cons c cs ih =>
    simp only [List.tails, List.mem_cons, forall_eq_or_imp] at h
    rw [List.cons_append, List.cons_append, rawBody?, behindEndTag?_body h.1, ih h.2]
    rfl

end

/-! ## 5. Scanning -/

/-- With `stack` open, `cs` reads as some events and leaves `rest` to be read with `stack'` open. -/
def Reads (raw : String) (stack stack' : List String) (cs rest : List Char) (es : List Event) : Prop :=
  ∀ fuel, cs.length ≤ fuel → ∃ fuel', rest.length ≤ fuel' ∧
    scanFrom raw fuel stack cs = (scanFrom raw fuel' stack' rest).after es

section

variable {raw : String} {stack stack' stack'' : List String} {cs mid rest : List Char}
  {es es' : List Event}

theorem Reads.refl (raw : String) (stack : List String) (cs : List Char) :
    Reads raw stack stack cs cs [] :=
  fun fuel h => ⟨fuel, h, rfl⟩

theorem Reads.trans (h : Reads raw stack stack' cs mid es) (h' : Reads raw stack' stack'' mid rest es') :
    Reads raw stack stack'' cs rest (es ++ es') := by
  intro fuel hfuel
  obtain ⟨fuel₁, hfuel₁, hrun₁⟩ := h fuel hfuel
  obtain ⟨fuel₂, hfuel₂, hrun₂⟩ := h' fuel₁ hfuel₁
  refine ⟨fuel₂, hfuel₂, ?_⟩
  rw [hrun₁, hrun₂]
  simp [Scan.after]

/-- One round of the scanner, which takes at least one character. -/
theorem Reads.of_round {c : Char} (hlength : rest.length ≤ cs.length)
    (h : ∀ fuel, scanFrom raw (fuel + 1) stack (c :: cs) = (scanFrom raw fuel stack' rest).after es) :
    Reads raw stack stack' (c :: cs) rest es := by
  intro fuel hfuel
  obtain ⟨fuel, rfl⟩ : ∃ k, fuel = k + 1 := ⟨fuel - 1, by simp at hfuel; omega⟩
  exact ⟨fuel, by simp at hfuel; omega, h fuel⟩

theorem reads_text (hstack : stack.head? ≠ some raw) (hcs : ∀ c ∈ cs, c ≠ '<')
    (hrest : Text.Stops (· ≠ '<') rest) : Reads raw stack stack (cs ++ rest) rest (textEvent cs) := by
  cases cs with
  | nil => exact .refl raw stack rest
  | cons c cs =>
    have hall : ∀ d ∈ c :: cs, decide (d ≠ '<') = true := by simpa using hcs
    refine .of_round (by simp) fun fuel => ?_
    have htake := Text.takeWhile_run hall hrest
    have hdrop := Text.dropWhile_run hall hrest
    rw [List.cons_append] at htake hdrop
    rw [List.append_eq, scanFrom, if_neg hstack, if_neg (hcs c List.mem_cons_self)]
    dsimp only
    rw [htake, hdrop]

theorem reads_comment (hstack : stack.head? ≠ some raw)
    (h : ¬ ['-', '-', '>'] <:+: ['<', '!', '-', '-'] ++ cs) (rest : List Char) :
    Reads raw stack stack (['<', '!', '-', '-'] ++ cs ++ ['-', '-', '>'] ++ rest) rest [] := by
  have hmark := mark?_comment h rest
  refine .of_round (by simp; omega) fun fuel => ?_
  rw [scanFrom, if_neg hstack, if_pos rfl]
  simp only [List.cons_append, List.nil_append] at hmark
  simp only [List.cons_append, List.nil_append, List.append_eq]
  rw [hmark]
  rfl

variable {tag : String} {attrs : List RawAttr}

theorem reads_opening (hstack : stack.head? ≠ some raw) (ht : IsTag tag)
    (hattrs : ∀ a ∈ attrs, a.Fits) (b : Bool) (rest : List Char) :
    Reads raw stack (if b then stack else tag :: stack) (writeOpening tag attrs ++ (tagEnd b ++ rest))
      rest [.opening tag attrs b] := by
  have hmark := mark?_writeOpening ht hattrs b rest
  rw [writeOpening, List.cons_append, List.cons_append] at hmark ⊢
  refine .of_round (by simp; omega) fun fuel => ?_
  rw [scanFrom, if_neg hstack, if_pos rfl, hmark]

theorem close_self (tag : String) (stack : List String) :
    close tag (tag :: stack) = ([.closing tag .explicit], stack) := by
  simp [close]

theorem reads_closing (ht : IsTag tag) (hne : tag ≠ raw) (stack : List String) (rest : List Char) :
    Reads raw (tag :: stack) stack (writeClosing tag ++ rest) rest [.closing tag .explicit] := by
  have hmark := mark?_writeClosing ht rest
  rw [writeClosing_append] at hmark ⊢
  refine .of_round (by simp; omega) fun fuel => ?_
  rw [scanFrom, if_neg (by simpa using hne), if_pos rfl, hmark]
  dsimp only
  rw [close_self]

theorem reads_body (ht : IsTag raw) {body : List Char}
    (h : ∀ s ∈ body.tails, beginsEnd raw s = false) (stack : List String) (rest : List Char) :
    Reads raw (raw :: stack) stack (body ++ writeClosing raw ++ rest) rest
      (textEvent body ++ [.closing raw .explicit]) := by
  have hbody := rawBody?_write ht h rest
  obtain ⟨c, cs, hcs⟩ : ∃ c cs, body ++ writeClosing raw ++ rest = c :: cs := by
    cases body <;> exact ⟨_, _, rfl⟩
  have hlength : rest.length ≤ cs.length := by
    have := congrArg List.length hcs
    simp [writeClosing] at this
    omega
  rw [hcs] at hbody ⊢
  refine .of_round hlength fun fuel => ?_
  rw [scanFrom, if_pos List.head?_cons, hbody]
  dsimp only
  rw [close_self]

/-- A text that is read to its end. -/
theorem Reads.scan (h : Reads raw [] [] cs [] es) (hraw : Text.lower raw = raw) :
    scan (String.ofList cs) raw = ⟨es, none⟩ := by
  obtain ⟨fuel, -, hrun⟩ := h _ (Nat.le_refl _)
  rw [Markup.scan, String.toList_ofList, hraw, hrun, scanFrom]
  simp [Scan.after, closeAll]

end

namespace Written

variable {raw : String}

/-- What begins with a mark is no text. -/
theorem stops_write {t : Written} (ht : t.isText = false) (rest : List Char) :
    Text.Stops (· ≠ '<') (t.write ++ rest) := by
  cases t with
  | text cs => cases ht
  | _ => exact Text.stops_cons.mpr rfl

mutual

/-- **A piece is scanned to its events**, whatever is open around it and whatever follows, apart from
    more text behind a text. -/
theorem scanFrom_write : ∀ (t : Written) {stack : List String} {rest : List Char}, t.Fits raw →
    stack.head? ≠ some raw → (t.isText = true → Text.Stops (· ≠ '<') rest) →
    Reads raw stack stack (t.write ++ rest) rest t.events
  | .text cs, stack, rest, ht, hstack, hrest => reads_text hstack ht (hrest rfl)
  | .comment cs, stack, rest, ht, hstack, _ => reads_comment hstack ht rest
  | .single tag attrs, stack, rest, ⟨htag, hattrs⟩, hstack, _ => by
    rw [write, List.append_assoc]
    exact reads_opening hstack htag hattrs true rest
  | .element tag attrs children, stack, rest, ⟨⟨htag, hne, hattrs⟩, hchildren⟩, hstack, _ => by
    have hopen := reads_opening hstack htag hattrs false (writeAll children ++ (writeClosing tag ++ rest))
    have hinner : Reads raw (tag :: stack) (tag :: stack)
        (writeAll children ++ (writeClosing tag ++ rest)) (writeClosing tag ++ rest)
        (eventsAll children) :=
      scanFrom_writeAll children hchildren (by simpa using hne) (Text.stops_cons.mpr rfl)
    have hclose := reads_closing htag hne stack rest
    rw [write, events]
    simpa [tagEnd] using (hopen.trans hinner).trans hclose
  | .raw tag attrs body, stack, rest, ⟨htag, hraw, hattrs, hbody⟩, hstack, _ => by
    subst hraw
    have hopen := reads_opening hstack htag hattrs false (body ++ writeClosing tag ++ rest)
    have hinner := reads_body htag hbody stack rest
    rw [write, events]
    simpa [tagEnd] using hopen.trans hinner

theorem scanFrom_writeAll : ∀ (ts : List Written) {stack : List String} {rest : List Char},
    FitsAll raw ts → stack.head? ≠ some raw → Text.Stops (· ≠ '<') rest →
    Reads raw stack stack (writeAll ts ++ rest) rest (eventsAll ts)
  | [], stack, rest, _, _, _ => .refl raw stack rest
  | t :: ts, stack, rest, ⟨ht, hnext, hts⟩, hstack, hrest => by
    have hbehind : t.isText = true → Text.Stops (· ≠ '<') (writeAll ts ++ rest) := by
      intro htext
      cases ts with
      | nil => exact hrest
      | cons u ts =>
        rw [writeAll, List.append_assoc]
        exact stops_write (hnext htext u rfl) _
    rw [writeAll, List.append_assoc, eventsAll]
    exact (scanFrom_write t ht hstack hbehind).trans (scanFrom_writeAll ts hts hstack hrest)

end

end Written

theorem reads_writeAll {raw : String} {ts : List Written} (hts : Written.FitsAll raw ts) :
    Reads raw [] [] (Written.writeAll ts) [] (Written.eventsAll ts) := by
  have h : Reads raw [] [] (Written.writeAll ts ++ []) [] (Written.eventsAll ts) :=
    Written.scanFrom_writeAll ts hts nofun Text.stops_nil
  rwa [List.append_nil] at h

/-- **Scanning undoes writing.** Markup that is written piece by piece reads as its events, in order
    and with nothing left unread. -/
theorem scan_writeAll {raw : String} (hraw : Text.lower raw = raw) {ts : List Written}
    (hts : Written.FitsAll raw ts) :
    scan (String.ofList (Written.writeAll ts)) raw = ⟨Written.eventsAll ts, none⟩ :=
  (reads_writeAll hts).scan hraw

/-- A paragraph with a comment and a break in it, and a script whose text has marks of its own. -/
def paragraphAndScript : List Written :=
  [.element "p" [⟨"a", some "1 > \\\" 2"⟩, ⟨"b:c", none⟩]
      [.comment ['-'], .text ['x', '>', 'y'], .comment [], .text ['z'], .single "br" [⟨"d", none⟩]],
    .raw "wxs" [⟨"module", some "m"⟩] "1 < 2 </WXSx> </p>".toList]

theorem scan_paragraphAndScript :
    Text.lower "wxs" = "wxs" ∧ Written.FitsAll "wxs" paragraphAndScript ∧
      String.ofList (Written.writeAll paragraphAndScript) =
        "<p a=\"1 > \\\" 2\" b:c><!----->x>y<!---->z<br d/></p>" ++
          "<wxs module=\"m\">1 < 2 </WXSx> </p></wxs>" ∧
      scan (String.ofList (Written.writeAll paragraphAndScript)) "wxs" =
        ⟨[.opening "p" [⟨"a", some "1 > \\\" 2"⟩, ⟨"b:c", none⟩] false, .text "x>y", .text "z",
          .opening "br" [⟨"d", none⟩] true, .closing "p" .explicit,
          .opening "wxs" [⟨"module", some "m"⟩] false, .text "1 < 2 </WXSx> </p>",
          .closing "wxs" .explicit], none⟩ := by
  have hraw : Text.lower "wxs" = "wxs" := by decide
  have hfits : Written.FitsAll "wxs" paragraphAndScript := by decide +kernel
  refine ⟨hraw, hfits, by decide +kernel, ?_⟩
  rw [scan_writeAll hraw hfits]
  exact congrArg (Scan.mk · none) (by decide +kernel)

end Trellis.Markup
