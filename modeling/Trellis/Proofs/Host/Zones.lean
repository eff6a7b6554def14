import Trellis.Proofs.Host.Page
import Trellis.Proofs.Host.Reachable
import Trellis.Proofs.Text.Entities

/-!
# What opens and closes on a page

A reader of a page is in the content, in a tag, or in the value of an attribute, and three characters
lead from one `Html.Zone` to another. Each character that is written belongs to a zone too: those of
contents and of values are escaped, so none of them moves a reader, wherever it is (`still_charsAll`),
and it finds the tags as if there were no contents and no values (`marksOf_read`). When no name on the
page holds a `>` or a quote, the reader finds every character in the zone for which it was written
(`reads_charsAll`).

`Host.html_safe` says so of what a host writes, whatever is in it.
-/

namespace Trellis

namespace Html

/-! ## 1. A reader of pages -/

/-- Where a reader of a page is. -/
inductive Zone where
  | content
  | tag
  | value
  deriving DecidableEq, Repr

namespace Zone

/-- Where a reader is behind a character: `<` opens a tag and `>` closes it, and inside of a tag a
    quote opens the value of an attribute, which the next quote closes. -/
def next : Zone → Char → Zone
  | .content, '<' => .tag
  | .tag, '>' => .content
  | .tag, '"' => .value
  | .value, '"' => .tag
  | z, _ => z

/-- The zone in which a reader finds each character. What opens or closes is part of the tag. -/
def read : Zone → List Char → List Zone
  | _, [] => []
  | z, c :: cs => (if z.next c = z then z else .tag) :: read (z.next c) cs

section

variable {z : Zone} {c : Char} {cs ds : List Char}

/-- Only three characters open or close anything. -/
theorem next_of_ne (h : c ≠ '<' ∧ c ≠ '>' ∧ c ≠ '"') (z : Zone) : z.next c = z := by
  obtain ⟨hlt, hgt, hquot⟩ := h
  unfold next
  split <;> first | rfl | contradiction

theorem next_tag (h : c ≠ '>' ∧ c ≠ '"') : tag.next c = .tag := by
  obtain ⟨hgt, hquot⟩ := h
  unfold next
  split <;> first | rfl | contradiction

theorem read_cons_of_next (h : z.next c = z) : z.read (c :: cs) = z :: z.read cs := by
  rw [read, if_pos h, h]

theorem read_append (z : Zone) (cs ds : List Char) :
    z.read (cs ++ ds) = z.read cs ++ (cs.foldl next z).read ds := by
  induction cs generalizing z with
  | nil => rfl
  | cons c cs ih => rw [List.cons_append, read, read, ih, List.foldl_cons, List.cons_append]

end

end Zone

/-! ## 2. Characters with their zones -/

/-- The characters of a text, written for one zone. -/
def Zone.chars (z : Zone) (s : String) : List (Char × Zone) := s.toList.map (·, z)

/-- The characters of an attribute behind a tag. -/
def attrChars : String × Option String → List (Char × Zone)
  | (name, none) => Zone.tag.chars " " ++ Zone.tag.chars name
  | (name, some value) =>
    Zone.tag.chars " " ++ Zone.tag.chars name ++ Zone.tag.chars "=\"" ++
      Zone.value.chars (Text.escape value) ++ Zone.tag.chars "\""

mutual

/-- The characters of a page, each with the zone for which it is written. -/
def chars : Html → List (Char × Zone)
  | .text content => Zone.content.chars (Text.escape content)
  | .element tag attrs children =>
    Zone.tag.chars "<" ++ Zone.tag.chars tag ++ attrs.flatMap attrChars ++ Zone.tag.chars ">" ++
      charsAll children ++ Zone.tag.chars "</" ++ Zone.tag.chars tag ++ Zone.tag.chars ">"

/-- The characters of pages one behind the other. -/
def charsAll : List Html → List (Char × Zone)
  | [] => []
  | p :: ps => chars p ++ charsAll ps

end

@[simp] theorem Zone.map_fst_chars (z : Zone) (s : String) : (z.chars s).map Prod.fst = s.toList := by
  rw [chars, List.map_map]
  exact List.map_id _

theorem map_fst_attrChars (a : String × Option String) :
    (attrChars a).map Prod.fst = (printAttr a).toList := by
  obtain ⟨name, value⟩ := a
  cases value <;> simp [attrChars, printAttr]

theorem map_fst_flatMap_attrChars (attrs : List (String × Option String)) :
    (attrs.flatMap attrChars).map Prod.fst = (String.join (attrs.map printAttr)).toList := by
  induction attrs with
  | nil => rfl
  | cons a attrs ih =>
    rw [List.flatMap_cons, List.map_append, map_fst_attrChars, ih, List.map_cons, String.join_cons,
      String.toList_append]

mutual

/-- **What is written is these characters.** -/
theorem map_fst_chars : ∀ p : Html, (chars p).map Prod.fst = p.print.toList
  | .text content => by rw [chars, print, Zone.map_fst_chars]
  | .element tag attrs children => by
    simp [chars, print, map_fst_flatMap_attrChars, map_fst_charsAll children]

theorem map_fst_charsAll : ∀ ps : List Html, (charsAll ps).map Prod.fst = (printAll ps).toList
  | [] => rfl
  | p :: ps => by
    rw [charsAll, printAll, List.map_append, String.toList_append, map_fst_chars p,
      map_fst_charsAll ps]

end

/-! ## 3. Characters that move no reader -/

/-- No character of a content or of a value moves a reader, wherever it is. -/
def Still (cs : List (Char × Zone)) : Prop := ∀ c ∈ cs, c.2 ≠ .tag → ∀ z : Zone, z.next c.1 = z

section

variable {cs ds : List (Char × Zone)}

theorem Still.append (hcs : Still cs) (hds : Still ds) : Still (cs ++ ds) :=
  List.forall_mem_append.mpr ⟨hcs, hds⟩

theorem still_tag (s : String) : Still (Zone.tag.chars s) := by
  intro c hc hne
  obtain ⟨d, -, rfl⟩ := List.mem_map.mp hc
  exact absurd rfl hne

theorem still_escape (z : Zone) (s : String) : Still (z.chars (Text.escape s)) := by
  intro c hc _
  obtain ⟨d, hd, rfl⟩ := List.mem_map.mp hc
  exact Zone.next_of_ne (Text.ne_of_mem_escape hd)

theorem still_attrChars (a : String × Option String) : Still (attrChars a) := by
  obtain ⟨name, value⟩ := a
  have hname := (still_tag " ").append (still_tag name)
  cases value with
  | none => exact hname
  | some value =>
    exact ((hname.append (still_tag "=\"")).append (still_escape .value value)).append (still_tag "\"")

theorem still_flatMap_attrChars (attrs : List (String × Option String)) :
    Still (attrs.flatMap attrChars) := by
  intro c hc
  obtain ⟨a, -, ha⟩ := List.mem_flatMap.mp hc
  exact still_attrChars a c ha

mutual

theorem still_chars : ∀ p : Html, Still (chars p)
  | .text content => still_escape .content content
  | .element tag attrs children => by
    have hopen := ((still_tag "<").append (still_tag tag)).append (still_flatMap_attrChars attrs)
    have hinside := (hopen.append (still_tag ">")).append (still_charsAll children)
    exact ((hinside.append (still_tag "</")).append (still_tag tag)).append (still_tag ">")

/-- **Contents and values open and close nothing**, whatever else is on the page. -/
theorem still_charsAll : ∀ ps : List Html, Still (charsAll ps)
  | [] => List.forall_mem_nil _
  | p :: ps => (still_chars p).append (still_charsAll ps)

end

/-- What goes with the characters of the tags, without that of contents and values. -/
def marksOf {α : Type} (cs : List (α × Zone)) : List α := (cs.filter (·.2 = .tag)).map Prod.fst

/-- **The tags are read as if there were no contents and no values.** -/
theorem marksOf_read (h : Still cs) (z : Zone) :
    marksOf ((z.read (cs.map Prod.fst)).zip (cs.map Prod.snd)) = z.read (marksOf cs) := by
  induction cs generalizing z with
  | nil => rfl
  | cons c cs ih =>
    obtain ⟨c, written⟩ := c
    obtain ⟨hc, hcs⟩ := List.forall_mem_cons.mp h
    by_cases hw : written = .tag
    · have hrest := ih hcs (z.next c)
      subst hw
      simp only [marksOf, List.map_cons, Zone.read, List.zip_cons_cons, decide_true,
        List.filter_cons_of_pos] at hrest ⊢
      rw [hrest]
    · have hnext : z.next c = z := hc hw z
      have hrest := ih hcs z
      simp only [marksOf, List.map_cons, Zone.read_cons_of_next hnext, List.zip_cons_cons, hw,
        decide_false, Bool.false_eq_true, not_false_eq_true, List.filter_cons_of_neg] at hrest ⊢
      rw [hrest]

end

/-! ## 4. Characters that are found where they were written -/

/-- A reader that comes from one zone finds every character in its zone and ends in another one. -/
structure Reads (z z' : Zone) (cs : List (Char × Zone)) : Prop where
  zones : z.read (cs.map Prod.fst) = cs.map Prod.snd
  ends : (cs.map Prod.fst).foldl Zone.next z = z'

section

variable {z z' z'' : Zone} {cs ds : List (Char × Zone)}

theorem Reads.append (hcs : Reads z z' cs) (hds : Reads z' z'' ds) : Reads z z'' (cs ++ ds) where
  zones := by rw [List.map_append, List.map_append, Zone.read_append, hcs.zones, hcs.ends, hds.zones]
  ends := by rw [List.map_append, List.foldl_append, hcs.ends, hds.ends]

/-- What does not move a reader is found where the reader is. -/
theorem reads_of_next {s : String} (h : ∀ c ∈ s.toList, z.next c = z) : Reads z z (z.chars s) := by
  rw [Zone.chars]
  generalize s.toList = cs at h ⊢
  induction cs with
  | nil => exact ⟨rfl, rfl⟩
  | cons c cs ih =>
    obtain ⟨hc, hcs⟩ := List.forall_mem_cons.mp h
    have hrest := ih hcs
    refine ⟨?_, ?_⟩
    · rw [List.map_cons, List.map_cons, List.map_cons, Zone.read_cons_of_next hc, hrest.zones]
    · rw [List.map_cons, List.map_cons, List.foldl_cons, hc, hrest.ends]

theorem reads_escape (z : Zone) (s : String) : Reads z z (z.chars (Text.escape s)) :=
  reads_of_next fun _ hc => Zone.next_of_ne (Text.ne_of_mem_escape hc) z

/-- A name that neither closes the tag in which it stands nor opens a value. -/
def plainName (name : String) : Bool := name.toList.all fun c => c != '>' && c != '"'

theorem reads_name {name : String} (h : plainName name = true) :
    Reads .tag .tag (Zone.tag.chars name) := by
  refine reads_of_next fun c hc => Zone.next_tag ?_
  have hplain := List.all_eq_true.mp h c hc
  rw [Bool.and_eq_true, bne_iff_ne, bne_iff_ne] at hplain
  exact hplain

theorem reads_attrChars {a : String × Option String} (h : plainName a.1 = true) :
    Reads .tag .tag (attrChars a) := by
  obtain ⟨name, value⟩ := a
  have hblank : Reads .tag .tag (Zone.tag.chars " ") := ⟨rfl, rfl⟩
  have hname := hblank.append (reads_name h)
  cases value with
  | none => exact hname
  | some value =>
    have hopen : Reads .tag .value (Zone.tag.chars "=\"") := ⟨rfl, rfl⟩
    have hclose : Reads .value .tag (Zone.tag.chars "\"") := ⟨rfl, rfl⟩
    exact ((hname.append hopen).append (reads_escape .value value)).append hclose

theorem reads_flatMap_attrChars {attrs : List (String × Option String)}
    (h : ∀ a ∈ attrs, plainName a.1 = true) : Reads .tag .tag (attrs.flatMap attrChars) := by
  induction attrs with
  | nil => exact ⟨rfl, rfl⟩
  | cons a attrs ih =>
    obtain ⟨ha, hattrs⟩ := List.forall_mem_cons.mp h
    rw [List.flatMap_cons]
    exact (reads_attrChars ha).append (ih hattrs)

end

mutual

/-- All names on a page are plain. -/
def plainNames : Html → Bool
  | .text _ => true
  | .element tag attrs children =>
    plainName tag && attrs.all (plainName ·.1) && plainNamesAll children

/-- All names on pages are plain. -/
def plainNamesAll : List Html → Bool
  | [] => true
  | p :: ps => plainNames p && plainNamesAll ps

end

mutual

theorem reads_chars : ∀ p : Html, p.plainNames = true → Reads .content .content (chars p)
  | .text content, _ => reads_escape .content content
  | .element tag attrs children, h => by
    rw [plainNames, Bool.and_eq_true, Bool.and_eq_true] at h
    obtain ⟨⟨htag, hattrs⟩, hchildren⟩ := h
    have hopen : Reads .content .tag (Zone.tag.chars "<") := ⟨rfl, rfl⟩
    have hclose : Reads .tag .content (Zone.tag.chars ">") := ⟨rfl, rfl⟩
    have hend : Reads .content .tag (Zone.tag.chars "</") := ⟨rfl, rfl⟩
    have hstart := (hopen.append (reads_name htag)).append
      (reads_flatMap_attrChars (List.all_eq_true.mp hattrs))
    have hinside := (hstart.append hclose).append (reads_charsAll children hchildren)
    exact ((hinside.append hend).append (reads_name htag)).append hclose

/-- **A reader finds what was written**, when all names are plain. -/
theorem reads_charsAll : ∀ ps : List Html, plainNamesAll ps = true →
    Reads .content .content (charsAll ps)
  | [], _ => ⟨rfl, rfl⟩
  | p :: ps, h => by
    rw [plainNamesAll, Bool.and_eq_true] at h
    exact (reads_chars p h.1).append (reads_charsAll ps h.2)

end

/-- A text is written from pages so that nothing in contents and values opens or closes anything. -/
structure Safe (text : String) (ps : List Html) : Prop where
  /-- The text consists of the characters of the pages. -/
  written : text.toList = (charsAll ps).map Prod.fst
  /-- No character of a content or of a value moves a reader, wherever it is. -/
  still : ∀ c ∈ charsAll ps, c.2 ≠ .tag → ∀ z : Zone, z.next c.1 = z
  /-- The tags are read as if there were no contents and no values. -/
  tags : ∀ z : Zone, marksOf ((z.read text.toList).zip ((charsAll ps).map Prod.snd)) =
    z.read (marksOf (charsAll ps))
  /-- With plain names every character is found in the zone for which it was written. -/
  zones : plainNamesAll ps = true →
    Zone.content.read text.toList = (charsAll ps).map Prod.snd

theorem safe_printAll (ps : List Html) : Safe (printAll ps) ps where
  written := (map_fst_charsAll ps).symm
  still := still_charsAll ps
  tags z := by rw [← map_fst_charsAll, marksOf_read (still_charsAll ps)]
  zones h := by rw [← map_fst_charsAll, (reads_charsAll ps h).zones]

end Html

/-! ## 5. What a host writes -/

namespace Host

/-- A node with what is below it as a page, nothing for an unknown node; `fuel` bounds the depth. -/
def pagesFrom (h : Host) : Nat → Handle → List Html
  | 0, _ => []
  | fuel + 1, n =>
    match h.get? n with
    | none => []
    | some ⟨.text content, _, _, _, _⟩ => [.text content]
    | some ⟨.element tag, attrs, _, children, _⟩ =>
      [.element tag (attrs.filterMap Attr.shown?) (children.flatMap (pagesFrom h fuel))]

/-- A node with everything below it as a page. -/
def pages (h : Host) (n : Handle) : List Html := h.pagesFrom h.nodes.size n

theorem htmlFrom_eq_printAll (h : Host) (fuel : Nat) (n : Handle) :
    h.htmlFrom fuel n = Html.printAll (h.pagesFrom fuel n) := by
  induction fuel generalizing n with
  | zero => rfl
  | succ fuel ih =>
    rw [htmlFrom, pagesFrom]
    cases h.get? n with
    | none => rfl
    | some nd =>
      obtain ⟨content, attrs, listeners, children, parent⟩ := nd
      cases content with
      | text content => exact String.append_empty.symm
      | element tag =>
        dsimp only
        rw [Html.printAll, Html.printAll, Html.print, String.append_empty, join_attrHtml,
          Html.printAll_flatMap ih]

/-- **Escaping is safe and loses nothing.** An escaped text is the text with four characters replaced
    in turn; none of `<`, `>` and the double quote is left in it, every `&` in it begins one of four
    entities, and reading the entities gives the text back, so different texts are escaped
    differently. And whatever a host holds, in what it writes for a node, and for what is below a
    node, no content and no value of an attribute opens or closes a tag or an attribute. -/
theorem html_safe :
    (∀ s : String,
      Text.escape s = (((s.replace '&' "&amp;").replace '<' "&lt;").replace '>' "&gt;").replace
          '"' "&quot;" ∧
        (∀ c ∈ (Text.escape s).toList, c ≠ '<' ∧ c ≠ '>' ∧ c ≠ '"') ∧
        (∀ before behind, (Text.escape s).toList = before ++ '&' :: behind →
          ∃ e ∈ ["&amp;", "&lt;", "&gt;", "&quot;"], e.toList <+: '&' :: behind) ∧
        Text.decode (Text.escape s) = s) ∧
      Function.Injective Text.escape ∧
      ∀ (h : Host) (n : Handle), Html.Safe (h.toHtml n) (h.pages n) ∧
        Html.Safe (h.innerHtml n) ((h.children n).flatMap h.pages) := by
  refine ⟨fun s => ⟨Text.escape_eq_replace s, fun c => Text.ne_of_mem_escape,
    fun before behind => Text.entity_at_ampersand_of_escape, Text.decode_escape s⟩,
    Text.escape_injective, fun h n => ?_⟩
  have hwritten : ∀ n, h.toHtml n = Html.printAll (h.pages n) :=
    h.htmlFrom_eq_printAll h.nodes.size
  refine ⟨?_, ?_⟩
  · rw [hwritten n]
    exact Html.safe_printAll _
  · rw [innerHtml, Html.printAll_flatMap hwritten]
    exact Html.safe_printAll _

/-- A paragraph whose title and whose text look like markup. -/
def lookalike : Host :=
  after [.create (.element "p"), .append root 1, .setAttr 1 "title" (.string "\"><b a=\""),
    .create (.text "</p><i>&lt;"), .append 1 2]

theorem html_safe_lookalike :
    lookalike.toHtml root = "<body><p title=\"&quot;&gt;&lt;b a=&quot;\">" ++
        "&lt;/p&gt;&lt;i&gt;&amp;lt;</p></body>" ∧
      Html.plainNamesAll (lookalike.pages root) = true ∧
      Html.Zone.content.read (lookalike.toHtml root).toList =
        (Html.charsAll (lookalike.pages root)).map Prod.snd := by
  have hplain : Html.plainNamesAll (lookalike.pages root) = true := by decide +kernel
  exact ⟨by decide +kernel, hplain, (html_safe.2.2 lookalike root).1.zones hplain⟩

end Host

end Trellis
