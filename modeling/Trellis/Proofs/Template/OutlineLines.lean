import Mathlib.Algebra.GroupWithZero.Nat
import Trellis.Proofs.Template.Numbering
import Trellis.Proofs.Template.Spelled

/-!
# The lines of an outline

An outline has a line for each row, in the order in which a walk through the template meets the rows,
with two blanks for each level. A line stays one line as long as there is no line break in it. Tags,
the names of attributes and of events are spelled without one, and what stands between quotes has its
line breaks written as `\n`. The names that an outline writes as they are (`Template.unquoted`) come
out of values of attributes or out of what the template is built against, and every line break in
one of them is one more line.

- `walk_rows`: the walk meets every row once, in the order of the rows,
- `outline_lines`: how many lines there are, and which.
-/

namespace Trellis

/-! ## 1. Lines of a text -/

namespace Text

/-- The lines of a text. A line break ends a line; what stands behind the last one is a line unless it
    is empty. -/
def linesOf : List Char → List (List Char)
  | [] => []
  | c :: cs =>
    if c = '\n' then [] :: linesOf cs
    else
      match linesOf cs with
      | [] => [[c]]
      | l :: ls => (c :: l) :: ls

/-- The lines of a text. -/
def lines (s : String) : List String := (linesOf s.toList).map String.ofList

/-- How many line breaks a text has. -/
def breaks (s : String) : Nat := s.toList.count '\n'

theorem linesOf_append {l : List Char} (hl : '\n' ∉ l) (rest : List Char) :
    linesOf (l ++ '\n' :: rest) = l :: linesOf rest := by
  induction l with
  | nil => rw [List.nil_append, linesOf, if_pos rfl]
  | cons c l ih =>
    rw [List.mem_cons, not_or] at hl
    rw [List.cons_append, linesOf, if_neg (Ne.symm hl.1), ih hl.2]

/-- A text that ends with a line break has as many lines in front of what follows as it has breaks. -/
theorem length_linesOf_append (l rest : List Char) :
    (linesOf (l ++ '\n' :: rest)).length = l.count '\n' + 1 + (linesOf rest).length := by
  induction l with
  | nil =>
    rw [List.nil_append, linesOf, if_pos rfl, List.length_cons, List.count_nil]
    omega
  | cons c l ih =>
    rw [List.cons_append, linesOf]
    by_cases hc : c = '\n'
    · rw [if_pos hc, List.length_cons, ih, hc, List.count_cons_self]
      omega
    · have hcount : (c :: l).count '\n' = l.count '\n' := List.count_cons_of_ne (by simpa using hc)
      rw [if_neg hc, hcount, ← ih]
      cases hlines : linesOf (l ++ '\n' :: rest) with
      | nil =>
        rw [hlines, List.length_nil] at ih
        omega
      | cons _ _ => rfl

@[simp] theorem breaks_append (s t : String) : breaks (s ++ t) = breaks s + breaks t := by
  rw [breaks, String.toList_append, List.count_append, breaks, breaks]

theorem breaks_join (ss : List String) : breaks (String.join ss) = (ss.map breaks).sum := by
  induction ss with
  | nil => rfl
  | cons s ss ih => rw [String.join_cons, breaks_append, ih, List.map_cons, List.sum_cons]

theorem breaks_eq_zero_iff {s : String} : breaks s = 0 ↔ '\n' ∉ s.toList := List.count_eq_zero

theorem breaks_of_spelled {s : String} (h : Markup.Spelled s) : breaks s = 0 :=
  breaks_eq_zero_iff.mpr fun hmem => absurd (h _ hmem) (by decide)

theorem newline_not_mem_toDigits (n : Nat) : '\n' ∉ Nat.toDigits 16 n := by
  have hdigit : ∀ d < 16, '\n' ≠ Nat.digitChar d := by decide
  induction n using Nat.strong_induction_on with
  | _ n ih =>
    rw [Nat.toDigits_eq_if (by decide)]
    split
    · rename_i hn
      exact mt List.mem_singleton.mp (hdigit n hn)
    · rename_i hn
      rw [List.mem_append, not_or]
      exact ⟨ih _ (by omega), mt List.mem_singleton.mp (hdigit _ (Nat.mod_lt n (by decide)))⟩

theorem newline_not_mem_quotedChar (c : Char) : '\n' ∉ quotedChar c := by
  unfold quotedChar
  split
  case h_7 hne _ _ _ =>
    split
    · rw [List.mem_append, List.mem_append, not_or, not_or]
      exact ⟨⟨by decide, newline_not_mem_toDigits _⟩, by decide⟩
    · exact mt List.mem_singleton.mp (Ne.symm hne)
  all_goals decide

/-- **There is no line break between quotes.** -/
@[simp] theorem breaks_quoted (s : String) : breaks (quoted s) = 0 := by
  rw [breaks_eq_zero_iff, quoted, String.toList_ofList]
  intro hmem
  rcases List.mem_cons.mp hmem with h | hmem
  · exact absurd h (by decide)
  · rcases List.mem_append.mp hmem with hmem | hmem
    · obtain ⟨c, -, hc⟩ := List.mem_flatMap.mp hmem
      exact newline_not_mem_quotedChar c hc
    · exact absurd hmem (by decide)

end Text

open Text (breaks lines)

/-! ## 2. Names that are written as they are -/

/-- The names in the line of an element that no quotes stand around and that are not spelled with the
    characters of names only. -/
def Element.unquoted (e : Element) : List String :=
  e.kind.component?.toList ++ (Events.all e.events).map Binding.handler ++ e.module.toList

/-- The names in the lines of a loop that no quotes stand around. -/
def Loop.unquoted (l : Loop) : List String :=
  [l.item, l.index] ++
    match l.key with
    | some (.field path) => [path]
    | _ => []

mutual

/-- The names that the lines of a tree have without quotes. -/
def Node.unquoted : Node → List String
  | .text _ => []
  | .element e children => e.unquoted ++ Node.unquotedAll children
  | .branch _ body => body.unquoted
  | .loop l body => l.unquoted ++ body.unquoted

/-- The names that the lines of trees have without quotes. -/
def Node.unquotedAll : List Node → List String
  | [] => []
  | n :: rest => n.unquoted ++ Node.unquotedAll rest

end

/-- The names that an outline has without quotes. -/
def Template.unquoted (t : Template) : List String := Node.unquotedAll t.children

/-- How many line breaks there are in names. -/
def breaksIn (names : List String) : Nat := (names.map breaks).sum

@[simp] theorem breaksIn_append (ns ms : List String) :
    breaksIn (ns ++ ms) = breaksIn ns + breaksIn ms := by
  rw [breaksIn, List.map_append, List.sum_append, breaksIn, breaksIn]

/-! ## 3. Line breaks in rows -/

@[simp] theorem breaks_labelled {label : String} (hlabel : breaks label = 0) (p : Option Program) :
    breaks (labelled label p) = 0 := by
  cases p with
  | none => rfl
  | some p =>
    rw [labelled, Text.breaks_append, Text.breaks_append, Text.breaks_append, hlabel,
      Text.breaks_quoted]
    rfl

theorem breaks_branch (b : Branch) : breaks b.detail = 0 := by
  rw [Branch.detail, Text.breaks_append, Text.breaks_append, breaks_labelled rfl, breaks_labelled rfl]
  split <;> rfl

@[simp] theorem breaksIn_singleton (name : String) : breaksIn [name] = breaks name := by
  rw [breaksIn, List.map_singleton, List.sum_singleton]

theorem breaks_round (l : Loop) : breaks l.roundDetail = breaksIn l.unquoted := by
  have hkey : breaks (KeySpec.detail l.key) = breaksIn (l.unquoted.drop 2) := by
    rw [Loop.unquoted]
    cases l.key with
    | none => rfl
    | some key =>
      cases key with
      | field path =>
        rw [KeySpec.detail, Text.breaks_append]
        exact (Nat.zero_add _).trans (breaksIn_singleton path).symm
      | whole => rfl
      | computed p => exact breaks_labelled rfl _
  have hnames : l.unquoted = [l.item] ++ [l.index] ++ l.unquoted.drop 2 := rfl
  rw [Loop.roundDetail, hnames, breaksIn_append, breaksIn_append, breaksIn_singleton,
    breaksIn_singleton, ← hkey, Text.breaks_append, Text.breaks_append, Text.breaks_append,
    Text.breaks_append, show breaks " item=" = 0 from rfl, show breaks " index=" = 0 from rfl]
  omega

theorem breaks_binding {b : Binding} (hb : Markup.Spelled b.name) :
    breaks b.detail = breaks b.handler := by
  have hcapture : breaks (if b.capture then "capture-" else "") = 0 := by split <;> rfl
  have hcatch : breaks (if b.catches then "catch" else "bind") = 0 := by split <;> rfl
  simp only [Binding.detail, Text.breaks_append, hcapture, hcatch, Text.breaks_of_spelled hb,
    show breaks " " = 0 from rfl, show breaks ":" = 0 from rfl, show breaks "=" = 0 from rfl,
    Nat.zero_add]

/-- A name with a label, if there is one. -/
theorem breaks_optional {label : String} (hlabel : breaks label = 0) (name : Option String) :
    breaks (name.elim "" (label ++ ·)) = breaksIn name.toList := by
  cases name with
  | none => rfl
  | some name => rw [Option.elim_some, Text.breaks_append, hlabel, Nat.zero_add, Option.toList_some,
      breaksIn_singleton]

theorem breaks_element {e : Element} (he : e.Spelled) : breaks e.detail = breaksIn e.unquoted := by
  have hdetail : e.detail = (if e.tag.isEmpty then "" else " <" ++ e.tag ++ ">")
      ++ e.kind.component?.elim "" (" component=" ++ ·)
      ++ String.join (e.attrs.map fun a => labelled a.1 (some a.2))
      ++ String.join ((Events.all e.events).map Binding.detail)
      ++ e.module.elim "" (" module=" ++ ·) := by
    rw [Element.detail]
    cases e.kind.component? <;> cases e.module <;> rfl
  have htag : breaks (if e.tag.isEmpty then "" else " <" ++ e.tag ++ ">") = 0 := by
    split
    · rfl
    · rw [Text.breaks_append, Text.breaks_append, Text.breaks_of_spelled he.tag]
      rfl
  have hattrs : breaks (String.join (e.attrs.map fun a => labelled a.1 (some a.2))) = 0 := by
    rw [Text.breaks_join, List.map_map]
    refine List.sum_eq_zero_iff_forall_eq_nat.mpr fun n hmem => ?_
    obtain ⟨a, ha, rfl⟩ := List.mem_map.mp hmem
    exact breaks_labelled (Text.breaks_of_spelled (he.attrs a ha)) _
  have hevents : breaks (String.join ((Events.all e.events).map Binding.detail)) =
      breaksIn ((Events.all e.events).map Binding.handler) := by
    rw [Text.breaks_join, breaksIn, List.map_map, List.map_map]
    exact congrArg List.sum (List.map_congr_left fun b hb => breaks_binding (he.events b hb))
  rw [hdetail, Element.unquoted, breaksIn_append, breaksIn_append, Text.breaks_append,
    Text.breaks_append, Text.breaks_append, Text.breaks_append, htag, hattrs, hevents,
    breaks_optional rfl, breaks_optional rfl]
  omega

mutual

/-- **The line breaks in the details of rows are those in names without quotes.** -/
theorem breaks_rows : ∀ (n : Node) (s : Spot) (chain : Option Nat), (∀ e ∈ n.elements, e.Spelled) →
    ((n.rows s chain).map fun r => breaks r.detail).sum = breaksIn n.unquoted
  | .text p, s, chain, _ => by
    rw [Node.rows, List.map_singleton, List.sum_singleton]
    exact (Text.breaks_append _ _).trans (by rw [Text.breaks_quoted]; rfl)
  | .element e children, s, chain, h => by
    rw [Node.elements] at h
    obtain ⟨he, hchildren⟩ := List.forall_mem_cons.mp h
    rw [Node.rows, List.map_cons, List.sum_cons, breaks_rowsAll children _ _ _ _ _ hchildren,
      Node.unquoted, breaksIn_append, ← breaks_element he]
    rfl
  | .branch b body, s, chain, h => by
    rw [Node.rows, List.map_cons, List.sum_cons, breaks_rows body _ _ h, Node.unquoted]
    exact (congrArg (· + _) (breaks_branch b)).trans (Nat.zero_add _)
  | .loop l body, s, chain, h => by
    have hloop : breaks (labelled "for" (some l.source)) = 0 := breaks_labelled rfl _
    rw [Node.rows, List.map_cons, List.map_cons, List.sum_cons, List.sum_cons, breaks_rows body _ _ h,
      Node.unquoted, breaksIn_append, ← breaks_round l]
    show breaks (labelled "for" (some l.source)) + (breaks l.roundDetail + _) = _
    rw [hloop, Nat.zero_add]

theorem breaks_rowsAll : ∀ (ns : List Node) (parent : Option Nat) (depth id index : Nat)
    (chain : Option Nat), (∀ e ∈ Node.elementsAll ns, e.Spelled) →
    ((rowsAll parent depth id index chain ns).map fun r => breaks r.detail).sum =
      breaksIn (Node.unquotedAll ns)
  | [], _, _, _, _, _, _ => rfl
  | n :: rest, parent, depth, id, index, chain, h => by
    rw [Node.elementsAll] at h
    obtain ⟨hn, hrest⟩ := List.forall_mem_append.mp h
    rw [rowsAll, List.map_append, List.sum_append, breaks_rows n _ _ hn,
      breaks_rowsAll rest _ _ _ _ _ hrest, Node.unquotedAll, breaksIn_append]

end

namespace Template

/-! ## 4. Lines of rows -/

/-- What the line of a row says, indented by its depth. -/
def shown (r : Row) : String :=
  String.ofList (List.replicate (2 * r.depth) ' ') ++ r.kind.name ++ r.detail

/-- How far a line is indented. -/
def indent (line : String) : Nat := (line.toList.takeWhile (· = ' ')).length

theorem line_eq (r : Row) : line r = shown r ++ "\n" := rfl

theorem breaks_shown (r : Row) : breaks (shown r) = breaks r.detail := by
  have hkind : breaks r.kind.name = 0 := by cases r.kind <;> rfl
  have hblanks : breaks (String.ofList (List.replicate (2 * r.depth) ' ')) = 0 := by
    rw [Text.breaks_eq_zero_iff, String.toList_ofList]
    exact fun hmem => absurd (List.eq_of_mem_replicate hmem) (by decide)
  rw [shown, Text.breaks_append, Text.breaks_append, hkind, hblanks, Nat.zero_add]

/-- The name of a kind begins with something else than a blank, so the blanks before it are all. -/
theorem indent_shown (r : Row) : indent (shown r) = 2 * r.depth := by
  have hkind : ∃ c cs, r.kind.name.toList = c :: cs ∧ c ≠ ' ' := by
    cases r.kind <;> exact ⟨_, _, rfl, by decide⟩
  obtain ⟨c, cs, hname, hc⟩ := hkind
  rw [indent, shown, String.toList_append, String.toList_append, String.toList_ofList, hname,
    List.append_assoc, List.cons_append, List.takeWhile_append_of_pos]
  · rw [List.takeWhile_cons_of_neg (by simpa using hc), List.append_nil, List.length_replicate]
  · intro a ha
    simpa using List.eq_of_mem_replicate ha

theorem toList_join_cons (r : Row) (rows : List Row) :
    (String.join ((r :: rows).map line)).toList =
      (shown r).toList ++ '\n' :: (String.join (rows.map line)).toList := by
  rw [List.map_cons, String.join_cons, line_eq, String.toList_append, String.toList_append,
    List.append_assoc]
  rfl

/-- Rows without a line break in them have one line each. -/
theorem lines_join {rows : List Row} (h : ∀ r ∈ rows, breaks (shown r) = 0) :
    lines (String.join (rows.map line)) = rows.map shown := by
  induction rows with
  | nil => rfl
  | cons r rows ih =>
    obtain ⟨hr, hrows⟩ := List.forall_mem_cons.mp h
    rw [lines, toList_join_cons, Text.linesOf_append (Text.breaks_eq_zero_iff.mp hr), List.map_cons,
      String.ofList_toList, List.map_cons, ← lines, ih hrows]

/-- Each line break in a row is one more line. -/
theorem length_lines_join (rows : List Row) :
    (lines (String.join (rows.map line))).length =
      rows.length + (rows.map fun r => breaks (shown r)).sum := by
  induction rows with
  | nil => rfl
  | cons r rows ih =>
    rw [lines, List.length_map] at ih ⊢
    rw [toList_join_cons, Text.length_linesOf_append, ih, ← Text.breaks, List.length_cons,
      List.map_cons, List.sum_cons]
    omega

/-! ## 5. Walking -/

mutual

/-- A walk through the rows from the one with a number, at a level: this row, and then the walks from
    those that stand in it, in their order and one level deeper. It is written down as the numbers of
    the rows that it meets, each with its level. -/
inductive Walk (t : Template) : Nat → Nat → List (Nat × Nat) → Prop
  | row {id level : Nat} {r : Row} {inside : List (Nat × Nat)} (hr : t.rows[id]? = some r)
      (hinside : Walks t r.children (level + 1) inside) : Walk t id level ((id, level) :: inside)

/-- Walks from rows at one level, one behind the other. -/
inductive Walks (t : Template) : List Nat → Nat → List (Nat × Nat) → Prop
  | nil {level : Nat} : Walks t [] level []
  | cons {id level : Nat} {ids : List Nat} {first others : List (Nat × Nat)}
      (hfirst : Walk t id level first) (hothers : Walks t ids level others) :
      Walks t (id :: ids) level (first ++ others)

end

/-- A row as a walk meets it. -/
def met (r : Row) : Nat × Nat := (r.id, r.depth)

theorem Walks.single {t : Template} {id level : Nat} {visited : List (Nat × Nat)}
    (h : Walk t id level visited) : Walks t [id] level visited := by
  have hall := Walks.cons h .nil
  rwa [List.append_nil] at hall

section

variable {t : Template}

mutual

/-- **A walk from a tree meets its rows in their order.** -/
theorem walk_rows : ∀ (n : Node) {s : Spot} {chain : Option Nat}, t.Stands s chain n →
    Walk t s.id s.depth ((n.rows s chain).map met)
  | .text p, s, chain, h => .row h.getElem?_rows .nil
  | .element e children, s, chain, h => by
    refine .row h.getElem?_rows (walks_rowsAll children fun before n after hsplit => ?_)
    subst hsplit
    rw [Nat.zero_add]
    exact .child h
  | .branch b body, s, chain, h => .row h.getElem?_rows (.single (walk_rows body (.body h)))
  | .loop l body, s, chain, h =>
    .row h.getElem?_rows (.single (.row h.getElem?_round.1 (.single (walk_rows body (.round h)))))

/-- Trees one behind the other, each of which stands where the sizes of those before it say. -/
theorem walks_rowsAll : ∀ (ns : List Node) {parent : Option Nat} {depth id index : Nat}
    {chain : Option Nat},
    (∀ before n after, ns = before ++ n :: after →
      t.Stands ⟨id + sizeAll before, parent, index + before.length, depth⟩
        (chainBehind id chain before) n) →
    Walks t (idsFrom id ns) depth ((rowsAll parent depth id index chain ns).map met)
  | [], _, _, _, _, _, _ => .nil
  | n :: rest, parent, depth, id, index, chain, h => by
    rw [idsFrom, rowsAll, List.map_append]
    refine .cons (walk_rows n (h [] n rest rfl)) (walks_rowsAll rest fun before m after hsplit => ?_)
    have hm := h (n :: before) m after (by rw [hsplit]; rfl)
    rwa [sizeAll, List.length_cons, chainBehind, ← Nat.add_assoc, Nat.add_comm before.length,
      ← Nat.add_assoc] at hm

end

/-- **The walk from the first row meets all rows in their order.** -/
theorem walk_all (t : Template) : Walk t 0 0 (t.rows.map met) := by
  refine .row t.getElem?_root (walks_rowsAll t.children fun before n after hsplit => ?_)
  rw [Nat.zero_add]
  exact .top hsplit

end

theorem ids_all (t : Template) : t.rows.map Row.id = List.range t.rows.length := by
  refine List.ext_getElem? fun i => ?_
  rw [List.getElem?_map]
  cases hr : t.rows[i]? with
  | none => rw [List.getElem?_eq_none (by simpa using hr)]; rfl
  | some r =>
    rw [Option.map_some, id_of_getElem?_rows hr,
      List.getElem?_range (List.getElem?_eq_some_iff.mp hr).1]

/-! ## 6. Outlines -/

/-- **How many lines an outline has**: one for each row, and one more for each line break in the names
    that stand in it without quotes. -/
theorem length_lines_outline {s : Setting} {name markup : String} {t : Template}
    (ht : Template.ofMarkup s name markup = .ok t) :
    (lines t.outline).length = t.rows.length + breaksIn t.unquoted := by
  have hrows := breaks_rowsAll t.children (some 0) 1 1 0 none fun e he => spelled_of_mem_elements ht he
  rw [outline, length_lines_join]
  simp only [breaks_shown]
  rw [rows, List.map_cons, List.sum_cons, hrows, unquoted]
  exact congrArg (_ + ·) (Nat.zero_add _)

/-- **The outline of a template that is built has a line for each row just when no name that stands in
    it without quotes has a line break.** The walk from the first row meets every row once, in the
    order of the lines. When no such name has a line break, the lines are what their rows say, each of
    them indented by two blanks for each level of its row, and by no more. -/
theorem outline_lines {s : Setting} {name markup : String} {t : Template}
    (ht : Template.ofMarkup s name markup = .ok t) :
    ((lines t.outline).length = t.rows.length ↔ ∀ w ∈ t.unquoted, '\n' ∉ w.toList) ∧
      (∃ visited, Walk t 0 0 visited ∧ visited.map Prod.fst = List.range t.rows.length ∧
        ((∀ w ∈ t.unquoted, '\n' ∉ w.toList) →
          lines t.outline = t.rows.map shown ∧
            (lines t.outline).map indent = visited.map fun v => 2 * v.2)) ∧
      (lines t.outline).length = t.rows.length + breaksIn t.unquoted := by
  have hlength := length_lines_outline ht
  have hnone : breaksIn t.unquoted = 0 ↔ ∀ w ∈ t.unquoted, '\n' ∉ w.toList := by
    simp only [breaksIn, List.sum_eq_zero_iff_forall_eq_nat, List.forall_mem_map,
      Text.breaks_eq_zero_iff]
  refine ⟨?_, ⟨t.rows.map met, walk_all t, ?_, fun hnames => ?_⟩, hlength⟩
  · rw [hlength, ← hnone]
    omega
  · rw [List.map_map]
    exact ids_all t
  · have hrows : ∀ r ∈ t.rows, breaks (shown r) = 0 := by
      have hsum : (t.rows.map fun r => breaks (shown r)).sum = 0 := by
        have hjoin := length_lines_join t.rows
        rw [← outline, hlength, hnone.mpr hnames] at hjoin
        omega
      rw [List.sum_eq_zero_iff_forall_eq_nat] at hsum
      exact fun r hr => hsum _ (List.mem_map_of_mem hr)
    have hlines : lines t.outline = t.rows.map shown := lines_join hrows
    refine ⟨hlines, ?_⟩
    rw [hlines, List.map_map, List.map_map]
    exact List.map_congr_left fun r _ => indent_shown r

/-- A handler with a line break in its name. -/
def twoLineHandler : String := "<p bind:tap=\"a\nb\"></p>"

/-- Its template has two rows, and its outline three lines. -/
theorem outline_lines_twoLineHandler :
    ∃ t, Template.ofMarkup ⟨.standard, [], fun _ => false⟩ "" twoLineHandler = .ok t ∧
      t.rows.length = 2 ∧ (lines t.outline).length = 3 := by
  have hok : ((Template.ofMarkup ⟨.standard, [], fun _ => false⟩ "" twoLineHandler).toOption.map
      fun t => (t.rows.length, breaksIn t.unquoted)) = some (2, 1) := by
    decide +kernel
  obtain ⟨t, ht, hcounts⟩ := Option.map_eq_some_iff.mp hok
  obtain ⟨hrows, hbreaks⟩ := Prod.mk.inj hcounts
  have hbuilt : Template.ofMarkup ⟨.standard, [], fun _ => false⟩ "" twoLineHandler = .ok t := by
    cases hmarkup : Template.ofMarkup ⟨.standard, [], fun _ => false⟩ "" twoLineHandler with
    | ok t' =>
      rw [hmarkup] at ht
      rw [Option.some.inj ht]
    | error e =>
      rw [hmarkup] at ht
      cases ht
  refine ⟨t, hbuilt, hrows, ?_⟩
  rw [(outline_lines hbuilt).2.2, hrows, hbreaks]

end Template

end Trellis
