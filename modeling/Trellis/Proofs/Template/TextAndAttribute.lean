import Trellis.Proofs.Expr.Pieces
import Trellis.Proofs.Expr.Shift
import Trellis.Proofs.Expr.Squeezed
import Trellis.Proofs.Template.Runs
import Trellis.Proofs.Template.Static

/-!
# One source in an attribute and in a text

Between the marks of a region a source is compiled as it stands where it is the value of an attribute.
Where it is a text, the whole text is squeezed before it is cut at its regions, and the expression is
squeezed with it: its texts lose blanks, and a comment that ended with its line ends with the region.
`text_and_attribute` gives the page of both exactly:
- braces at the end of the source stand behind the region (`Piece.split_region`),
- the squeezed region is compiled to what counts of the region (`Program.compiled_oneSpace_iff`),
- the two places of the page make no difference (`toText_textPlace`).
-/

namespace Trellis

open Markup Token Value
open Text (oneSpace)

/-! ## 1. A region with braces behind it -/

namespace Piece

variable {r tail cs : List Char}

/-- A region ends at the first mark that closes it. -/
theorem cut?_closing (h : ¬ closing <:+: r ++ ['\x7d']) (rest : List Char) :
    Text.cut? closing (r ++ closing ++ rest) = some (r, rest) := by
  induction r with
  | nil => rfl
  | cons c r ih =>
    have hcons : ¬ closing <:+: r ++ ['\x7d'] ∧ ¬ closing <+: c :: (r ++ closing ++ rest) :=
      Text.not_pair_cons h rest
    have hnone : Text.after? closing (c :: (r ++ closing ++ rest)) = none :=
      after?_eq_none fun more hmore => hcons.2 ⟨more, hmore.symm⟩
    rw [List.cons_append, List.cons_append, Text.cut?, hnone, ih hcons.1]
    rfl

/-- **A region with braces in front of its end** ends at the first two of them, and the others stand
    behind it. -/
theorem split_region (h : ¬ closing <:+: r ++ ['\x7d']) (htail : ∀ c ∈ tail, c = '\x7d') :
    split (opening ++ (r ++ tail) ++ closing) = .region r :: literal? tail := by
  have hbraces : tail ++ closing = closing ++ tail := by
    obtain ⟨n, rfl⟩ : ∃ n, tail = List.replicate n '\x7d' := ⟨_, List.eq_replicate_of_mem htail⟩
    have hclosing : closing = List.replicate 2 '\x7d' := rfl
    rw [hclosing, List.replicate_append_replicate, List.replicate_append_replicate, Nat.add_comm]
  have hinside : r ++ tail ++ closing = r ++ closing ++ tail := by
    rw [List.append_assoc, hbraces, List.append_assoc]
  have hopening : ¬ opening <:+: tail := fun hin =>
    absurd (htail '\x7b' (hin.subset List.mem_cons_self)) (by decide)
  have hlength : (opening ++ (r ++ tail ++ closing)).length = (r ++ tail ++ closing).length + 1 + 1 := by
    rw [List.length_append, Nat.add_comm]
    rfl
  have hcut : Text.cut? opening (opening ++ (r ++ tail ++ closing)) = some ([], r ++ tail ++ closing) := rfl
  rw [split, List.append_assoc, hlength, splitFrom, hcut]
  dsimp only
  rw [hinside, cut?_closing h]
  dsimp only
  rw [splitFrom_of_not_opening hopening]
  rfl

/-- A source that is put between the marks of a region, without the braces at its end. -/
def within (cs : List Char) : List Char := cs.rdropWhile (· == '\x7d')

/-- The braces at the end of a source, which stand behind its region. -/
def behind (cs : List Char) : List Char := cs.rtakeWhile (· == '\x7d')

theorem within_append_behind (cs : List Char) : within cs ++ behind cs = cs :=
  List.rdropWhile_append_rtakeWhile

theorem eq_of_mem_behind {c : Char} (h : c ∈ behind cs) : c = '\x7d' :=
  by simpa using List.mem_rtakeWhile_imp h

theorem not_closing_within (h : ¬ closing <:+: cs) : ¬ closing <:+: within cs ++ ['\x7d'] := by
  induction cs using List.reverseRecOn with
  | nil => decide
  | append_singleton cs c ih =>
    have hcs : ¬ closing <:+: cs := fun hin => h (hin.trans (List.prefix_append cs [c]).isInfix)
    by_cases hc : c = '\x7d'
    · rw [within, List.rdropWhile_concat_pos _ _ _ (by simp [hc])]
      exact ih hcs
    · rw [within, List.rdropWhile_concat_neg _ _ _ (by simp [hc])]
      intro hin
      rcases List.infix_concat_iff.mp hin with ⟨front, hfront⟩ | hin
      · have hlast : front ++ ['\x7d'] ++ ['\x7d'] = cs ++ [c] ++ ['\x7d'] :=
          (List.append_assoc ..).trans hfront
        exact hc (List.append_inj' (List.append_cancel_right hlast) rfl |>.2 |> List.cons.inj |>.1).symm
      · exact h hin

end Piece

/-! ## 2. Programs of one region -/

namespace Program

variable {r tail cs : List Char} {x y z : Expr}

/-- The program of a region with `tail` behind it. -/
def ofRegion (r tail : List Char) (x : Expr) : Program :=
  ⟨String.ofList (Piece.opening ++ (r ++ tail) ++ Piece.closing),
    .expr x :: if tail = [] then [] else [.text (String.ofList tail)]⟩

theorem compileExpr_eq_ok_iff {s : String} : compileExpr s = .ok x ↔ Grammar.parseExpr? s = some x := by
  rw [compileExpr]
  cases Grammar.parseExpr? s <;> simp

theorem compiled_blank_iff (h : ∀ c ∈ r, Text.isBlank c = true) :
    Compiled (.region r) (.expr x) ↔ x = .literal .undefined := by
  constructor
  · intro hx
    cases hx with
    | blank _ => rfl
    | expression hnot _ => exact absurd h hnot
  · rintro rfl
    exact .blank h

theorem compiled_expression_iff (h : ¬ ∀ c ∈ r, Text.isBlank c = true) :
    Compiled (.region r) (.expr x) ↔ Grammar.parseExpr? (String.ofList r) = some x := by
  rw [← compileExpr_eq_ok_iff]
  constructor
  · intro hx
    cases hx with
    | blank hblank => exact absurd hblank h
    | expression _ he => exact he
  · exact .expression h

theorem segment_of_compiled {p : Piece} {seg : Segment} (h : Compiled p seg) : segment p = .ok seg := by
  cases h with
  | literal cs => rfl
  | blank h => rw [segment, if_pos (List.isEmpty_iff.mpr (Text.trimChars_eq_nil_iff.mpr h))]
  | expression h he =>
    rw [segment, if_neg fun hnil => h (Text.trimChars_eq_nil_iff.mp (List.isEmpty_iff.mp hnil)),
      compileExpr_eq_ok_iff.mp he]

/-- A region has one expression. -/
theorem Compiled.unique (hx : Compiled (.region r) (.expr x)) (hy : Compiled (.region r) (.expr y)) :
    x = y := by
  have hsame := (segment_of_compiled hx).symm.trans (segment_of_compiled hy)
  exact Segment.expr.inj (Except.ok.inj hsame)

/-- **What a region with braces behind it is compiled to.** -/
theorem compile_region (h : ¬ Piece.closing <:+: r ++ ['\x7d']) (htail : ∀ c ∈ tail, c = '\x7d')
    {p : Program} :
    compile (String.ofList (Piece.opening ++ (r ++ tail) ++ Piece.closing)) = .ok p ↔
      ∃ x, Compiled (.region r) (.expr x) ∧ p = ofRegion r tail x := by
  have hliterals : segmentsOf (Piece.literal? tail) =
      .ok (if tail = [] then [] else [.text (String.ofList tail)]) := by
    cases tail <;> rfl
  rw [compile, String.toList_ofList, Piece.split_region h htail, map_eq_ok_iff, segmentsOf, hliterals]
  constructor
  · rintro ⟨segs, hsegs, rfl⟩
    split at hsegs
    · cases hsegs
    · rename_i seg hseg
      obtain rfl := Except.ok.inj hsegs
      have hcompiled := compiled_of_segment hseg
      cases hcompiled with
      | blank h => exact ⟨_, .blank h, rfl⟩
      | expression h he => exact ⟨_, .expression h he, rfl⟩
  · rintro ⟨x, hx, rfl⟩
    rw [segment_of_compiled hx]
    exact ⟨_, rfl, rfl⟩

theorem value_ofRegion (m : Machine) (layers : Layers) (place : Place) :
    (ofRegion r tail x).value m layers place =
      if tail = [] then x.value m layers (0 :: place)
      else .string ((x.value m layers (0 :: place)).toText ++ String.ofList tail) := by
  rw [value, ofRegion]
  by_cases htail : tail = []
  · rw [if_pos htail, if_pos htail]
    rfl
  · rw [if_neg htail, if_neg htail]
    simp [joined, segmentValue, Value.toText]

theorem toText_ofRegion (m : Machine) (layers : Layers) (place : Place) :
    ((ofRegion r tail x).value m layers place).toText =
      (x.value m layers (0 :: place)).toText ++ String.ofList tail := by
  rw [value_ofRegion]
  split
  · rename_i htail
    rw [htail, String.ofList_nil, String.append_empty]
  · rw [Value.toText]

/-- **A squeezed region is compiled to what counts of the region**, with its texts squeezed. -/
theorem compiled_oneSpace_iff (hr : Unescaped r) (hx : Compiled (.region r) (.expr x)) :
    Compiled (.region (oneSpace r)) (.expr z) ↔
      ∃ y, Compiled (.region (kept r)) (.expr y) ∧ z = y.mapTexts squeezeText := by
  by_cases hblank : ∀ c ∈ r, Text.isBlank c = true
  · rw [compiled_blank_iff (Text.blank_oneSpace_iff.mpr hblank)]
    simp only [compiled_blank_iff (blank_kept_iff.mpr hblank)]
    simp [Expr.mapTexts_undefined]
  · have hparse := (compiled_expression_iff hblank).mp hx
    have hlaid : Laid r := by
      have hlaid := Grammar.laid_of_parse (by rwa [String.toList_ofList]) hparse
      rwa [String.toList_ofList] at hlaid
    rw [compiled_expression_iff (mt Text.blank_oneSpace_iff.mp hblank), Grammar.parseExpr?_oneSpace hr hlaid]
    simp only [compiled_expression_iff (mt blank_kept_iff.mp hblank)]
    simp [eq_comm]

end Program

/-! ## 3. The page -/

/-- A paragraph with a source as its attribute `t` and as its text, each time between the marks of a
    region. -/
def twofold (e : String) : String :=
  "<p t=\"\x7b\x7b" ++ e ++ "\x7d\x7d\">\x7b\x7b" ++ e ++ "\x7d\x7d</p>"

/-- The pieces of that page, `cs` with its marks. -/
def twofoldPieces (cs : List Char) : List Written :=
  [.element "p" [⟨"t", some (String.ofList cs)⟩] [.text cs]]

/-- A template of one paragraph with an attribute and a text. -/
def Template.paragraph (name : String) (p q : Program) : Template where
  name
  children := [.element { Element.bare .native "p" with attrs := [("t", p)] } [.text q]]
  exports := []
  globals := []

section

variable {e : String} {cs : List Char}

theorem toList_twofold (e : String) : twofold e =
    String.ofList (Written.writeAll
      (twofoldPieces (Piece.opening ++ e.toList ++ Piece.closing))) := by
  rw [← String.toList_inj, String.toList_ofList]
  simp [twofold, twofoldPieces, Written.writeAll, Written.write, writeOpening, RawAttr.write, writeClosing,
    Piece.opening, Piece.closing]

theorem scan_twofoldPieces (h : ∀ c ∈ cs, c ≠ '<' ∧ c ≠ '"' ∧ c ≠ '\\') (hcs : cs ≠ []) :
    scan (String.ofList (Written.writeAll (twofoldPieces cs))) "wxs" =
      ⟨[.opening "p" [⟨"t", some (String.ofList cs)⟩] false, .text (String.ofList cs),
        .closing "p" .explicit], none⟩ := by
  have hlower : Text.lower "wxs" = "wxs" := by decide
  have hattr : (⟨"t", some (String.ofList cs)⟩ : RawAttr).Fits := by
    have hname : "t".toList ≠ [] ∧ ∀ c ∈ "t".toList, isAttrChar c = true := by decide
    refine ⟨hname.1, hname.2, fun v hv => ?_⟩
    obtain rfl := Option.mem_some.mp hv
    rw [String.toList_ofList]
    exact quotable_of_static fun c hc => (h c hc).2
  have hfits : Written.FitsAll "wxs" (twofoldPieces cs) :=
    ⟨⟨⟨by decide, by decide, List.forall_mem_singleton.mpr hattr⟩, fun c hc => (h c hc).1, nofun, trivial⟩,
      nofun, trivial⟩
  have htext : textEvent cs = [.text (String.ofList cs)] := by
    rw [textEvent, if_neg (by simpa using hcs)]
  have hevents : Written.eventsAll (twofoldPieces cs) =
      .opening "p" [⟨"t", some (String.ofList cs)⟩] false ::
        (textEvent cs ++ [] ++ [.closing "p" .explicit]) ++ [] := rfl
  rw [scan_writeAll hlower hfits, hevents, htext]
  rfl

/-- A text between the marks of a region is squeezed between them. -/
theorem squeezed_region (cs : List Char) :
    Text.squeezed (Piece.opening ++ cs ++ Piece.closing) =
      Piece.opening ++ oneSpace cs ++ Piece.closing := by
  have hopening : ∀ cs, (Piece.opening ++ cs).dropWhile Text.isBlank = Piece.opening ++ cs := fun _ => rfl
  have hreverse : (Piece.opening ++ cs ++ Piece.closing).reverse =
      Piece.closing ++ (Piece.opening ++ cs).reverse := by
    rw [List.reverse_append]
    rfl
  have hclosing : ∀ cs, (Piece.closing ++ cs).dropWhile Text.isBlank = Piece.closing ++ cs := fun _ => rfl
  have hstops : Text.Stops Text.isBlank Piece.closing := Text.stops_cons.mpr rfl
  have htrim : Text.trimChars (Piece.opening ++ cs ++ Piece.closing) =
      Piece.opening ++ cs ++ Piece.closing := by
    rw [Text.trimChars, List.append_assoc, hopening, ← List.append_assoc, hreverse, hclosing, ← hreverse,
      List.reverse_reverse]
  rw [Text.squeezed, htrim, Text.oneSpace_append _ hstops]
  rfl

/-- The attribute of the page is compiled as it stands. -/
theorem step_paragraph {s : Setting} (hs : s.config = .standard) (b : Builder) (v : String) :
    b.step s (.opening "p" [⟨"t", some v⟩] false) = (Program.compile v).map fun p =>
      { b with opened :=
          ⟨⟨{ Element.bare .native "p" with attrs := [("t", p)] }, .none⟩, [], ""⟩ :: b.opened } := by
  have hname : ¬ "wx:".toList <+: "t".toList ∧ ¬ NamesEvent "t" := by decide
  have hadd : Heading.add .standard ⟨.bare .native "p", .none⟩ ⟨"t", some v⟩ =
      Heading.addAttr ⟨.bare .native "p", .none⟩ "t" (some v) :=
    add_ordinary (a := ⟨"t", some v⟩) hname.1 hname.2 rfl
  rw [Builder.step, kindOf_plain hs (by decide), hs]
  dsimp only [bind, Except.bind]
  rw [Heading.read, List.foldlM_cons, hadd, Heading.addAttr, attrProgram]
  cases Program.compile v <;> rfl

/-- Its text is squeezed before it is compiled. -/
theorem step_squeezed {s : Setting} (hs : s.config = .standard) {b : Builder} (hb : b.Outside)
    (cs : List Char) :
    b.step s (.text (String.ofList (Piece.opening ++ cs ++ Piece.closing))) =
      (Program.compile (String.ofList (Piece.opening ++ oneSpace cs ++ Piece.closing))).map
        fun q => b.addNode (.text q) := by
  have hnormal : s.normalize (String.ofList (Piece.opening ++ cs ++ Piece.closing)) =
      String.ofList (Piece.opening ++ oneSpace cs ++ Piece.closing) := by
    rw [Setting.normalize, hs, if_pos (show Config.standard.collapses = true from rfl), Text.collapse_eq,
      String.toList_ofList, squeezed_region]
  rw [Builder.step_text_outside hb, Builder.addText, hnormal]
  exact if_neg (by simp [Piece.opening])

/-- **How the page is compiled**: the source as it stands in the attribute, squeezed in the text. -/
theorem ofMarkup_twofold {s : Setting} (hs : s.config = .standard) (name : String)
    (h : ∀ c ∈ e.toList, c ≠ '<' ∧ c ≠ '"' ∧ c ≠ '\\') {t : Template} :
    Template.ofMarkup s name (twofold e) = .ok t ↔ ∃ p q,
      Program.compile (String.ofList (Piece.opening ++ e.toList ++ Piece.closing)) = .ok p ∧
      Program.compile (String.ofList (Piece.opening ++ oneSpace e.toList ++ Piece.closing)) = .ok q ∧
      t = .paragraph name p q := by
  have hchars : ∀ c ∈ Piece.opening ++ e.toList ++ Piece.closing, c ≠ '<' ∧ c ≠ '"' ∧ c ≠ '\\' :=
    List.forall_mem_append.mpr ⟨List.forall_mem_append.mpr ⟨by decide, h⟩, by decide⟩
  have hraw : s.config.scriptTag = "wxs" := by rw [hs]; rfl
  rw [toList_twofold, Template.ofMarkup, hraw, scan_twofoldPieces hchars (List.cons_ne_nil _ _)]
  dsimp only
  rw [List.foldlM_cons, step_paragraph hs]
  rcases Program.compile (String.ofList (Piece.opening ++ e.toList ++ Piece.closing)) with err | p
  · constructor
    · intro ht
      cases ht
    · rintro ⟨p, q, hp, -⟩
      cases hp
  · dsimp only [Except.map, bind, Except.bind]
    rw [List.foldlM_cons, step_squeezed hs (by simp [Builder.Outside, Element.bare])]
    rcases Program.compile (String.ofList (Piece.opening ++ oneSpace e.toList ++ Piece.closing)) with
      err | q
    · constructor
      · intro ht
        cases ht
      · rintro ⟨p, q, -, hq, -⟩
        cases hq
    · constructor
      · intro ht
        exact ⟨p, q, rfl, rfl, (Except.ok.inj ht).symm⟩
      · rintro ⟨p, q, hp, hq, rfl⟩
        cases hp
        cases hq
        rfl

/-- The source of the attribute and that of the text are regions with the same braces behind them, and of
    the second one only what counts of the first is left. -/
theorem ofMarkup_twofold_iff {s : Setting} (hs : s.config = .standard) (name : String)
    (hchars : ∀ c ∈ e.toList, c ≠ '<' ∧ c ≠ '"' ∧ c ≠ '\\') (hclose : ¬ Piece.closing <:+: e.toList)
    {t : Template} :
    Template.ofMarkup s name (twofold e) = .ok t ↔ ∃ x y,
      Program.Compiled (.region (Piece.within e.toList)) (.expr x) ∧
      Program.Compiled (.region (kept (Piece.within e.toList))) (.expr y) ∧
      t = .paragraph name (.ofRegion (Piece.within e.toList) (Piece.behind e.toList) x)
        (.ofRegion (oneSpace (Piece.within e.toList)) (Piece.behind e.toList)
          (y.mapTexts squeezeText)) := by
  have hparts := Piece.within_append_behind e.toList
  have hregion := Piece.not_closing_within hclose
  have htail : ∀ c ∈ Piece.behind e.toList, c = '\x7d' := fun c => Piece.eq_of_mem_behind
  have hunescaped : Unescaped (Piece.within e.toList) := fun c hc =>
    (hchars c (hparts ▸ List.mem_append_left _ hc)).2
  generalize Piece.within e.toList = r at hparts hregion hunescaped
  generalize Piece.behind e.toList = tail at hparts htail
  have hbraces : ∀ c ∈ tail, Text.isBlank c = false := fun c hc => by rw [htail c hc]; rfl
  have hspace : oneSpace (r ++ tail) = oneSpace r ++ tail := by
    rw [Text.oneSpace_append r fun c hc => hbraces c (List.mem_of_mem_head? hc),
      Text.oneSpace_eq_self hbraces]
  have hregion' : ¬ Piece.closing <:+: oneSpace r ++ ['\x7d'] := by
    intro hin
    have hstops : Text.Stops Text.isBlank ['\x7d'] := Text.stops_cons.mpr rfl
    have hbrace : oneSpace r ++ ['\x7d'] = oneSpace (r ++ ['\x7d']) := (Text.oneSpace_append r hstops).symm
    rw [hbrace] at hin
    exact hregion (Text.pair_of_oneSpace rfl rfl hin)
  rw [ofMarkup_twofold hs name hchars, ← hparts, hspace]
  constructor
  · rintro ⟨p, q, hp, hq, rfl⟩
    obtain ⟨x, hx, rfl⟩ := (Program.compile_region hregion htail).mp hp
    obtain ⟨z, hz, rfl⟩ := (Program.compile_region hregion' htail).mp hq
    obtain ⟨y, hy, rfl⟩ := (Program.compiled_oneSpace_iff hunescaped hx).mp hz
    exact ⟨x, y, hx, hy, rfl⟩
  · rintro ⟨x, y, hx, hy, rfl⟩
    have hz := (Program.compiled_oneSpace_iff hunescaped hx).mpr ⟨y, hy, rfl⟩
    exact ⟨_, _, (Program.compile_region hregion htail).mpr ⟨x, hx, rfl⟩,
      (Program.compile_region hregion' htail).mpr ⟨_, hz, rfl⟩, rfl⟩

/-! ## 4. What it shows -/

/-- The place of the attribute. -/
def attrPlace (run : Nat) : Place := 0 :: 0 :: 0 :: renderPlace run

/-- The place of the text. -/
def textPlace (run : Nat) : Place := 0 :: 1 :: 0 :: renderPlace run

theorem generate_paragraph (name : String) (p q : Program) (run : Nat) (data : Dict Value) :
    (Template.paragraph name p q).generate run data =
      .root [{ VNode.plain .native "p" with
        attrs := [⟨"t", p.value ⟨[], 0⟩ ⟨[], data, []⟩ (attrPlace run)⟩]
        children := [VNode.ofText (q.value ⟨[], 0⟩ ⟨[], data, []⟩ (textPlace run)).toText] }] := by
  rw [Template.generate_eq]
  simp [Template.paragraph, Template.machine, Template.layers, meaningAll, Node.meaning, Element.bare,
    ElementKind.showing, attrValues, clearRepeats_of_unkeyed, VNode.ofText, VNode.plain, attrPlace, textPlace]

/-- **An expression has one text**, in the attribute and in the text of the page, where no function in
    the data was made in the render. -/
theorem toText_textPlace {data : Dict Value} {run : Nat} (hdata : data.Outside run) (x : Expr) :
    (x.value ⟨[], 0⟩ ⟨[], data, []⟩ (0 :: textPlace run)).toText =
      (x.value ⟨[], 0⟩ ⟨[], data, []⟩ (0 :: attrPlace run)).toText := by
  -- the positions inside of the paragraph are one further in the text
  have happart := shiftBelow_apart (0 :: renderPlace run)
  have hgrows := growsFrom_shiftBelow (0 :: renderPlace run) 0
  have hplace : shiftBelow (0 :: renderPlace run) (0 :: attrPlace run) = 0 :: textPlace run := by
    rw [attrPlace, hgrows.cons 0 |>.step, hgrows.step, shiftBelow_cons]
    rfl
  have hstays : relocateFields (shiftBelow (0 :: renderPlace run)) data = data :=
    relocateFields_eq_self fun o ho => shiftBelow_of_not_suffix fun hinside =>
      hdata o ho ((List.suffix_cons 0 _).trans hinside)
  have hmoved := congrArg Prod.fst (eval_relocate happart (callAt_relocate happart (maxDepth + 1))
    (.page ⟨[], data, []⟩) x (0 :: attrPlace run) ⟨[], 0⟩ ((hgrows.cons 0).cons 0))
  have hlayers : Scope.relocate (shiftBelow (0 :: renderPlace run)) (.page ⟨[], data, []⟩) =
      .page ⟨[], data, []⟩ := by
    rw [Scope.relocate, Layers.relocate, hstays]
    rfl
  rw [hplace, hlayers] at hmoved
  exact (congrArg Value.toText hmoved).trans (toText_relocate _)

/-- **What an expression means in a text.** Take a source without `<`, double quotes, backslashes and
    marks that close a region, and put it between the marks of a region, once as an attribute and once
    as the text of an element.
    - In both places a brace at its end is left out of the region and stands behind it.
    - The page compiles exactly when the region does and what counts of it does, which is the front up
      to the end of the first line that ends in a comment.
    - The attribute has the value of the region. The text has the text of what counts of the region,
      with every run of blanks in its texts as one space, and is the text of the attribute exactly
      when these two values have one text. -/
theorem text_and_attribute {s : Setting} (hs : s.config = .standard) (name : String) {e : String}
    (hchars : ∀ c ∈ e.toList, c ≠ '<' ∧ c ≠ '"' ∧ c ≠ '\\') (hclose : ¬ Piece.closing <:+: e.toList) :
    ((∃ t, Template.ofMarkup s name (twofold e) = .ok t) ↔
      (∃ x, Program.Compiled (.region (Piece.within e.toList)) (.expr x)) ∧
        ∃ y, Program.Compiled (.region (kept (Piece.within e.toList))) (.expr y)) ∧
    ∀ t x y, Template.ofMarkup s name (twofold e) = .ok t →
      Program.Compiled (.region (Piece.within e.toList)) (.expr x) →
      Program.Compiled (.region (kept (Piece.within e.toList))) (.expr y) →
      ∀ (data : Dict Value) (run : Nat), data.Outside run → ∃ v content vx vy,
        t.generate run data = .root [{ VNode.plain .native "p" with
          attrs := [⟨"t", v⟩], children := [VNode.ofText content] }] ∧
        vx = x.value t.machine (t.layers data) (0 :: attrPlace run) ∧
        vy = (y.mapTexts squeezeText).value t.machine (t.layers data) (0 :: attrPlace run) ∧
        v = (if Piece.behind e.toList = [] then vx
          else .string (vx.toText ++ String.ofList (Piece.behind e.toList))) ∧
        content = vy.toText ++ String.ofList (Piece.behind e.toList) ∧
        (content = v.toText ↔ vy.toText = vx.toText) := by
  refine ⟨?_, fun t x y ht hx hy data run hdata => ?_⟩
  · constructor
    · rintro ⟨t, ht⟩
      obtain ⟨x, y, hx, hy, -⟩ := (ofMarkup_twofold_iff hs name hchars hclose).mp ht
      exact ⟨⟨x, hx⟩, y, hy⟩
    · rintro ⟨⟨x, hx⟩, y, hy⟩
      exact ⟨_, (ofMarkup_twofold_iff hs name hchars hclose).mpr ⟨x, y, hx, hy, rfl⟩⟩
  · obtain ⟨x', y', hx', hy', rfl⟩ := (ofMarkup_twofold_iff hs name hchars hclose).mp ht
    obtain rfl := hx.unique hx'
    obtain rfl := hy.unique hy'
    refine ⟨_, _, _, _, generate_paragraph name _ _ run data, rfl, rfl, Program.value_ofRegion _ _ _, ?_, ?_⟩
    · rw [Program.toText_ofRegion, toText_textPlace hdata]
      rfl
    · rw [Program.toText_ofRegion, Program.toText_ofRegion, toText_textPlace hdata]
      exact String.append_left_inj _

/-- A text with two blanks in it has one of them in the text of the page. -/
theorem text_and_attribute_twoBlanks :
    ∃ t, Template.ofMarkup ⟨.standard, [], fun _ => false⟩ ""
        "<p t=\"\x7b\x7b'a  b'\x7d\x7d\">\x7b\x7b'a  b'\x7d\x7d</p>" = .ok t ∧
      t.generate 0 [] = .root [{ VNode.plain .native "p" with
        attrs := [⟨"t", .string "a  b"⟩], children := [VNode.ofText "a b"] }] := by
  have hcompiled : Program.Compiled (.region "'a  b'".toList) (.expr (.literal (.string "a  b"))) :=
    .expression (by decide) (by decide +kernel)
  obtain ⟨hcompiles, hshows⟩ := @text_and_attribute ⟨.standard, [], fun _ => false⟩ rfl "" "'a  b'"
    (by decide) (by decide)
  have hwithin : Piece.within "'a  b'".toList = "'a  b'".toList := by decide
  have hbehind : Piece.behind "'a  b'".toList = [] := by decide
  have hkept : kept "'a  b'".toList = "'a  b'".toList := by decide
  rw [hwithin, hkept] at hcompiles hshows
  obtain ⟨t, ht⟩ := hcompiles.mpr ⟨⟨_, hcompiled⟩, _, hcompiled⟩
  obtain ⟨v, content, vx, vy, hpage, rfl, rfl, rfl, rfl, -⟩ :=
    hshows t _ _ ht hcompiled hcompiled [] 0 (fun _ ho => by cases ho)
  refine ⟨t, ht, hpage.trans ?_⟩
  rw [hbehind]
  rfl

end

end Trellis
