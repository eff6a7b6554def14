import Mathlib.Data.List.Forall2
import Trellis.Proofs.Expr.Equality
import Trellis.Proofs.Markup.Lookahead
import Trellis.Proofs.Results
import Trellis.Proofs.Text.Collapse

/-!
# Texts cut at their regions

A region of a text begins with an opening mark and ends with a closing one. The first region is the one
that begins leftmost and ends at the next closing mark (`FirstRegion`); behind it the text goes on in the
same way (`Cut`). Compiling a text cuts it so: each region becomes an expression, everything else stays
literal, and the parts one behind the other are the text (`cut_split`, `Cut.flatMap_chars`). A program
that is one region has the value of its expression, every other one the text of its parts
(`compile_partitions`).
-/

namespace Trellis

namespace Piece

/-! ## 1. Regions -/

/-- A text with a region in it. -/
def RegionAt (cs before inner after : List Char) : Prop :=
  cs = before ++ opening ++ inner ++ closing ++ after

/-- The region that begins leftmost, up to the next closing mark. -/
structure FirstRegion (cs before inner after : List Char) : Prop where
  region : RegionAt cs before inner after
  leftmost : ∀ b i a, RegionAt cs b i a → before.length ≤ b.length
  nearest : ∀ i a, RegionAt cs before i a → inner.length ≤ i.length

/-- Literal pieces that have characters, and these characters. -/
def Literals (ps : List Piece) (cs : List Char) : Prop :=
  (∀ p ∈ ps, ∃ lit, lit ≠ [] ∧ p = .literal lit) ∧ ps.flatMap chars = cs

/-- The pieces of a text that is cut at its first region and behind it in the same way. -/
inductive Cut : List Char → List Piece → Prop
  | plain {cs : List Char} {ps : List Piece} (hnone : ∀ b i a, ¬ RegionAt cs b i a)
    (hps : Literals ps cs) : Cut cs ps
  | region {cs before inner after : List Char} {lits ps : List Piece}
    (hfirst : FirstRegion cs before inner after) (hlits : Literals lits before) (hps : Cut after ps) :
    Cut cs (lits ++ .region inner :: ps)

section

variable {cs before inner after rest : List Char} {ps : List Piece}

/-- **The pieces one behind the other are the text.** -/
theorem Cut.flatMap_chars (h : Cut cs ps) : ps.flatMap chars = cs := by
  induction h with
  | plain _ hps => exact hps.2
  | region hfirst hlits _ ih =>
    rw [List.flatMap_append, List.flatMap_cons, hlits.2, ih, hfirst.region, chars]
    simp only [List.append_assoc]

theorem Literals.eq_nil (h : Literals ps []) : ps = [] := by
  cases ps with
  | nil => rfl
  | cons p ps =>
    obtain ⟨lit, hlit, rfl⟩ := h.1 p List.mem_cons_self
    exact absurd (List.flatMap_eq_nil_iff.mp h.2 _ List.mem_cons_self) hlit

theorem Cut.eq_nil (h : Cut [] ps) : ps = [] := by
  cases h with
  | plain _ hps => exact hps.eq_nil
  | region hfirst _ _ =>
    have hlength := congrArg List.length hfirst.region
    simp [opening, closing] at hlength

/-- A text has one first region. -/
theorem FirstRegion.unique {before' inner' after' : List Char} (h : FirstRegion cs before inner after)
    (h' : FirstRegion cs before' inner' after') : before = before' ∧ inner = inner' ∧ after = after' := by
  have heq : before ++ (opening ++ (inner ++ (closing ++ after))) =
      before' ++ (opening ++ (inner' ++ (closing ++ after'))) := by
    simp only [← List.append_assoc]
    exact h.region.symm.trans h'.region
  have hbefore : before.length = before'.length :=
    Nat.le_antisymm (h.leftmost _ _ _ h'.region) (h'.leftmost _ _ _ h.region)
  obtain ⟨rfl, hbehind⟩ := List.append_inj heq hbefore
  have hinner : inner.length = inner'.length :=
    Nat.le_antisymm (h.nearest _ _ h'.region) (h'.nearest _ _ h.region)
  obtain ⟨rfl, hafter⟩ := List.append_inj (List.append_cancel_left hbehind) hinner
  exact ⟨rfl, rfl, List.append_cancel_left hafter⟩

/-! ## 2. Where a text is cut -/

variable {mark b r : List Char}

theorem ne_of_cut?_eq_none (h : Text.cut? mark cs = none) : cs ≠ b ++ mark ++ r := by
  intro hcs
  have hnone := Markup.after?_eq_none_of_cut?_eq_none h b (mark ++ r) (hcs.trans (List.append_assoc ..))
  rw [Text.after?_append_self] at hnone
  cases hnone

/-- A text is cut where the mark stands first. -/
theorem length_le_of_cut? (h : Text.cut? mark cs = some (before, rest)) (hcs : cs = b ++ mark ++ r) :
    before.length ≤ b.length := by
  by_contra hlt
  have heq : before ++ (mark ++ rest) = b ++ (mark ++ r) := by
    rw [← List.append_assoc, ← List.append_assoc, ← hcs, ← Text.cut?_eq_some h]
  rcases List.append_eq_append_iff.mp heq with ⟨v, rfl, -⟩ | ⟨v, rfl, hv⟩
  · exact hlt (by rw [List.length_append]; exact Nat.le_add_right _ _)
  · have hne : v ≠ [] := by
      rintro rfl
      exact hlt (by rw [List.append_nil])
    have hnone := Markup.after?_eq_none_of_cut? h b v rfl hne
    rw [← hv, Text.after?_append_self] at hnone
    cases hnone

/-- **The first two marks enclose the first region.** -/
theorem firstRegion_of_cut? (hopen : Text.cut? opening cs = some (before, rest))
    (hclose : Text.cut? closing rest = some (inner, after)) : FirstRegion cs before inner after := by
  have hcs := Text.cut?_eq_some hopen
  have hrest := Text.cut?_eq_some hclose
  refine ⟨?_, fun b i a h => ?_, fun i a h => ?_⟩
  · rw [RegionAt, hcs, hrest]
    simp only [List.append_assoc]
  · refine length_le_of_cut? (r := i ++ closing ++ a) hopen ?_
    rw [h]
    simp only [List.append_assoc]
  · refine length_le_of_cut? (r := a) hclose ?_
    rw [RegionAt, hcs] at h
    simp only [List.append_assoc] at h ⊢
    exact List.append_cancel_left (List.append_cancel_left h)

/-- Behind the first opening mark every region still has its closing mark. -/
theorem not_regionAt_of_cut? (hopen : Text.cut? opening cs = some (before, rest))
    (hclose : Text.cut? closing rest = none) (b i a : List Char) : ¬ RegionAt cs b i a := by
  intro h
  have hcs := Text.cut?_eq_some hopen
  have hle : before.length ≤ b.length := by
    refine length_le_of_cut? (r := i ++ closing ++ a) hopen ?_
    rw [h]
    simp only [List.append_assoc]
  have hsuffix : closing ++ a <:+ rest := by
    have hbehind : closing ++ a <:+ cs := by
      refine ⟨b ++ opening ++ i, ?_⟩
      rw [h]
      simp only [List.append_assoc]
    refine List.suffix_of_suffix_length_le hbehind ⟨before ++ opening, hcs.symm⟩ ?_
    have hlength := congrArg List.length (hcs.symm.trans h)
    simp only [List.length_append] at hlength ⊢
    omega
  obtain ⟨front, hfront⟩ := hsuffix
  exact ne_of_cut?_eq_none hclose (hfront.symm.trans (List.append_assoc ..).symm)

theorem literals_literal? (cs : List Char) : Literals (literal? cs) cs := by
  rw [literal?]
  split
  · rename_i hempty
    exact ⟨List.forall_mem_nil _, (List.isEmpty_iff.mp hempty).symm⟩
  · rename_i hne
    refine ⟨fun p hp => ⟨cs, fun h => hne (List.isEmpty_iff.mpr h), List.mem_singleton.mp hp⟩, ?_⟩
    exact List.append_nil cs

theorem Literals.append {lits lits' : List Piece} {cs' : List Char} (h : Literals lits cs)
    (h' : Literals lits' cs') : Literals (lits ++ lits') (cs ++ cs') :=
  ⟨List.forall_mem_append.mpr ⟨h.1, h'.1⟩, by rw [List.flatMap_append, h.2, h'.2]⟩

/-- By induction on how many regions may still be found: the characters are enough for them. -/
theorem cut_splitFrom (n : Nat) (cs : List Char) (h : cs.length ≤ n) : Cut cs (splitFrom n cs) := by
  induction n generalizing cs with
  | zero =>
    obtain rfl := List.eq_nil_of_length_eq_zero (Nat.le_zero.mp h)
    refine .plain (fun b i a hregion => ?_) (literals_literal? [])
    have hlength := congrArg List.length hregion
    simp [opening, closing] at hlength
  | succ n ih =>
    rw [splitFrom]
    split
    · rename_i hopen
      refine .plain (fun b i a hregion => ?_) (literals_literal? cs)
      refine ne_of_cut?_eq_none (b := b) (r := i ++ closing ++ a) hopen ?_
      rw [hregion]
      simp only [List.append_assoc]
    · rename_i before rest hopen
      split
      · rename_i hclose
        have hunclosed : Literals [.literal (opening ++ rest)] (opening ++ rest) :=
          ⟨fun p hp => ⟨_, List.cons_ne_nil _ _, List.mem_singleton.mp hp⟩, List.append_nil _⟩
        have hlits := (literals_literal? before).append hunclosed
        rw [← List.append_assoc, ← Text.cut?_eq_some hopen] at hlits
        exact .plain (not_regionAt_of_cut? hopen hclose) hlits
      · rename_i inner after hclose
        refine .region (firstRegion_of_cut? hopen hclose) (literals_literal? before) (ih after ?_)
        have hlength := congrArg List.length (firstRegion_of_cut? hopen hclose).region
        simp only [List.length_append, opening, closing, List.length_cons, List.length_nil] at hlength
        omega

/-- **A text is cut at its regions.** -/
theorem cut_split (cs : List Char) : Cut cs (split cs) := cut_splitFrom cs.length cs (Nat.le_refl _)

/-- A text without a region is cut into literal pieces. -/
theorem Cut.literals (h : Cut cs ps) (hnone : ∀ b i a, ¬ RegionAt cs b i a) : Literals ps cs := by
  cases h with
  | plain _ hps => exact hps
  | region hfirst _ _ => exact absurd hfirst.region (hnone _ _ _)

/-- **One piece that is a region: the text is that region and nothing else.** -/
theorem Cut.eq_region_iff (h : Cut cs ps) : ps = [.region inner] ↔ FirstRegion cs [] inner [] := by
  constructor
  · rintro rfl
    generalize hps : [Piece.region inner] = ps at h
    cases h with
    | plain _ hlits =>
      subst hps
      obtain ⟨lit, -, hregion⟩ := hlits.1 _ List.mem_cons_self
      cases hregion
    | region hfirst hlits hrest =>
      rename_i before' inner' after' lits ps'
      cases lits with
      | nil =>
        obtain ⟨hinner, rfl⟩ := List.cons.inj hps
        obtain rfl := Piece.region.inj hinner
        obtain rfl : [] = before' := hlits.2
        obtain rfl : [] = after' := hrest.flatMap_chars
        exact hfirst
      | cons p lits =>
        exact absurd (List.cons.inj hps).2.symm
          (List.append_ne_nil_of_right_ne_nil lits (List.cons_ne_nil _ _))
  · intro hfirst
    cases h with
    | plain hnone _ => exact absurd hfirst.region (hnone _ _ _)
    | region hfirst' hlits hrest =>
      obtain ⟨rfl, rfl, rfl⟩ := hfirst'.unique hfirst
      rw [hlits.eq_nil, hrest.eq_nil, List.nil_append]

end

end Piece

namespace Program

/-! ## 3. Compiled pieces -/

/-- The compiled form of a piece: a literal stays, a blank region is `undefined`, and any other one is
    its expression. -/
inductive Compiled : Piece → Segment → Prop
  | literal (cs : List Char) : Compiled (.literal cs) (.text (String.ofList cs))
  | blank {cs : List Char} (h : ∀ c ∈ cs, Text.isBlank c = true) :
    Compiled (.region cs) (.expr (.literal .undefined))
  | expression {cs : List Char} {e : Expr} (h : ¬ ∀ c ∈ cs, Text.isBlank c = true)
    (he : compileExpr (String.ofList cs) = .ok e) : Compiled (.region cs) (.expr e)

/-- The text that a segment at position `i` contributes. -/
def shown (m : Machine) (layers : Layers) (place : Place) (i : Nat) : Segment → String
  | .text s => s
  | .expr e => (e.value m layers (i :: place)).toText

section

variable {p : Piece} {ps : List Piece} {seg : Segment} {segs : List Segment}

theorem compiled_of_segment (h : segment p = .ok seg) : Compiled p seg := by
  cases p with
  | literal cs =>
    obtain rfl := Except.ok.inj h
    exact .literal cs
  | region cs =>
    have hblank : (Text.trimChars cs).isEmpty = true ↔ ∀ c ∈ cs, Text.isBlank c = true := by
      rw [List.isEmpty_iff, Text.trimChars_eq_nil_iff]
    rw [segment] at h
    split at h
    · rename_i hempty
      obtain rfl := Except.ok.inj h
      exact .blank (hblank.mp hempty)
    · rename_i hne
      split at h
      · rename_i e he
        obtain rfl := Except.ok.inj h
        refine .expression (mt hblank.mpr hne) ?_
        rw [compileExpr, he]
      · cases h

/-- **Each piece has its segment.** -/
theorem forall₂_of_segmentsOf (h : segmentsOf ps = .ok segs) : List.Forall₂ Compiled ps segs := by
  induction ps generalizing segs with
  | nil =>
    obtain rfl := Except.ok.inj h
    exact .nil
  | cons p ps ih =>
    rw [segmentsOf] at h
    split at h
    · cases h
    · rename_i seg hseg
      split at h
      · cases h
      · rename_i segs' hsegs
        obtain rfl := Except.ok.inj h
        exact .cons (compiled_of_segment hseg) (ih hsegs)

theorem toText_segmentValue (m : Machine) (layers : Layers) (place : Place) (i : Nat) (seg : Segment) :
    (segmentValue m layers place i seg).toText = shown m layers place i seg := by
  cases seg with
  | text s => rw [segmentValue, Value.toText, shown]
  | expr e => rw [segmentValue, shown]

theorem joined_eq (m : Machine) (layers : Layers) (place : Place) (i : Nat) (segs : List Segment) :
    joined m layers place i segs =
      String.join ((segs.zipIdx i).map fun s => shown m layers place s.2 s.1) := by
  induction segs generalizing i with
  | nil => rfl
  | cons seg segs ih =>
    rw [joined, ih, toText_segmentValue, List.zipIdx_cons, List.map_cons, String.join_cons]

/-- **A program has the text of its parts**, unless it is one expression. -/
theorem value_eq_join {p : Program} (h : ∀ e, p.segments ≠ [.expr e]) (m : Machine) (layers : Layers)
    (place : Place) : p.value m layers place =
      .string (String.join (p.segments.zipIdx.map fun s => shown m layers place s.2 s.1)) := by
  unfold value
  split
  · rename_i seg hseg
    rw [hseg]
    cases seg with
    | text s => simp [segmentValue, shown]
    | expr e => exact absurd hseg (h e)
  · rw [joined_eq]

theorem segmentsOf_literals (h : ∀ p ∈ ps, ∃ lit, lit ≠ [] ∧ p = .literal lit) :
    ∃ texts : List String, segmentsOf ps = .ok (texts.map .text) ∧
      (String.join texts).toList = ps.flatMap Piece.chars := by
  induction ps with
  | nil => exact ⟨[], rfl, rfl⟩
  | cons p ps ih =>
    obtain ⟨⟨lit, -, rfl⟩, hps⟩ := List.forall_mem_cons.mp h
    obtain ⟨texts, htexts, hjoin⟩ := ih hps
    refine ⟨String.ofList lit :: texts, ?_, ?_⟩
    · rw [segmentsOf, segment, htexts]
      rfl
    · rw [String.join_cons, String.toList_append, hjoin, String.toList_ofList]
      rfl

theorem shown_texts (m : Machine) (layers : Layers) (place : Place) (texts : List String) (i : Nat) :
    ((texts.map Segment.text).zipIdx i).map (fun s => shown m layers place s.2 s.1) = texts := by
  induction texts generalizing i with
  | nil => rfl
  | cons t texts ih => rw [List.map_cons, List.zipIdx_cons, List.map_cons, ih, shown]

/-- **A text without a region is compiled to itself.** -/
theorem compile_of_no_region {s : String} (h : ∀ b i a, ¬ Piece.RegionAt s.toList b i a) :
    ∃ p, compile s = .ok p ∧ p.isStatic = true ∧
      ∀ m layers place, p.value m layers place = .string s := by
  have hlits := (Piece.cut_split s.toList).literals h
  obtain ⟨texts, htexts, hjoin⟩ := segmentsOf_literals hlits.1
  have hs : String.join texts = s := by rw [← String.toList_inj, hjoin, hlits.2]
  have htext : ∀ e, texts.map Segment.text ≠ [.expr e] := by
    intro e he
    obtain ⟨t, -, ht⟩ := List.mem_map.mp (he ▸ List.mem_singleton_self (Segment.expr e))
    cases ht
  refine ⟨⟨s, texts.map .text⟩, by rw [compile, htexts]; rfl, ?_, fun m layers place => ?_⟩
  · rw [isStatic, List.all_map]
    exact List.all_eq_true.mpr fun _ _ => rfl
  · rw [value_eq_join htext, shown_texts, hs]

/-- **How a text is compiled.** A text that is compiled is cut at its leftmost regions, which do not
    overlap; the pieces one behind the other are the text, and piece by piece the segments are their
    compiled forms. When the text is one region, its program has the value of that region's expression
    wherever it is evaluated, and otherwise it has the texts of its segments one behind the other. A text
    without a region is always compiled, to a program without expressions that has the text itself as its
    value. -/
theorem compile_partitions (s : String) :
    (∀ p, compile s = .ok p →
      (∃ pieces, Piece.Cut s.toList pieces ∧ pieces.flatMap Piece.chars = s.toList ∧
        List.Forall₂ Compiled pieces p.segments) ∧
      (∀ inner, Piece.FirstRegion s.toList [] inner [] → ∃ e, Compiled (.region inner) (.expr e) ∧
        ∀ m layers place, p.value m layers place = e.value m layers (0 :: place)) ∧
      ((∀ inner, ¬ Piece.FirstRegion s.toList [] inner []) → ∀ m layers place,
        p.value m layers place =
          .string (String.join (p.segments.zipIdx.map fun s => shown m layers place s.2 s.1)))) ∧
    ((∀ b i a, ¬ Piece.RegionAt s.toList b i a) → ∃ p, compile s = .ok p ∧ p.isStatic = true ∧
      ∀ m layers place, p.value m layers place = .string s) := by
  refine ⟨fun p hp => ?_, compile_of_no_region⟩
  obtain ⟨segs, hsegs, rfl⟩ := map_eq_ok_iff.mp hp
  have hcut := Piece.cut_split s.toList
  have hforall := forall₂_of_segmentsOf hsegs
  refine ⟨⟨_, hcut, hcut.flatMap_chars, hforall⟩, fun inner hinner => ?_, fun hnone => ?_⟩
  · rw [hcut.eq_region_iff.mpr hinner] at hforall
    obtain ⟨seg, others, hseg, hnil, rfl⟩ := List.forall₂_cons_left_iff.mp hforall
    obtain rfl := List.forall₂_nil_left_iff.mp hnil
    cases hseg with
    | blank h => exact ⟨_, .blank h, fun _ _ _ => rfl⟩
    | expression h he => exact ⟨_, .expression h he, fun _ _ _ => rfl⟩
  · refine value_eq_join fun e he => ?_
    have hone : segs = [.expr e] := he
    rw [hone] at hforall
    obtain ⟨piece, others, hpiece, hnil, hsplit⟩ := List.forall₂_cons_right_iff.mp hforall
    obtain rfl := List.forall₂_nil_right_iff.mp hnil
    cases hpiece with
    | blank _ => exact hnone _ (hcut.eq_region_iff.mp hsplit)
    | expression _ _ => exact hnone _ (hcut.eq_region_iff.mp hsplit)

/-- A region with blanks in it has the value of its name, and a closing mark before an opening one is
    literal text. -/
theorem compile_partitions_spaced :
    (∃ p, compile "\x7b\x7b a \x7d\x7d" = .ok p ∧
      ∀ m layers place, p.value m layers place = (Expr.name "a").value m layers (0 :: place)) ∧
    ∃ p, compile "\x7d\x7d\x7b\x7b" = .ok p ∧ p.isStatic = true ∧
      ∀ m layers place, p.value m layers place = .string "\x7d\x7d\x7b\x7b" := by
  constructor
  · have hname : compileExpr (String.ofList [' ', 'a', ' ']) = .ok (.name "a") := by
      decide +kernel
    have hp : compile "\x7b\x7b a \x7d\x7d" =
        .ok ⟨"\x7b\x7b a \x7d\x7d", [.expr (.name "a")]⟩ := by decide +kernel
    have hopen : Text.cut? Piece.opening "\x7b\x7b a \x7d\x7d".toList =
        some ([], [' ', 'a', ' '] ++ Piece.closing) := by decide
    have hfirst : Piece.FirstRegion "\x7b\x7b a \x7d\x7d".toList [] [' ', 'a', ' '] [] :=
      Piece.firstRegion_of_cut? hopen (by decide)
    obtain ⟨e, he, hvalue⟩ := ((compile_partitions _).1 _ hp).2.1 _ hfirst
    refine ⟨_, hp, fun m layers place => ?_⟩
    rw [hvalue]
    cases he with
    | blank h => exact absurd (h 'a' (by decide)) (by decide)
    | expression _ he =>
      rw [hname] at he
      obtain rfl := Except.ok.inj he
      rfl
  · have hopen : Text.cut? Piece.opening "\x7d\x7d\x7b\x7b".toList =
        some (['\x7d', '\x7d'], []) := by decide
    exact (compile_partitions _).2 (Piece.not_regionAt_of_cut? hopen (by decide))

end

end Program

end Trellis
