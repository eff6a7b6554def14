import Mathlib.Data.List.TakeWhile
import Trellis.Proofs.Markup.Written

/-!
# No mark looks beyond its end

What the scanner takes off the front of a text, it takes off the front of any text that begins with
the same characters: a comment, an end tag, a start tag and a raw body are recognised by the characters
up to their own last one.
- `cut?_append`, `quoted?_append`: what is searched for is found at the same place,
- `attr?_append`: an attribute depends on what follows it through the next character and the next one
  that is no blank (`SameFront`), and these belong to the tag,
- `mark?_append`, `rawBody?_append`: whole marks and bodies.
-/

namespace Trellis.Markup

/-! ## 1. Searches -/

section

variable {mark before rest : List Char}

/-- Whether a text begins with a mark is decided by as many characters as the mark has. -/
theorem after?_append_eq_none {cs : List Char} (hlength : mark.length ≤ cs.length)
    (h : Text.after? mark (cs ++ rest) = none) (more : List Char) :
    Text.after? mark (cs ++ more) = none := by
  induction mark generalizing cs with
  | nil => cases h
  | cons m mark ih =>
    cases cs with
    | nil => cases hlength
    | cons c cs =>
      rw [List.cons_append, Text.after?] at h ⊢
      split at h
      · rename_i hc
        rw [if_pos hc]
        exact ih (Nat.le_of_succ_le_succ hlength) h
      · rename_i hc
        rw [if_neg hc]

/-- **The first place of a mark is found whatever follows.** -/
theorem cut?_append {cs : List Char} (h : Text.cut? mark cs = some (before, rest))
    (more : List Char) : Text.cut? mark (before ++ mark ++ more) = some (before, more) := by
  induction cs generalizing before with
  | nil =>
    rw [Text.cut?, Option.map_eq_some_iff] at h
    obtain ⟨r, hr, heq⟩ := h
    obtain ⟨rfl, rfl⟩ := Prod.mk.inj heq
    have hmark : mark = [] := by
      have hnil := Text.after?_eq_some hr
      exact (List.append_eq_nil_iff.mp hnil.symm).1
    subst hmark
    cases more <;> rfl
  | cons c cs ih =>
    have hall := Text.cut?_eq_some h
    rw [Text.cut?] at h
    split at h
    · rename_i r hr
      obtain ⟨rfl, rfl⟩ := Prod.mk.inj (Option.some.inj h)
      rw [List.nil_append]
      cases hmore : mark ++ more with
      | nil =>
        obtain ⟨rfl, rfl⟩ := List.append_eq_nil_iff.mp hmore
        rfl
      | cons d ds =>
        rw [Text.cut?, ← hmore, Text.after?_append_self]
    · rename_i hnone
      rw [Option.map_eq_some_iff] at h
      obtain ⟨⟨b, r⟩, hr, heq⟩ := h
      obtain ⟨rfl, rfl⟩ := Prod.mk.inj heq
      rw [List.cons_append, List.cons_append, Text.cut?, ih hr]
      have hfront : Text.after? mark (c :: b ++ mark ++ more) = none := by
        have hlength : mark.length ≤ (c :: b ++ mark).length := by
          rw [List.length_append]
          exact Nat.le_add_left _ _
        have hfront : Text.after? mark (c :: b ++ mark ++ r) = none := by
          rw [← hall]
          exact hnone
        exact after?_append_eq_none hlength hfront more
      rw [List.cons_append, List.cons_append] at hfront
      rw [hfront]
      rfl

theorem cut?_cons_of_ne {m c : Char} (h : m ≠ c) (mark cs : List Char) :
    Text.cut? (m :: mark) (c :: cs) =
      (Text.cut? (m :: mark) cs).map fun r => (c :: r.1, r.2) := by
  rw [Text.cut?, Text.after?, if_neg h]

/-- Before the first place of a mark it does not stand anywhere. -/
theorem after?_eq_none_of_cut? {m cs before r : List Char} (h : Text.cut? m cs = some (before, r)) :
    ∀ u v, before = u ++ v → v ≠ [] → Text.after? m (v ++ (m ++ r)) = none := by
  induction cs generalizing before with
  | nil =>
    rw [Text.cut?, Option.map_eq_some_iff] at h
    obtain ⟨_, -, heq⟩ := h
    cases heq
    intro u v huv hv
    exact absurd (List.append_eq_nil_iff.mp huv.symm).2 hv
  | cons c cs ih =>
    have hall := Text.cut?_eq_some h
    rw [Text.cut?] at h
    split at h
    · cases h
      intro u v huv hv
      exact absurd (List.append_eq_nil_iff.mp huv.symm).2 hv
    · rename_i hnone
      obtain ⟨⟨before', r'⟩, hcut, heq⟩ := Option.map_eq_some_iff.mp h
      cases heq
      intro u v huv hv
      cases u with
      | nil =>
        rw [List.nil_append] at huv
        rw [← huv, ← List.append_assoc, ← hall]
        exact hnone
      | cons d u =>
        exact ih hcut u v (List.cons.inj huv).2 hv

theorem after?_eq_none_of_cut?_eq_none {m cs : List Char} (h : Text.cut? m cs = none) :
    ∀ u v, cs = u ++ v → Text.after? m v = none := by
  induction cs with
  | nil =>
    intro u v huv
    rw [(List.append_eq_nil_iff.mp huv.symm).2]
    rw [Text.cut?, Option.map_eq_none_iff] at h
    exact h
  | cons c cs ih =>
    rw [Text.cut?] at h
    split at h
    · cases h
    · rename_i hnone
      intro u v huv
      cases u with
      | nil =>
        rw [List.nil_append] at huv
        rw [← huv]
        exact hnone
      | cons d u => exact ih (Option.map_eq_none_iff.mp h) u v (List.cons.inj huv).2

theorem exists_cut? {c : Char} {cs : List Char} (h : c ∈ cs) :
    ∃ before rest, Text.cut? [c] cs = some (before, rest) := by
  induction cs with
  | nil => cases h
  | cons d cs ih =>
    rw [Text.cut?, Text.after?]
    by_cases hc : c = d
    · rw [if_pos hc]
      exact ⟨[], cs, rfl⟩
    · obtain ⟨before, rest, hcut⟩ := ih ((List.mem_cons.mp h).resolve_left hc)
      rw [if_neg hc, hcut]
      exact ⟨d :: before, rest, rfl⟩

/-- **A quoted text ends at the same quote whatever follows.** -/
theorem quoted?_append {quote : Char} {cs text : List Char}
    (h : quoted? quote cs = some (text, rest)) :
    cs = text ++ quote :: rest ∧
      ∀ more, quoted? quote (text ++ quote :: more) = some (text, more) := by
  fun_induction quoted? quote cs generalizing text with
  | case1 => cases h
  | case2 => cases h
  | case3 d cs ih =>
    obtain ⟨⟨t, r⟩, ht, heq⟩ := Option.map_eq_some_iff.mp h
    obtain ⟨rfl, rfl⟩ := Prod.mk.inj heq
    obtain ⟨rfl, hmore⟩ := ih ht
    refine ⟨rfl, fun more => ?_⟩
    rw [List.cons_append, List.cons_append, quoted?, if_pos rfl, hmore more]
    rfl
  | case4 cs hquote =>
    obtain ⟨rfl, rfl⟩ := Prod.mk.inj (Option.some.inj h)
    refine ⟨rfl, fun more => ?_⟩
    rw [List.nil_append, quoted?.eq_def]
    dsimp only
    rw [if_neg hquote, if_pos rfl]
  | case5 c cs hc hquote ih =>
    obtain ⟨⟨t, r⟩, ht, heq⟩ := Option.map_eq_some_iff.mp h
    obtain ⟨rfl, rfl⟩ := Prod.mk.inj heq
    obtain ⟨rfl, hmore⟩ := ih ht
    refine ⟨rfl, fun more => ?_⟩
    rw [List.cons_append, quoted?_cons_of_ne hc hquote, hmore more]
    rfl

/-- A run at the front, which what follows does not make longer. -/
theorem run?_eq_some {p : Char → Bool} {cs : List Char} {run : String}
    (h : run? p cs = some (run, rest)) :
    cs = run.toList ++ rest ∧ run.toList ≠ [] ∧ (∀ c ∈ run.toList, p c = true) ∧ Text.Stops p rest := by
  rw [run?] at h
  split at h
  · cases h
  · rename_i c run' hrun
    obtain ⟨rfl, rfl⟩ := Prod.mk.inj (Option.some.inj h)
    rw [String.toList_ofList, ← hrun]
    exact ⟨List.takeWhile_append_dropWhile.symm, hrun ▸ List.cons_ne_nil _ _,
      fun c hc => (List.mem_takeWhile_imp hc), Text.stops_dropWhile p cs⟩

theorem run?_append {p : Char → Bool} {cs : List Char} {run : String}
    (h : run? p cs = some (run, rest)) {more : List Char} (hmore : more.head? = rest.head?) :
    run? p (run.toList ++ more) = some (run, more) := by
  obtain ⟨-, hne, hrun, hstops⟩ := run?_eq_some h
  exact run?_run hne hrun fun c hc => hstops c (hmore ▸ hc)

end

/-! ## 2. Attributes -/

/-- Two texts begin alike, and so do they behind their blanks. -/
def SameFront (cs ds : List Char) : Prop :=
  cs.head? = ds.head? ∧ (skip cs).head? = (skip ds).head?

section

variable {rest : List Char}

/-- The blanks at the front and the rest. -/
theorem exists_blanks (cs : List Char) :
    ∃ ws, (∀ c ∈ ws, Text.isAsciiBlank c = true) ∧ cs = ws ++ skip cs :=
  ⟨cs.takeWhile Text.isAsciiBlank, fun _ hc => List.mem_takeWhile_imp hc,
    List.takeWhile_append_dropWhile.symm⟩

theorem stops_skip (cs : List Char) : Text.Stops Text.isAsciiBlank (skip cs) :=
  Text.stops_dropWhile _ cs

/-- What holds of the next character at the front holds whatever follows that character. -/
theorem stops_append {p : Char → Bool} {tok : List Char} (hne : tok ≠ [])
    (h : Text.Stops p (tok ++ rest)) (more : List Char) : Text.Stops p (tok ++ more) := by
  cases tok with
  | nil => exact absurd rfl hne
  | cons c tok => exact h

/-- Texts with the same beginning begin alike, when it is not made of blanks only. -/
theorem sameFront_append {tok : List Char} (h : ∃ c ∈ tok, Text.isAsciiBlank c = false)
    (more rest : List Char) : SameFront (tok ++ more) (tok ++ rest) := by
  obtain ⟨ws, hws, hsplit⟩ := exists_blanks tok
  have hne : skip tok ≠ [] := by
    intro hnil
    obtain ⟨c, hc, hblank⟩ := h
    rw [hsplit, hnil, List.append_nil] at hc
    rw [hws c hc] at hblank
    cases hblank
  obtain ⟨c, cs, hcs⟩ := List.exists_cons_of_ne_nil hne
  have hstops : ∀ ds, skip (tok ++ ds) = c :: (cs ++ ds) := by
    intro ds
    have hc : Text.Stops Text.isAsciiBlank (c :: (cs ++ ds)) := by
      have := stops_skip tok
      rw [hcs, Text.stops_cons] at this
      exact Text.stops_cons.mpr this
    rw [hsplit, hcs, List.append_assoc]
    exact skip_append hws hc
  refine ⟨?_, by rw [hstops, hstops]; rfl⟩
  rw [hsplit, hcs]
  cases ws <;> rfl

/-- **A value ends where it ends**, as long as the next character is the same. -/
theorem attrValue?_append {cs : List Char} {v : String} (h : attrValue? cs = some (v, rest)) :
    ∃ tok, tok ≠ [] ∧ cs = tok ++ rest ∧
      ∀ more, more.head? = rest.head? → attrValue? (tok ++ more) = some (v, more) := by
  cases cs with
  | nil => cases h
  | cons c cs =>
    rw [attrValue?] at h
    split at h
    · rename_i hc
      obtain ⟨⟨text, r⟩, htext, heq⟩ := Option.map_eq_some_iff.mp h
      obtain ⟨rfl, rfl⟩ := Prod.mk.inj heq
      obtain ⟨rfl, hmore⟩ := quoted?_append htext
      refine ⟨c :: (text ++ [c]), List.cons_ne_nil _ _, by simp, fun more _ => ?_⟩
      rw [List.cons_append, List.append_assoc, List.singleton_append, attrValue?, if_pos hc,
        hmore more]
      rfl
    · rename_i hc
      obtain ⟨heq, hne, -, -⟩ := run?_eq_some h
      refine ⟨v.toList, hne, heq, fun more hmore => ?_⟩
      obtain ⟨d, ds, hds⟩ := List.exists_cons_of_ne_nil hne
      have hd : d = c := by
        rw [hds] at heq
        exact (List.cons.inj heq).1.symm
      have hrun := run?_append h hmore
      rw [hds, List.cons_append, hd] at hrun ⊢
      rw [attrValue?, if_neg hc]
      exact hrun

/-- **An attribute ends where it ends**, as long as what follows begins alike. -/
theorem attr?_append {cs : List Char} {a : RawAttr} (h : attr? cs = some (a, rest)) :
    ∃ tok, tok ≠ [] ∧ cs = tok ++ rest ∧
      ∀ more, SameFront more rest → attr? (tok ++ more) = some (a, more) := by
  rw [attr?] at h
  split at h
  · cases h
  · rename_i name behind hname
    obtain ⟨rfl, hne, -, -⟩ := run?_eq_some hname
    obtain ⟨ws, hws, hsplit⟩ := exists_blanks behind
    split at h
    · rename_i value hskip
      obtain ⟨⟨v, r⟩, hv, heq⟩ := Option.map_eq_some_iff.mp h
      obtain ⟨rfl, rfl⟩ := Prod.mk.inj heq
      obtain ⟨tok, htok, hvalue, hmore⟩ := attrValue?_append hv
      obtain ⟨ws', hws', hsplit'⟩ := exists_blanks value
      refine ⟨name.toList ++ ws ++ '=' :: (ws' ++ tok), by simp, ?_, fun more hfront => ?_⟩
      · rw [hsplit, hskip, hsplit', hvalue]
        simp
      · have hstops := stops_append htok (hvalue ▸ stops_skip value) more
        have hrun : run? isAttrChar (name.toList ++ (ws ++ '=' :: (ws' ++ (tok ++ more)))) =
            some (name, ws ++ '=' :: (ws' ++ (tok ++ more))) := by
          refine run?_append hname ?_
          rw [hsplit, hskip]
          cases ws <;> rfl
        have heq : name.toList ++ ws ++ '=' :: (ws' ++ tok) ++ more =
            name.toList ++ (ws ++ '=' :: (ws' ++ (tok ++ more))) := by simp
        rw [heq, attr?, hrun]
        dsimp only
        rw [skip_append hws (Text.stops_cons.mpr rfl)]
        simp only [skip_append hws' hstops, hmore more hfront.1, Option.map_some]
    · rename_i hbare
      obtain ⟨rfl, rfl⟩ := Prod.mk.inj (Option.some.inj h)
      refine ⟨name.toList, hne, rfl, fun more hfront => ?_⟩
      rw [attr?, run?_append hname hfront.1]
      dsimp only
      split
      · rename_i value hskip
        have hhead := hfront.2
        rw [hskip] at hhead
        obtain ⟨ds, hds⟩ : ∃ ds, skip behind = '=' :: ds := by
          cases hb : skip behind with
          | nil => rw [hb] at hhead; cases hhead
          | cons d ds =>
            rw [hb] at hhead
            exact ⟨ds, by rw [Option.some.inj hhead]⟩
        exact absurd hds (hbare ds)
      · rfl

/-- What an attribute begins with. -/
theorem isAttrChar_of_attr? {c : Char} {cs : List Char} {a : RawAttr}
    (h : attr? (c :: cs) = some (a, rest)) : isAttrChar c = true := by
  rw [attr?, run?, List.takeWhile_cons] at h
  cases hc : isAttrChar c with
  | true => rfl
  | false =>
    rw [hc] at h
    cases h

/-- **The attributes of a tag end where the tag ends**, by induction on their number. There is something
    else than blanks in them, the last character of the tag, so what follows is not looked at. -/
theorem attrs?_append {fuel : Nat} {cs : List Char} {as : List RawAttr} {b : Bool}
    (h : attrs? fuel cs = some (as, b, rest)) :
    ∃ tok, (∃ c ∈ tok, Text.isAsciiBlank c = false) ∧ cs = tok ++ rest ∧
      ∀ more fuel', tok.length ≤ fuel' → attrs? fuel' (tok ++ more) = some (as, b, more) := by
  induction fuel generalizing cs as with
  | zero => cases h
  | succ fuel ih =>
    obtain ⟨ws, hws, hsplit⟩ := exists_blanks cs
    rw [attrs?] at h
    split at h
    · cases h
    · rename_i behind hskip
      cases h
      refine ⟨ws ++ ['>'], ⟨'>', by simp, rfl⟩, by rw [hsplit, hskip]; simp, fun more fuel' hfuel => ?_⟩
      obtain ⟨n, rfl⟩ : ∃ n, fuel' = n + 1 := ⟨fuel' - 1, by simp at hfuel; omega⟩
      rw [List.append_assoc, List.singleton_append, attrs?,
        skip_append hws (Text.stops_cons.mpr rfl)]
      rfl
    · rename_i behind hskip
      cases h
      refine ⟨ws ++ ['/', '>'], ⟨'>', by simp, rfl⟩, by rw [hsplit, hskip]; simp,
        fun more fuel' hfuel => ?_⟩
      obtain ⟨n, rfl⟩ : ∃ n, fuel' = n + 1 := ⟨fuel' - 1, by simp at hfuel; omega⟩
      rw [List.append_assoc, List.cons_append, List.singleton_append, attrs?,
        skip_append hws (Text.stops_cons.mpr rfl)]
      rfl
    · rename_i c behind _ _ hskip
      split at h
      · cases h
      · rename_i hblank
        split at h
        · cases h
        · rename_i a behind' ha
          obtain ⟨⟨as', b', r⟩, has, heq⟩ := Option.map_eq_some_iff.mp h
          cases heq
          obtain ⟨tok, hne, htok, hattr⟩ := attr?_append ha
          obtain ⟨tok', hlast, rfl, hattrs⟩ := ih has
          -- a blank stands before the attribute
          obtain ⟨w, ws, rfl⟩ : ∃ w ws', ws = w :: ws' := by
            cases ws with
            | cons w ws => exact ⟨w, ws, rfl⟩
            | nil =>
              have hc := Text.stops_cons.mp (hskip ▸ stops_skip cs)
              rw [hsplit, hskip] at hblank
              simp [hc] at hblank
          obtain ⟨d, tok, rfl⟩ := List.exists_cons_of_ne_nil hne
          obtain ⟨rfl, htok⟩ := List.cons.inj htok
          obtain ⟨e, he, hblank'⟩ := hlast
          refine ⟨w :: ws ++ c :: tok ++ tok', ⟨e, by simp [he], hblank'⟩, ?_,
            fun more fuel' hfuel => ?_⟩
          · rw [hsplit, hskip, htok]
            simp
          · obtain ⟨n, rfl⟩ : ∃ n, fuel' = n + 1 := ⟨fuel' - 1, by simp at hfuel; omega⟩
            have hread := hattr (tok' ++ more) (sameFront_append ⟨e, he, hblank'⟩ more _)
            have hlength : tok'.length ≤ n := by simp at hfuel; omega
            have hmore := attrs?_cons hws (isAttrChar_of_attr? ha) hread n
            rw [hattrs more n hlength] at hmore
            have heq : w :: ws ++ c :: tok ++ tok' ++ more =
                w :: ws ++ c :: (tok ++ (tok' ++ more)) := by simp
            rw [heq]
            exact hmore

end

/-! ## 3. Tags, comments and raw bodies -/

section

variable {rest : List Char}

theorem startTag?_append {cs : List Char} {m : Mark} (h : startTag? cs = some (m, rest)) :
    ∃ c tok, isTagChar c = true ∧ cs = c :: tok ++ rest ∧
      ∀ more, startTag? (c :: tok ++ more) = some (m, more) := by
  rw [startTag?] at h
  split at h
  · cases h
  · rename_i name behind hname
    obtain ⟨⟨as, b, r⟩, has, heq⟩ := Option.map_eq_some_iff.mp h
    obtain ⟨rfl, rfl⟩ := Prod.mk.inj heq
    obtain ⟨rfl, hne, hchars, -⟩ := run?_eq_some hname
    obtain ⟨tok, ⟨d, hd, -⟩, rfl, hattrs⟩ := attrs?_append has
    obtain ⟨c, cs, hcs⟩ := List.exists_cons_of_ne_nil hne
    refine ⟨c, cs ++ tok, hchars c (by simp [hcs]), by simp [hcs], fun more => ?_⟩
    have hfront : (tok ++ more).head? = (tok ++ r).head? := by
      cases tok with
      | nil => cases hd
      | cons e tok => rfl
    have heq : c :: (cs ++ tok) ++ more = name.toList ++ (tok ++ more) := by simp [hcs]
    have hlength : tok.length ≤ (tok ++ more).length := by simp
    rw [heq, startTag?, run?_append hname hfront]
    dsimp only
    rw [hattrs more _ hlength]
    rfl

theorem endTag?_append {cs : List Char} {tag : String} (h : endTag? cs = some (tag, rest)) :
    ∃ tok, cs = tok ++ ['>'] ++ rest ∧
      ∀ more, endTag? (tok ++ ['>'] ++ more) = some (tag, more) := by
  rw [endTag?] at h
  split at h
  · cases h
  · rename_i name behind hname
    obtain ⟨⟨before, r⟩, hcut, heq⟩ := Option.map_eq_some_iff.mp h
    obtain ⟨rfl, rfl⟩ := Prod.mk.inj heq
    obtain ⟨rfl, -, -, -⟩ := run?_eq_some hname
    have hbehind := Text.cut?_eq_some hcut
    refine ⟨name.toList ++ before, by rw [hbehind]; simp, fun more => ?_⟩
    have hfront : (before ++ ['>'] ++ more).head? = behind.head? := by
      rw [hbehind]
      cases before <;> rfl
    have heq : name.toList ++ before ++ ['>'] ++ more =
        name.toList ++ (before ++ ['>'] ++ more) := by simp
    rw [heq, endTag?, run?_append hname hfront]
    dsimp only
    rw [cut?_append hcut more]
    rfl

/-- **A comment, an end tag or a start tag is recognised by its own characters.** -/
theorem mark?_append {cs : List Char} {m : Mark} (h : mark? cs = some (m, rest)) :
    ∃ tok, cs = '<' :: tok ++ rest ∧ ∀ more, mark? ('<' :: tok ++ more) = some (m, more) := by
  unfold mark? at h
  split at h
  · rename_i cs
    obtain ⟨⟨before, r⟩, hcut, heq⟩ := Option.map_eq_some_iff.mp h
    obtain ⟨rfl, rfl⟩ := Prod.mk.inj heq
    -- the dashes that open the comment are part of what is searched
    obtain ⟨tok, htok, hcs⟩ : ∃ tok, before ++ ['-', '-', '>'] = '-' :: '-' :: tok ∧ cs = tok ++ r := by
      have hall := Text.cut?_eq_some hcut
      rcases before with _ | ⟨d, _ | ⟨e, before⟩⟩
      · exact ⟨['>'], rfl, by simpa using hall⟩
      · obtain ⟨rfl, hcs⟩ : '-' = d ∧ cs = ['-', '>'] ++ r := by simpa using hall
        exact ⟨['-', '>'], rfl, hcs⟩
      · obtain ⟨rfl, rfl, hcs⟩ : '-' = d ∧ '-' = e ∧ cs = before ++ ['-', '-', '>'] ++ r := by
          simpa using hall
        exact ⟨before ++ ['-', '-', '>'], rfl, hcs⟩
    refine ⟨'!' :: '-' :: '-' :: tok, by rw [hcs]; simp, fun more => ?_⟩
    have hmore := cut?_append hcut more
    rw [htok] at hmore
    simp only [List.cons_append] at hmore ⊢
    rw [mark?, hmore]
    rfl
  · rename_i cs
    obtain ⟨⟨tag, r⟩, htag, heq⟩ := Option.map_eq_some_iff.mp h
    obtain ⟨rfl, rfl⟩ := Prod.mk.inj heq
    obtain ⟨tok, rfl, hmore⟩ := endTag?_append htag
    refine ⟨'/' :: (tok ++ ['>']), by simp, fun more => ?_⟩
    rw [List.cons_append, List.cons_append, mark?, hmore more]
    rfl
  · rename_i cs _ _
    obtain ⟨c, tok, hc, rfl, hmore⟩ := startTag?_append h
    refine ⟨c :: tok, rfl, fun more => ?_⟩
    rw [List.cons_append, mark?, hmore more]
    · rintro behind heq
      exact Text.ne_of_class hc rfl (List.cons.inj heq).1
    · rintro behind heq
      exact Text.ne_of_class hc rfl (List.cons.inj heq).1
  · cases h

/-- Where a `>` follows, the characters up to it decide which end tag stands at the front. -/
theorem endTag?_name {front : List Char} (h : '>' ∈ front) (more : List Char) :
    (endTag? (front ++ more)).map Prod.fst = (endTag? (front ++ rest)).map Prod.fst := by
  obtain ⟨before, behind, rfl⟩ := List.append_of_mem h
  have hall : ∀ ds, (endTag? (before ++ '>' :: behind ++ ds)).map Prod.fst =
      (run? isTagChar before).map fun p => Text.lower p.1 := by
    intro ds
    have hstops : Text.Stops isTagChar ('>' :: (behind ++ ds)) := Text.stops_cons.mpr rfl
    rw [List.append_assoc, List.cons_append, endTag?, run?, run?,
      Text.takeWhile_append_stops _ hstops, Text.dropWhile_append_stops _ hstops]
    cases before.takeWhile isTagChar with
    | nil => rfl
    | cons c run =>
      have hmem : '>' ∈ before.dropWhile isTagChar ++ '>' :: (behind ++ ds) := by simp
      obtain ⟨b, r, hcut⟩ := exists_cut? hmem
      dsimp only
      rw [hcut]
      rfl
  rw [hall, hall]

theorem behindEndTag?_eq_some {tag : String} {cs : List Char} (h : behindEndTag? tag cs = some rest) :
    ∃ ds, cs = '<' :: '/' :: ds ∧ endTag? ds = some (tag, rest) := by
  unfold behindEndTag? at h
  split at h
  · rename_i ds
    split at h
    · rename_i found r hfound
      split at h
      · rename_i htag
        subst htag
        cases h
        exact ⟨ds, rfl, hfound⟩
      · cases h
    · cases h
  · cases h

/-- Where a `>` follows, the characters up to it decide that no end tag of an element stands at the
    front. -/
theorem behindEndTag?_eq_none {tag : String} {c : Char} {front : List Char} (hmem : '>' ∈ front)
    (h : behindEndTag? tag (c :: (front ++ rest)) = none) (more : List Char) :
    behindEndTag? tag (c :: (front ++ more)) = none := by
  rw [Option.eq_none_iff_forall_not_mem]
  intro r hr
  obtain ⟨ds, heq, htag⟩ := behindEndTag?_eq_some (Option.mem_def.mp hr)
  obtain ⟨rfl, hslash⟩ := List.cons.inj heq
  obtain ⟨front, rfl⟩ : ∃ front', front = '/' :: front' := by
    cases front with
    | nil => cases hmem
    | cons d front => exact ⟨front, by rw [(List.cons.inj hslash).1]⟩
  obtain ⟨-, rfl⟩ := List.cons.inj hslash
  have hmem' : '>' ∈ front := (List.mem_cons.mp hmem).resolve_left (by decide)
  have hname : (endTag? (front ++ more)).map Prod.fst = (endTag? (front ++ rest)).map Prod.fst :=
    endTag?_name hmem' more
  rw [List.append_eq] at htag
  rw [htag, Option.map_some, eq_comm, Option.map_eq_some_iff] at hname
  obtain ⟨⟨found, r'⟩, hfound, hfst⟩ := hname
  rw [List.cons_append, behindEndTag?, hfound] at h
  dsimp only at h hfst
  rw [if_pos hfst] at h
  cases h

/-- **The body of the raw element ends at the same end tag whatever follows**, by induction on the
    body: an end tag that began in it would have found the `>` of this one. -/
theorem rawBody?_append {raw : String} {cs body : List Char}
    (h : rawBody? raw cs = some (body, rest)) :
    ∃ tok, cs = body ++ (tok ++ ['>']) ++ rest ∧
      ∀ more, rawBody? raw (body ++ (tok ++ ['>']) ++ more) = some (body, more) := by
  induction cs generalizing body with
  | nil => cases h
  | cons c cs ih =>
    rw [rawBody?] at h
    split at h
    · rename_i r hend
      cases h
      obtain ⟨ds, heq, htag⟩ := behindEndTag?_eq_some hend
      obtain ⟨tok, rfl, hmore⟩ := endTag?_append htag
      refine ⟨'<' :: '/' :: tok, by rw [heq]; simp, fun more => ?_⟩
      have heq : [] ++ ('<' :: '/' :: tok ++ ['>']) ++ more =
          '<' :: '/' :: (tok ++ ['>'] ++ more) := by simp
      rw [heq, rawBody?, behindEndTag?, hmore more]
      dsimp only
      rw [if_pos rfl]
    · rename_i hend
      obtain ⟨⟨body, r⟩, hbody, heq⟩ := Option.map_eq_some_iff.mp h
      cases heq
      obtain ⟨tok, rfl, hmore⟩ := ih hbody
      refine ⟨tok, rfl, fun more => ?_⟩
      have hmem : '>' ∈ body ++ (tok ++ ['>']) := by simp
      rw [List.cons_append, List.cons_append, rawBody?, behindEndTag?_eq_none hmem hend more,
        hmore more]
      rfl

end

end Trellis.Markup
