import Trellis.Proofs.Markup.Bytes
import Trellis.Proofs.Markup.Rounds

/-!
# A scan over bytes never cuts a character

On the bytes of characters each step of the scanner does what it does on the characters, and it has a
result: no cut is inside a character.
- `attrs_utf8`, `mark_utf8`: marks; a backslash in front of a character beyond ASCII lets the scanner pass
  over a part of it only, but the other bytes of it close nothing,
- `rawEnd_utf8`: the search for the end tag of a raw body,
- `scanFrom_utf8`: a scan, one round after the other.
-/

namespace Trellis.Markup.Bytes

open Text

/-! ## 1. Classes and attributes -/

section

variable {cs rest : List Char}

theorem slice_utf8 (cs ds : List Char) :
    slice (utf8 (cs ++ ds)) (utf8 ds) = .ok (String.ofList cs) := by
  rw [slice, slice?_utf8]

theorem isTagChar_lt {c : Char} (h : isTagChar c = true) : c.toNat < 128 := by
  have hbelow : ∀ {d : Char}, d.toNat < 128 → c.val ≤ d.val → c.toNat < 128 := fun hd hle =>
    Nat.lt_of_le_of_lt (UInt32.le_iff_toNat_le.mp hle) hd
  rw [isTagChar, Bool.or_eq_true, Bool.or_eq_true, beq_iff_eq, beq_iff_eq] at h
  rcases h with (hword | rfl) | rfl
  · rcases Bool.or_eq_true_iff.mp hword with hletter | hdigit
    · rcases Bool.or_eq_true_iff.mp hletter with hupper | hlower
      · exact hbelow (d := 'Z') (by decide) (of_decide_eq_true hupper).2
      · exact hbelow (d := 'z') (by decide) (of_decide_eq_true (Bool.and_eq_true_iff.mp hlower).2)
    · exact hbelow (d := '9') (by decide) (of_decide_eq_true (Bool.and_eq_true_iff.mp hdigit).2)
  · decide
  · decide

theorem settled_isAttrChar : Settled isAttrChar := by
  refine settled_of_lt fun c hc => ?_
  rw [isAttrChar, Bool.or_eq_true, beq_iff_eq] at hc
  rcases hc with hc | rfl
  · exact isTagChar_lt hc
  · decide

theorem isAsciiBlank_lt {c : Char} (h : isAsciiBlank c = true) : c.toNat < 128 := by
  simp only [isAsciiBlank, Bool.or_eq_true, beq_iff_eq] at h
  rcases h with (((rfl | rfl) | rfl) | rfl) | rfl <;> decide

theorem settled_ne {d : Char} (hd : d.toNat < 128) : Settled (· ≠ d) := by
  refine ⟨true, fun c hc => decide_eq_true ?_⟩
  rintro rfl
  exact absurd hd (Nat.not_lt.mpr hc)

theorem settled_isBareChar : Settled isBareChar := by
  refine ⟨true, fun c hc => ?_⟩
  have hblank : isAsciiBlank c = false :=
    Bool.eq_false_iff.mpr fun h => absurd (isAsciiBlank_lt h) (Nat.not_lt.mpr hc)
  have hne : c ≠ '>' := by
    rintro rfl
    exact absurd hc (by decide)
  rw [isBareChar, hblank, bne_iff_ne.mpr hne]
  rfl

theorem run_utf8 {p : Char → Bool} (hp : Settled p) (cs : List Char) :
    run p (utf8 cs) = onBytes (run? p cs) := by
  have hslice : slice (utf8 cs) (utf8 (cs.dropWhile p)) = .ok (String.ofList (cs.takeWhile p)) := by
    have h := slice_utf8 (cs.takeWhile p) (cs.dropWhile p)
    rwa [List.takeWhile_append_dropWhile] at h
  unfold run run?
  rw [takeWhile_utf8 hp, dropWhile_utf8 hp]
  dsimp only
  rw [hslice]
  cases htake : cs.takeWhile p with
  | nil => rfl
  | cons c taken =>
    rw [if_neg (mt utf8_eq_nil.mp (by nofun))]
    rfl

theorem skip_utf8 (cs : List Char) : skip (utf8 cs) = utf8 (Markup.skip cs) :=
  dropWhile_utf8 (settled_of_lt fun _ => isAsciiBlank_lt) cs

/-- Bytes inside of a character close nothing. -/
theorem closing?_others {quote : Char} (hquote : quote.toNat < 128) {more : List UInt8}
    (hmore : ∀ x ∈ more, 0x80 ≤ x) (bs : List UInt8) :
    closing? quote (more ++ bs) = closing? quote bs := by
  induction more with
  | nil => rfl
  | cons x more ih =>
    have hx := UInt8.le_iff_toNat_le.mp (hmore x List.mem_cons_self)
    have hne : ∀ d : Char, d.toNat < 128 → Char.ofUInt8 x ≠ d := by
      rintro d hd rfl
      exact absurd hx (by simpa [toNat_ofUInt8] using hd)
    rw [List.cons_append, closing?.eq_def]
    dsimp only
    rw [if_neg (hne '\\' (by decide)), if_neg (hne quote hquote)]
    exact ih fun y hy => hmore y (List.mem_cons_of_mem x hy)

theorem closing?_utf8 {quote : Char} (hquote : quote.toNat < 128) (cs : List Char) :
    closing? quote (utf8 cs) = (quoted? quote cs).map fun r => utf8 (quote :: r.2) := by
  have hslash : '\\'.toNat < 128 := by decide
  fun_induction quoted? quote cs with
  | case1 => rfl
  | case2 =>
    obtain ⟨b, more, h⟩ := exists_leads '\\'
    obtain ⟨hb, rfl⟩ := h.ascii hslash
    rw [h.utf8_cons, closing?.eq_def]
    dsimp only
    rw [if_pos hb]
    rfl
  | case3 d cs ih =>
    -- the byte that is passed over is the first one of a character
    obtain ⟨b, more, h⟩ := exists_leads '\\'
    obtain ⟨hb, rfl⟩ := h.ascii hslash
    obtain ⟨b', more', h'⟩ := exists_leads d
    rw [h.utf8_cons, h'.utf8_cons, closing?.eq_def]
    dsimp only [List.nil_append]
    rw [if_pos hb, closing?_others hquote fun x hx => (h'.others x hx).1, ih, Option.map_map]
    rfl
  | case4 cs hne =>
    obtain ⟨b, more, h⟩ := exists_leads quote
    obtain ⟨hb, rfl⟩ := h.ascii hquote
    rw [h.utf8_cons, closing?.eq_def]
    dsimp only [List.nil_append]
    rw [hb, if_neg hne, if_pos rfl, Option.map_some, h.utf8_cons]
    rfl
  | case5 c cs hc hne ih =>
    obtain ⟨b, more, h⟩ := exists_leads c
    rw [h.utf8_cons, closing?.eq_def]
    dsimp only
    rw [if_neg (mt (h.ofUInt8_eq_iff hslash).mp hc), if_neg (mt (h.ofUInt8_eq_iff hquote).mp hne),
      closing?_others hquote fun x hx => (h.others x hx).1, ih, Option.map_map]
    rfl

theorem value_utf8 (cs : List Char) : value (utf8 cs) = onBytes (attrValue? cs) := by
  cases cs with
  | nil => rfl
  | cons c cs =>
    unfold attrValue?
    by_cases hc : c = '"' ∨ c = '\x27'
    · have hascii : c.toNat < 128 := by
        rcases hc with rfl | rfl <;> decide
      obtain ⟨b, hb, hbytes⟩ := utf8_ascii hascii cs
      rw [hbytes, value.eq_def]
      dsimp only
      rw [hb, if_pos hc, if_pos hc, closing?_utf8 hascii]
      cases hquoted : quoted? c cs with
      | none => rfl
      | some r =>
        obtain ⟨text, rest⟩ := r
        obtain ⟨rfl, -⟩ := quoted?_append hquoted
        obtain ⟨_, -, hrest⟩ := utf8_ascii hascii rest
        dsimp only [Option.map_some]
        rw [slice?_utf8, hrest]
        rfl
    · obtain ⟨b, more, h⟩ := exists_leads c
      have hb : ¬(Char.ofUInt8 b = '"' ∨ Char.ofUInt8 b = '\x27') := by
        rw [h.ofUInt8_eq_iff (by decide), h.ofUInt8_eq_iff (by decide)]
        exact hc
      dsimp only
      rw [if_neg hc, ← run_utf8 settled_isBareChar, h.utf8_cons, value.eq_def]
      dsimp only
      rw [if_neg hb]

theorem attr_utf8 (cs : List Char) : attr (utf8 cs) = onBytes (attr? cs) := by
  unfold attr attr?
  rw [run_utf8 settled_isAttrChar]
  cases run? isAttrChar cs with
  | none => rfl
  | some r =>
    obtain ⟨name, behind⟩ := r
    rw [onBytes_some]
    dsimp only
    rw [skip_utf8]
    cases Markup.skip behind with
    | nil => rfl
    | cons c text =>
      obtain ⟨b, more, h⟩ := exists_leads c
      have heq := h.ofUInt8_eq_iff (d := '=') (by decide)
      rw [h.utf8_cons]
      dsimp only
      by_cases hc : c = '='
      · obtain ⟨-, rfl⟩ := h.ascii (by rw [hc]; decide)
        rw [if_pos (heq.mpr hc), List.nil_append, skip_utf8, value_utf8]
        subst hc
        change _ = onBytes
          ((attrValue? (Markup.skip text)).map fun r => ((⟨name, some r.1⟩ : RawAttr), r.2))
        cases attrValue? (Markup.skip text) <;> rfl
      · rw [if_neg (mt heq.mp hc)]
        split
        · rename_i heq'
          exact absurd (List.cons.inj heq').1 hc
        · rfl

/-- The end of a start tag or an attribute among the characters. -/
def part? (cs : List Char) : Option (Part × List Char) :=
  match Markup.skip cs with
  | [] => none
  | c :: rest =>
    if c = '>' then some (.close false, rest)
    else if c = '/' then
      match rest with
      | [] => none
      | d :: rest => if d = '>' then some (.close true, rest) else none
    else if !(cs.head?.any isAsciiBlank) then none
    else (attr? (c :: rest)).map fun r => (.attr r.1, r.2)

theorem attrs?_eq_part? (fuel : Nat) (cs : List Char) :
    attrs? (fuel + 1) cs =
      match part? cs with
      | none => none
      | some (.close selfClosing, rest) => some ([], selfClosing, rest)
      | some (.attr a, rest) => (attrs? fuel rest).map fun r => (a :: r.1, r.2) := by
  rw [attrs?]
  split
  · rename_i hskip
    rw [part?, hskip]
  · rename_i rest hskip
    rw [part?, hskip]
    rfl
  · rename_i rest hskip
    rw [part?, hskip]
    rfl
  · rename_i c rest hclose hself hskip
    rw [part?, hskip]
    dsimp only
    rw [if_neg hclose]
    by_cases hslash : c = '/'
    · subst hslash
      cases rest with
      | nil => rfl
      | cons d rest =>
        have hd : d ≠ '>' := fun hd => hself rest rfl (by rw [hd])
        dsimp only
        rw [if_neg hd]
        rfl
    · rw [if_neg hslash, decide_eq_false hslash, Bool.false_or]
      split
      · rfl
      · cases attr? (c :: rest) <;> rfl

theorem part_utf8 (cs : List Char) : part (utf8 cs) = onBytes (part? cs) := by
  unfold part part?
  rw [skip_utf8]
  cases hskip : Markup.skip cs with
  | nil => rfl
  | cons c rest =>
    obtain ⟨b, more, h⟩ := exists_leads c
    have hclose := h.ofUInt8_eq_iff (d := '>') (by decide)
    have hslash := h.ofUInt8_eq_iff (d := '/') (by decide)
    rw [h.utf8_cons]
    dsimp only
    by_cases hc : c = '>'
    · obtain ⟨-, rfl⟩ := h.ascii (by rw [hc]; decide)
      rw [if_pos (hclose.mpr hc), if_pos hc]
      rfl
    rw [if_neg (mt hclose.mp hc), if_neg hc]
    by_cases hs : c = '/'
    · obtain ⟨-, rfl⟩ := h.ascii (by rw [hs]; decide)
      rw [if_pos (hslash.mpr hs), if_pos hs, List.nil_append]
      cases rest with
      | nil => rfl
      | cons d rest =>
        obtain ⟨b', more', h'⟩ := exists_leads d
        have hclose' := h'.ofUInt8_eq_iff (d := '>') (by decide)
        rw [h'.utf8_cons]
        dsimp only
        by_cases hd : d = '>'
        · obtain ⟨-, rfl⟩ := h'.ascii (by rw [hd]; decide)
          rw [if_pos (hclose'.mpr hd), if_pos hd]
          rfl
        · rw [if_neg (mt hclose'.mp hd), if_neg hd]
          rfl
    rw [if_neg (mt hslash.mp hs), if_neg hs, ← h.utf8_cons, attr_utf8,
      takeWhile_utf8 (settled_of_lt fun _ => isAsciiBlank_lt)]
    cases cs with
    | nil => cases hskip
    | cons w cs =>
      rw [List.head?_cons, Option.any_some, List.takeWhile_cons]
      cases isAsciiBlank w with
      | false => rfl
      | true =>
        rw [if_pos rfl, if_neg (mt utf8_eq_nil.mp (by nofun)), Bool.not_true,
          if_neg Bool.false_ne_true]
        cases attr? (c :: rest) <;> rfl

theorem length_lt_of_part? {a : Part} (h : part? cs = some (a, rest)) : rest.length < cs.length := by
  have hcs : (Markup.skip cs).length ≤ cs.length := List.length_dropWhile_le _ _
  unfold part? at h
  split at h
  · cases h
  · rename_i c behind hskip
    rw [hskip, List.length_cons] at hcs
    split at h
    · cases h
      exact hcs
    split at h
    · split at h
      · cases h
      · split at h
        · cases h
          simp at hcs
          omega
        · cases h
    split at h
    · cases h
    · obtain ⟨⟨a', rest'⟩, hattr, heq⟩ := Option.map_eq_some_iff.mp h
      cases heq
      obtain ⟨tok, hne, htok, -⟩ := attr?_append hattr
      have hlength := congrArg List.length htok
      have hpos := List.length_pos_iff.mpr hne
      rw [List.length_cons, List.length_append] at hlength
      change rest'.length < cs.length
      omega

theorem attrs_utf8 {fuel : Nat} (hfuel : cs.length ≤ fuel) :
    attrs (utf8 cs) = found ((attrs? fuel cs).map fun r => (r.1, r.2.1, utf8 r.2.2)) := by
  induction fuel generalizing cs with
  | zero =>
    obtain rfl := List.length_eq_zero_iff.mp (Nat.le_zero.mp hfuel)
    rw [attrs]
    rfl
  | succ fuel ih =>
    rw [attrs?_eq_part?, attrs_eq, part_utf8]
    cases hpart : part? cs with
    | none => rfl
    | some r =>
      obtain ⟨next, rest⟩ := r
      have hlength := length_lt_of_part? hpart
      cases next with
      | close selfClosing => rfl
      | attr a =>
        rw [onBytes_some]
        dsimp only
        rw [ih (by omega)]
        cases attrs? fuel rest <;> rfl

/-! ## 2. Tags and comments -/

theorem startTag_utf8 (cs : List Char) : startTag (utf8 ('<' :: cs)) = onBytes (startTag? cs) := by
  obtain ⟨b, -, hbytes⟩ := utf8_ascii (c := '<') (by decide) cs
  unfold startTag startTag?
  rw [hbytes, List.drop_succ_cons, List.drop_zero, run_utf8 (settled_of_lt fun _ => isTagChar_lt)]
  cases run? isTagChar cs with
  | none => rfl
  | some r =>
    obtain ⟨name, rest⟩ := r
    rw [onBytes_some]
    dsimp only
    rw [attrs_utf8 (Nat.le_refl _)]
    cases attrs? rest.length rest <;> rfl

theorem endTag_utf8 (cs : List Char) : endTag (utf8 ('<' :: '/' :: cs)) = onBytes (endTag? cs) := by
  obtain ⟨b, -, hbytes⟩ := utf8_ascii (c := '<') (by decide) ('/' :: cs)
  obtain ⟨b', -, hbytes'⟩ := utf8_ascii (c := '/') (by decide) cs
  unfold endTag endTag?
  rw [hbytes, hbytes', List.drop_succ_cons, List.drop_succ_cons, List.drop_zero,
    run_utf8 (settled_of_lt fun _ => isTagChar_lt)]
  cases run? isTagChar cs with
  | none => rfl
  | some r =>
    obtain ⟨name, rest⟩ := r
    rw [onBytes_some]
    dsimp only
    rw [isCut_utf8, if_pos rfl, find?_startsWith_utf8 (by decide)]
    cases Text.cut? ['>'] rest with
    | none => rfl
    | some r =>
      obtain ⟨before, rest⟩ := r
      obtain ⟨_, -, hplace⟩ := utf8_ascii (c := '>') (by decide) rest
      dsimp only [Option.map_some, List.cons_append, List.nil_append]
      rw [hplace]
      rfl

theorem mark_utf8 (cs : List Char) : mark (utf8 cs) = onBytes (mark? cs) := by
  unfold mark?
  split
  · rename_i cs
    have hstarts : startsWith ['<', '!', '-', '-'] (utf8 ('<' :: '!' :: '-' :: '-' :: cs)) = true :=
      startsWith_utf8_append ['<', '!', '-', '-'] cs
    rw [mark, if_pos hstarts, find?_startsWith_utf8 (by decide), cut?_cons_of_ne (by decide),
      cut?_cons_of_ne (by decide)]
    cases Text.cut? ['-', '-', '>'] ('-' :: '-' :: cs) with
    | none => rfl
    | some r =>
      obtain ⟨before, rest⟩ := r
      obtain ⟨_, -, h⟩ := utf8_ascii (c := '-') (by decide) ('-' :: '>' :: rest)
      obtain ⟨_, -, h'⟩ := utf8_ascii (c := '-') (by decide) ('>' :: rest)
      obtain ⟨_, -, h''⟩ := utf8_ascii (c := '>') (by decide) rest
      dsimp only [Option.map_some, List.cons_append, List.nil_append]
      rw [h, h', h'']
      rfl
  · rename_i cs
    have hcomment : startsWith ['<', '!', '-', '-'] (utf8 ('<' :: '/' :: cs)) = false :=
      startsWith_utf8_of_ne fun rest heq => by cases heq
    have hstarts : startsWith ['<', '/'] (utf8 ('<' :: '/' :: cs)) = true :=
      startsWith_utf8_append ['<', '/'] cs
    rw [mark, hcomment, if_neg Bool.false_ne_true, if_pos hstarts, endTag_utf8]
    cases endTag? cs <;> rfl
  · rename_i cs hcomment hend
    have hstarts : startsWith ['<'] (utf8 ('<' :: cs)) = true :=
      startsWith_utf8_append ['<'] cs
    rw [mark, startsWith_utf8_of_ne fun rest heq => hcomment rest (List.cons.inj heq).2,
      startsWith_utf8_of_ne fun rest heq => hend rest (List.cons.inj heq).2,
      if_neg Bool.false_ne_true, if_neg Bool.false_ne_true, if_pos hstarts]
    exact startTag_utf8 cs
  · rename_i hangle
    rw [mark, startsWith_utf8_of_ne fun rest => hangle _, startsWith_utf8_of_ne fun rest => hangle _,
      startsWith_utf8_of_ne fun rest => hangle _]
    rfl

theorem behindEndTag_utf8 (tag : String) (cs : List Char) :
    behindEndTag tag (utf8 ('<' :: '/' :: cs)) =
      .ok ((behindEndTag? tag ('<' :: '/' :: cs)).map utf8) := by
  rw [behindEndTag, isCut_utf8, if_pos rfl, endTag_utf8, behindEndTag?]
  cases endTag? cs with
  | none => rfl
  | some r =>
    obtain ⟨name, rest⟩ := r
    rw [onBytes_some]
    dsimp only
    split <;> rfl

/-! ## 3. Raw bodies -/

theorem toLower_ne_of_isTagChar {c : Char} (h : isTagChar c = true) : c.toLower ≠ '<' := by
  intro hlower
  rw [eq_of_toLower_eq hlower (by decide)] at h
  cases h

variable {raw : String}

/-- What an end tag begins with, in lower case. -/
theorem exists_of_behindEndTag? (h : behindEndTag? raw cs = some rest) :
    (∃ r, cs.map Char.toLower = needle raw ++ r) ∧ '<' ∉ raw.toList := by
  obtain ⟨ds, rfl, htag⟩ := behindEndTag?_eq_some h
  rw [endTag?] at htag
  split at htag
  · cases htag
  · rename_i name behind hname
    obtain ⟨r, -, heq⟩ := Option.map_eq_some_iff.mp htag
    obtain ⟨rfl, -, hchars, -⟩ := run?_eq_some hname
    have hraw : raw.toList = name.toList.map Char.toLower := by
      rw [← (Prod.mk.inj heq).1, Text.lower, String.toList_ofList]
    refine ⟨⟨behind.map Char.toLower, ?_⟩, fun hmem => ?_⟩
    · rw [needle, hraw]
      simp
    · rw [hraw] at hmem
      obtain ⟨c, hc, hlower⟩ := List.mem_map.mp hmem
      exact toLower_ne_of_isTagChar (hchars c hc) hlower

/-- Where no end tag begins, the body goes on. -/
theorem rawBody?_append_of_none {skipped : List Char}
    (h : ∀ u v, skipped = u ++ v → v ≠ [] → behindEndTag? raw (v ++ rest) = none) :
    rawBody? raw (skipped ++ rest) = (rawBody? raw rest).map fun r => (skipped ++ r.1, r.2) := by
  induction skipped with
  | nil =>
    rw [List.nil_append]
    cases rawBody? raw rest <;> rfl
  | cons c skipped ih =>
    have hhere := h [] (c :: skipped) rfl nofun
    rw [List.cons_append] at hhere
    rw [List.cons_append, rawBody?, hhere]
    dsimp only
    rw [ih fun u v huv => h (c :: u) v (by rw [huv, List.cons_append])]
    cases rawBody? raw rest <;> rfl

theorem exists_cons_of_map_eq_needle {v : List Char} (h : v.map Char.toLower = needle raw) :
    ∃ v', v = '<' :: '/' :: v' ∧ v'.map Char.toLower = raw.toList := by
  rcases v with _ | ⟨c, _ | ⟨d, v⟩⟩
  · cases h
  · cases (List.cons.inj h).2
  · obtain ⟨hc, htail⟩ := List.cons.inj h
    obtain ⟨hd, hraw⟩ := List.cons.inj htail
    exact ⟨v, by rw [eq_of_toLower_eq hc (by decide), eq_of_toLower_eq hd (by decide)], hraw⟩

/-- What begins like the end tag and is none is passed over: no end tag begins within. -/
theorem rawBody?_append_needle {v w : List Char} (hv : v.map Char.toLower = needle raw)
    (hnone : behindEndTag? raw (v ++ w) = none) :
    rawBody? raw (v ++ w) = (rawBody? raw w).map fun r => (v ++ r.1, r.2) := by
  refine rawBody?_append_of_none fun u' v' huv hne => ?_
  cases u' with
  | nil =>
    rw [List.nil_append] at huv
    rw [← huv]
    exact hnone
  | cons d u' =>
    rw [Option.eq_none_iff_forall_not_mem]
    intro r hr
    obtain ⟨-, hraw⟩ := exists_of_behindEndTag? (Option.mem_def.mp hr)
    obtain ⟨ds, hangle, -⟩ := behindEndTag?_eq_some (Option.mem_def.mp hr)
    obtain ⟨c, v', rfl⟩ := List.exists_cons_of_ne_nil hne
    obtain ⟨rfl, -⟩ := List.cons.inj hangle
    -- the `<` stands behind the first one, so in the name
    obtain ⟨v'', rfl, hname⟩ := exists_cons_of_map_eq_needle hv
    have hmem : '<' ∈ '/' :: v'' := by
      rw [(List.cons.inj huv).2]
      simp
    have hmem' : '<' ∈ v'' := (List.mem_cons.mp hmem).resolve_left (by decide)
    exact hraw (hname ▸ List.mem_map.mpr ⟨'<', hmem', rfl⟩)

theorem behindEndTag?_of_after? (h : after? (needle raw) (cs.map Char.toLower) = none) :
    behindEndTag? raw cs = none := by
  rw [Option.eq_none_iff_forall_not_mem]
  intro r hr
  obtain ⟨⟨r', hlower⟩, -⟩ := exists_of_behindEndTag? (Option.mem_def.mp hr)
  rw [hlower, after?_append_self] at h
  cases h

/-- Where the beginning of an end tag is nowhere, the body has no end. -/
theorem rawBody?_of_cut?_eq_none (h : Text.cut? (needle raw) (cs.map Char.toLower) = none) :
    rawBody? raw cs = none := by
  have hnone := after?_eq_none_of_cut?_eq_none h
  have hbody : rawBody? raw (cs ++ []) = (rawBody? raw []).map fun r => (cs ++ r.1, r.2) := by
    refine rawBody?_append_of_none fun u v huv _ => behindEndTag?_of_after? ?_
    rw [List.append_nil]
    exact hnone _ _ (by rw [huv, List.map_append])
  rwa [List.append_nil] at hbody

/-- In front of the first beginning of an end tag, `v`, the body goes on. -/
theorem exists_parts_of_cut? {before r : List Char}
    (h : Text.cut? (needle raw) (cs.map Char.toLower) = some (before, r)) :
    ∃ u v w, cs = u ++ (v ++ w) ∧ v.map Char.toLower = needle raw ∧ w.map Char.toLower = r ∧
      rawBody? raw cs = (rawBody? raw (v ++ w)).map fun r => (u ++ r.1, r.2) := by
  obtain ⟨uv, w, rfl, huv, rfl⟩ := List.map_eq_append_iff.mp (Text.cut?_eq_some h)
  obtain ⟨u, v, rfl, rfl, hv⟩ := List.map_eq_append_iff.mp huv
  have hfirst := after?_eq_none_of_cut? h
  refine ⟨u, v, w, List.append_assoc u v w, hv, rfl, ?_⟩
  rw [List.append_assoc]
  refine rawBody?_append_of_none fun u' v' huv' hne => behindEndTag?_of_after? ?_
  rw [List.map_append, List.map_append, hv]
  exact hfirst _ _ (by rw [huv', List.map_append]) (by simpa using hne)

/-- **The search over the bytes of a raw body finds its end tag**, by induction on what is left. What
    begins like the end tag and is none can be passed over as a whole: there is no `<` in the name. -/
theorem rawEnd_utf8 (raw : String) (cs : List Char) :
    rawEnd raw (utf8 cs) =
      .ok ((rawBody? raw cs).map fun r => (utf8 (cs.drop r.1.length), utf8 r.2)) := by
  induction hn : cs.length using Nat.strong_induction_on generalizing cs with
  | _ n ih =>
    subst hn
    have hfind : find? (startsWith (needle raw)) (utf8 (cs.map Char.toLower)) =
        (Text.cut? (needle raw) (cs.map Char.toLower)).map fun r => utf8 (needle raw ++ r.2) :=
      find?_startsWith_utf8 (by decide) _ _
    rw [rawEnd_eq, map_lowerByte_utf8, isCut_utf8, if_pos rfl, hfind]
    cases hcut : Text.cut? (needle raw) (cs.map Char.toLower) with
    | none =>
      rw [rawBody?_of_cut?_eq_none hcut]
      rfl
    | some r =>
      obtain ⟨before, r⟩ := r
      obtain ⟨u, v, w, rfl, hv, rfl, hskip⟩ := exists_parts_of_cut? hcut
      obtain ⟨v', hv', -⟩ := exists_cons_of_map_eq_needle hv
      have hlength : (utf8 v).length = (utf8 (needle raw)).length := length_utf8_of_map_toLower hv
      have hplace : (utf8 (u ++ (v ++ w))).drop ((utf8 (u ++ (v ++ w))).length -
          (utf8 (needle raw ++ w.map Char.toLower)).length) = utf8 (v ++ w) := by
        rw [← hv, ← List.map_append, ← length_utf8_of_map_toLower rfl, utf8_append u,
          List.length_append, Nat.add_sub_cancel, List.drop_left]
      have hend : behindEndTag raw (utf8 (v ++ w)) = .ok ((behindEndTag? raw (v ++ w)).map utf8) := by
        rw [hv']
        exact behindEndTag_utf8 raw (v' ++ w)
      dsimp only [Option.map_some]
      rw [hplace, hend, hskip]
      cases hhere : behindEndTag? raw (v ++ w) with
      | some rest =>
        have hbody : rawBody? raw (v ++ w) = some ([], rest) := by
          rw [hv'] at hhere ⊢
          rw [List.cons_append, rawBody?, ← List.cons_append, hhere]
        rw [hbody]
        dsimp only [Option.map_some]
        rw [List.append_nil, List.drop_left]
      | none =>
        have hlt : w.length < (u ++ (v ++ w)).length := by
          rw [hv']
          simp
          omega
        rw [rawBody?_append_needle hv hhere]
        dsimp only [Option.map_none]
        rw [utf8_append v, ← hlength, List.drop_left, ih _ hlt w rfl, Option.map_map, Option.map_map]
        cases rawBody? raw w with
        | none => rfl
        | some r =>
          have hdrop : (u ++ (v ++ w)).drop (u ++ (v ++ r.1)).length = w.drop r.1.length := by
            rw [← List.append_assoc, ← List.append_assoc, List.length_append,
              List.drop_length_add_append]
          dsimp only [Option.map_some, Function.comp]
          rw [hdrop]

/-! ## 4. Rounds and scans -/

variable {stack stack' : List String} {es : List Event}

theorem mark?_of_ne {c : Char} (hc : c ≠ '<') (cs : List Char) : mark? (c :: cs) = none := by
  unfold mark?
  split <;> rename_i heq
  · exact absurd (List.cons.inj heq).1 hc
  · exact absurd (List.cons.inj heq).1 hc
  · exact absurd (List.cons.inj heq).1 hc
  · rfl

theorem map_slice_utf8 (cs ds : List Char) {α : Type} (f : String → α) :
    (slice (utf8 (cs ++ ds)) (utf8 ds)).map f = .ok (f (String.ofList cs)) := by
  rw [slice_utf8]
  rfl

/-- Where no mark is, the text up to the next `<` is taken. -/
theorem round_of_noMark (hraw : stack.head? ≠ some raw) (h : mark? cs = none) :
    round raw stack (utf8 cs) =
      .ok (textEvent (cs.takeWhile (· ≠ '<')), stack, utf8 (cs.dropWhile (· ≠ '<'))) := by
  have hsplit : cs.takeWhile (· ≠ '<') ++ cs.dropWhile (· ≠ '<') = cs :=
    List.takeWhile_append_dropWhile
  have hslice := map_slice_utf8 (cs.takeWhile (· ≠ '<')) (cs.dropWhile (· ≠ '<'))
    fun text => (textEvent text.toList, stack, utf8 (cs.dropWhile (· ≠ '<')))
  rw [hsplit, String.toList_ofList] at hslice
  rw [round, if_neg hraw, mark_utf8, h]
  change (slice _ _).map _ = _
  rw [dropWhile_utf8 (settled_ne (by decide))]
  exact hslice

/-- **A round takes the same off the bytes as off the characters.** -/
theorem round_utf8 (h : Round raw stack cs es stack' rest) :
    round raw stack (utf8 cs) = .ok (es, stack', utf8 rest) := by
  cases h with
  | @body _ body _ hraw h =>
    obtain ⟨tok, hcs, -⟩ := rawBody?_append h
    rw [round, if_pos hraw, rawEnd_utf8, h]
    dsimp only [Option.map_some]
    rw [hcs, List.append_assoc, List.drop_left, map_slice_utf8, String.toList_ofList]
  | @unended c cs hraw h =>
    have hslice := map_slice_utf8 (c :: cs) []
      fun body => (textEvent body.toList, stack, ([] : List UInt8))
    rw [List.append_nil, String.toList_ofList] at hslice
    rw [round, if_pos hraw, rawEnd_utf8, h]
    exact hslice
  | comment hraw h => rw [round, if_neg hraw, mark_utf8, h, onBytes_some]
  | endTag hraw h => rw [round, if_neg hraw, mark_utf8, h, onBytes_some]
  | startTag hraw h => rw [round, if_neg hraw, mark_utf8, h, onBytes_some]
  | text hraw hc => exact round_of_noMark hraw (mark?_of_ne hc _)

/-- Where the scanner is stuck, a round takes nothing. -/
theorem round_of_stuck (h : Stuck raw stack cs) : round raw stack (utf8 cs) = .ok ([], stack, utf8 cs) := by
  rw [round_of_noMark h.outside h.noMark]
  cases cs with
  | nil => cases h.angle
  | cons c cs =>
    cases h.angle
    rfl

/-- **A scan over the bytes gives the events and the failure of the scan over the characters**, by
    induction on what is left. -/
theorem scanFrom_utf8 (raw : String) (size : Nat) (stack : List String) (cs : List Char) :
    scanFrom raw size stack (utf8 cs) =
      .ok ((Markup.scanFrom raw cs.length stack cs).events,
        (Markup.scanFrom raw cs.length stack cs).unread.map fun rest =>
          .scan (size - utf8Size rest) (fragment rest)) := by
  induction hn : cs.length using Nat.strong_induction_on generalizing stack cs with
  | _ n ih =>
    subst hn
    cases cs with
    | nil =>
      rw [scanFrom, scanFrom_nil]
      rfl
    | cons c cs =>
      have hne : utf8 (c :: cs) ≠ [] := mt utf8_eq_nil.mp nofun
      rw [scanFrom, if_neg hne, isCut_utf8, if_pos rfl]
      rcases round_or_stuck raw stack c cs with ⟨es₀, stack₀, cs₀, hround⟩ | hstuck
      · obtain ⟨_, tok, hcons⟩ := hround.exists_cons
        cases hcons
        have hlt : (utf8 cs₀).length < (utf8 (c :: (tok ++ cs₀))).length := by
          have hpos := List.length_pos_iff.mpr (mt utf8_eq_nil.mp (List.cons_ne_nil c tok))
          rw [← List.cons_append, utf8_append, List.length_append]
          omega
        have hlt₀ : cs₀.length < (c :: (tok ++ cs₀)).length := by
          rw [List.length_cons, List.length_append]
          omega
        have hlength : cs₀.length ≤ (tok ++ cs₀).length := by simp
        rw [round_utf8 hround]
        dsimp only
        rw [if_pos hlt, ih _ hlt₀ stack₀ cs₀ rfl, List.length_cons, hround.scanFrom_succ,
          scanFrom_fuel hlength]
        rfl
      · rw [round_of_stuck hstuck]
        dsimp only
        rw [if_neg (Nat.lt_irrefl _), List.length_cons, hstuck.scanFrom_succ, length_utf8]
        have hslice := map_slice_utf8 (c :: cs) [] fun shown =>
          (([] : List Event), some (MarkupError.scan (size - utf8Size (c :: cs))
            (fragment shown.toList)))
        rw [List.append_nil, String.toList_ofList] at hslice
        exact hslice

/-- **The scan over bytes has a result on every markup**, that of the scan. -/
theorem scan_utf8 (markup raw : String) :
    scan markup raw =
      .ok ((Markup.scan markup raw).events, (Markup.scan markup raw).failure markup) := by
  rw [scan, ← utf8_toList, scanFrom_utf8, length_utf8]
  rfl

end

end Trellis.Markup.Bytes
