import Trellis.Markup.Event
import Trellis.Proofs.Results
import Trellis.Proofs.Text.Utf8

/-!
# A scan over bytes

The scanner goes through the markup byte by byte, looks for marks among the bytes and cuts texts out
between places that it has reached. Here are its steps on bytes; a place in the markup is the list of
the bytes behind it. A cut inside a character is no result at all (`Stop.inside`).
- `attrs`, `mark`, `rawEnd`: what stands at a place,
- `round`, `scan`: the events, and the failure at the place where a round takes nothing.

The recursions are on the number of bytes left, so a scan ends, on bytes of any kind.
-/

namespace Trellis.Markup.Bytes

open Text

/-! ## 1. Results -/

/-- Why there is no result: what is looked for is not there, or a cut is inside a character. -/
inductive Stop where
  | miss | inside
  deriving DecidableEq, Repr

/-- What is found. -/
def found {α : Type} : Option α → Except Stop α
  | some a => .ok a
  | none => .error .miss

theorem found_eq_ok_iff {α : Type} {r : Option α} {a : α} : found r = .ok a ↔ r = some a := by
  cases r with
  | none => exact ⟨nofun, nofun⟩
  | some b => exact ⟨fun h => congrArg some (Except.ok.inj h), fun h => congrArg _ (Option.some.inj h)⟩

/-- What is found among characters, with the place behind it among their bytes. -/
def onBytes {α : Type} (r : Option (α × List Char)) : Except Stop (α × List UInt8) :=
  found (r.map fun r => (r.1, utf8 r.2))

theorem onBytes_some {α : Type} (a : α) (rest : List Char) :
    onBytes (some (a, rest)) = .ok (a, utf8 rest) := rfl

/-- The text between two places. -/
def slice (bs rest : List UInt8) : Except Stop String :=
  match slice? bs rest with
  | some s => .ok s
  | none => .error .inside

/-! ## 2. Attributes -/

/-- The bytes of a class at the front, at least one, as a text. -/
def run (p : Char → Bool) (bs : List UInt8) : Except Stop (String × List UInt8) :=
  let rest := bs.dropWhile (p <| Char.ofUInt8 ·)
  if bs.takeWhile (p <| Char.ofUInt8 ·) = [] then .error .miss
  else (slice bs rest).map (·, rest)

/-- The place behind the blanks at the front. -/
def skip (bs : List UInt8) : List UInt8 := bs.dropWhile (isAsciiBlank <| Char.ofUInt8 ·)

/-- The place of the quote that closes. Behind a backslash one byte is passed over, which may be part of
    a character only. -/
def closing? (quote : Char) : List UInt8 → Option (List UInt8)
  | [] => none
  | b :: bs =>
    if Char.ofUInt8 b = '\\' then
      match bs with
      | [] => none
      | _ :: bs => closing? quote bs
    else if Char.ofUInt8 b = quote then some (b :: bs)
    else closing? quote bs

/-- The value of an attribute. A quoted one that is cut inside a character is none. -/
def value (bs : List UInt8) : Except Stop (String × List UInt8) :=
  match bs with
  | [] => .error .miss
  | q :: text =>
    if Char.ofUInt8 q = '"' ∨ Char.ofUInt8 q = '\x27' then
      match closing? (Char.ofUInt8 q) text with
      | none => .error .miss
      | some rest => found ((slice? text rest).map (·, rest.drop 1))
    else run isBareChar bs

/-- An attribute, with or without a value. -/
def attr (bs : List UInt8) : Except Stop (RawAttr × List UInt8) :=
  match run isAttrChar bs with
  | .error e => .error e
  | .ok (name, rest) =>
    match skip rest with
    | [] => .ok (⟨name, none⟩, rest)
    | b :: text =>
      if Char.ofUInt8 b = '=' then (value (skip text)).map fun r => (⟨name, some r.1⟩, r.2)
      else .ok (⟨name, none⟩, rest)

/-- What stands next in a start tag. -/
inductive Part where
  | close (selfClosing : Bool)
  | attr (a : RawAttr)

/-- The end of the tag or an attribute, in front of which there is a blank. -/
def part (bs : List UInt8) : Except Stop (Part × List UInt8) :=
  match skip bs with
  | [] => .error .miss
  | b :: rest =>
    if Char.ofUInt8 b = '>' then .ok (.close false, rest)
    else if Char.ofUInt8 b = '/' then
      match rest with
      | [] => .error .miss
      | d :: rest => if Char.ofUInt8 d = '>' then .ok (.close true, rest) else .error .miss
    else if bs.takeWhile (isAsciiBlank <| Char.ofUInt8 ·) = [] then .error .miss
    else (attr (b :: rest)).map fun r => (.attr r.1, r.2)

section

variable {bs rest : List UInt8}

theorem length_lt_of_run {p : Char → Bool} {s : String} (h : run p bs = .ok (s, rest)) :
    rest.length < bs.length := by
  rw [run] at h
  split at h
  · cases h
  · rename_i hne
    obtain ⟨s', -, heq⟩ := map_eq_ok_iff.mp h
    cases heq
    have hsplit := congrArg List.length
      (List.takeWhile_append_dropWhile (p := (p <| Char.ofUInt8 ·)) (l := bs))
    have hpos := List.length_pos_iff.mpr hne
    rw [List.length_append] at hsplit
    omega

theorem length_skip_le (bs : List UInt8) : (skip bs).length ≤ bs.length :=
  List.length_dropWhile_le _ bs

theorem length_le_of_closing? {quote : Char} (h : closing? quote bs = some rest) :
    rest.length ≤ bs.length := by
  fun_induction closing? quote bs with
  | case1 => cases h
  | case2 => cases h
  | case3 b hb d bs ih => exact (ih h).trans (by simp; omega)
  | case4 b bs hb hquote =>
    cases h
    exact Nat.le_refl _
  | case5 b bs hb hquote ih => exact (ih h).trans (Nat.le_succ _)

theorem length_le_of_value {v : String} (h : value bs = .ok (v, rest)) :
    rest.length ≤ bs.length := by
  unfold value at h
  split at h
  · cases h
  · rename_i q text
    split at h
    · split at h
      · cases h
      · rename_i place hplace
        obtain ⟨s, -, heq⟩ := Option.map_eq_some_iff.mp (found_eq_ok_iff.mp h)
        cases heq
        have hlength := length_le_of_closing? hplace
        simp
        omega
    · exact (length_lt_of_run h).le

theorem length_lt_of_attr {a : RawAttr} (h : attr bs = .ok (a, rest)) : rest.length < bs.length := by
  unfold attr at h
  split at h
  · cases h
  · rename_i name behind hname
    have hlength := length_lt_of_run hname
    split at h
    · cases h
      exact hlength
    · rename_i b text hskip
      split at h
      · obtain ⟨r, hv, heq⟩ := map_eq_ok_iff.mp h
        cases heq
        have hvalue := length_le_of_value hv
        have htext := length_skip_le text
        have hbehind := length_skip_le behind
        rw [hskip, List.length_cons] at hbehind
        omega
      · cases h
        exact hlength

theorem length_lt_of_part {a : Part} (h : part bs = .ok (a, rest)) : rest.length < bs.length := by
  have hbs := length_skip_le bs
  rw [part] at h
  split at h
  · cases h
  · rename_i b behind hskip
    rw [hskip, List.length_cons] at hbs
    split at h
    · cases h
      exact hbs
    split at h
    · split at h
      · cases h
      · split at h
        · cases h
          simp at hbs
          omega
        · cases h
    split at h
    · cases h
    · obtain ⟨r, ha, heq⟩ := map_eq_ok_iff.mp h
      cases heq
      have hattr := length_lt_of_attr ha
      rw [List.length_cons] at hattr
      omega

end

/-- The attributes of a start tag, whether it closes itself, and the place behind it. -/
def attrs (bs : List UInt8) : Except Stop (List RawAttr × Bool × List UInt8) :=
  match _h : part bs with
  | .error e => .error e
  | .ok (.close selfClosing, rest) => .ok ([], selfClosing, rest)
  | .ok (.attr a, rest) => (attrs rest).map fun r => (a :: r.1, r.2)
termination_by bs.length
decreasing_by exact length_lt_of_part _h

/-- What is next decides how the attributes go on. -/
theorem attrs_eq (bs : List UInt8) :
    attrs bs =
      match part bs with
      | .error e => .error e
      | .ok (.close selfClosing, rest) => .ok ([], selfClosing, rest)
      | .ok (.attr a, rest) => (attrs rest).map fun r => (a :: r.1, r.2) := by
  rw [attrs]
  split <;> rename_i heq <;> rw [heq]

/-! ## 3. Tags, comments and raw bodies -/

/-- The end tag at a place with `</`. -/
def endTag (bs : List UInt8) : Except Stop (String × List UInt8) :=
  match run isTagChar (bs.drop 2) with
  | .error e => .error e
  | .ok (name, rest) =>
    if isCut rest then
      found ((find? (startsWith ['>']) rest).map fun place => (Text.lower name, place.drop 1))
    else .error .inside

/-- The start tag at a place with `<`. -/
def startTag (bs : List UInt8) : Except Stop (Mark × List UInt8) :=
  match run isTagChar (bs.drop 1) with
  | .error e => .error e
  | .ok (name, rest) =>
    (attrs rest).map fun r => (.startTag (Text.lower name) r.1 r.2.1, r.2.2)

/-- The comment, end tag or start tag at a place. -/
def mark (bs : List UInt8) : Except Stop (Mark × List UInt8) :=
  if startsWith ['<', '!', '-', '-'] bs then
    found ((find? (startsWith ['-', '-', '>']) bs).map fun place => (.comment, place.drop 3))
  else if startsWith ['<', '/'] bs then (endTag bs).map fun r => (.endTag r.1, r.2)
  else if startsWith ['<'] bs then startTag bs
  else .error .miss

/-- The place behind the end tag of an element, when it stands at a place with `</`. -/
def behindEndTag (tag : String) (bs : List UInt8) : Except Stop (Option (List UInt8)) :=
  if isCut bs then
    match endTag bs with
    | .ok (found, rest) => .ok (if found = tag then some rest else none)
    | .error .miss => .ok none
    | .error .inside => .error .inside
  else .error .inside

/-- What the end tag of an element begins with. -/
def needle (tag : String) : List Char := '<' :: '/' :: tag.toList

/-- The place of the first end tag of an element, and the place behind it. It is searched for in the
    lowered text; where something else begins like it, the search goes on behind that beginning. -/
def rawEnd (raw : String) (bs : List UInt8) : Except Stop (Option (List UInt8 × List UInt8)) :=
  if isCut (bs.map lowerByte) then
    match _h : find? (startsWith (needle raw)) (bs.map lowerByte) with
    | none => .ok none
    | some lowered =>
      let place := bs.drop (bs.length - lowered.length)
      match behindEndTag raw place with
      | .error e => .error e
      | .ok (some rest) => .ok (some (place, rest))
      | .ok none => rawEnd raw (place.drop (utf8 (needle raw)).length)
  else .error .inside
termination_by bs.length
decreasing_by
  obtain ⟨hstarts, hlength⟩ := find?_eq_some _h
  have hneedle := (List.isPrefixOf_iff_prefix.mp hstarts).length_le
  have hpos : 0 < (utf8 (needle raw)).length :=
    List.length_pos_iff.mpr fun hnil => by cases utf8_eq_nil.mp hnil
  rw [List.length_map] at hlength
  simp only [List.length_drop]
  omega

/-- The place that is found decides how the search goes on. -/
theorem rawEnd_eq (raw : String) (bs : List UInt8) :
    rawEnd raw bs =
      if isCut (bs.map lowerByte) then
        match find? (startsWith (needle raw)) (bs.map lowerByte) with
        | none => .ok none
        | some lowered =>
          match behindEndTag raw (bs.drop (bs.length - lowered.length)) with
          | .error e => .error e
          | .ok (some rest) => .ok (some (bs.drop (bs.length - lowered.length), rest))
          | .ok none =>
            rawEnd raw ((bs.drop (bs.length - lowered.length)).drop (utf8 (needle raw)).length)
      else .error .inside := by
  rw [rawEnd]
  split
  · split
    · rename_i heq
      rw [heq]
    · rename_i heq
      rw [heq]
  · rfl

/-! ## 4. Rounds -/

/-- What is taken off the front of the markup: the events, the open elements and the place behind. -/
def round (raw : String) (stack : List String) (bs : List UInt8) :
    Except Stop (List Event × List String × List UInt8) :=
  if stack.head? = some raw then
    match rawEnd raw bs with
    | .error e => .error e
    | .ok (some (place, rest)) =>
      (slice bs place).map fun body =>
        (textEvent body.toList ++ (close raw stack).1, (close raw stack).2, rest)
    | .ok none => (slice bs []).map fun body => (textEvent body.toList, stack, [])
  else
    match mark bs with
    | .ok (.comment, rest) => .ok ([], stack, rest)
    | .ok (.endTag tag, rest) => .ok ((close tag stack).1, (close tag stack).2, rest)
    | .ok (.startTag tag attrs selfClosing, rest) =>
      .ok ([.opening tag attrs selfClosing], if selfClosing then stack else tag :: stack, rest)
    | .error .miss =>
      let rest := bs.dropWhile (Char.ofUInt8 · ≠ '<')
      (slice bs rest).map fun text => (textEvent text.toList, stack, rest)
    | .error .inside => .error .inside

/-- The events from a place on, and the failure in a markup of `size` bytes: a round has taken nothing. -/
def scanFrom (raw : String) (size : Nat) (stack : List String) (bs : List UInt8) :
    Except Stop (List Event × Option MarkupError) :=
  if bs = [] then .ok (closeAll stack, none)
  else if isCut bs then
    match round raw stack bs with
    | .error e => .error e
    | .ok (events, stack, rest) =>
      if rest.length < bs.length then
        (scanFrom raw size stack rest).map fun r => (events ++ r.1, r.2)
      else
        (slice rest []).map fun shown =>
          (events, some (.scan (size - rest.length) (fragment shown.toList)))
  else .error .inside
termination_by bs.length

/-- The events of markup and its failure, from its bytes. -/
def scan (markup raw : String) : Except Stop (List Event × Option MarkupError) :=
  let bs := markup.toByteArray.data.toList
  scanFrom (Text.lower raw) bs.length [] bs

end Trellis.Markup.Bytes
