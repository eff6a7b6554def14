import Mathlib.Data.List.TakeWhile
import Trellis.Proofs.Text.Runs

/-!
# Texts as bytes

A text is a list of characters to some of its readers and a list of bytes to others. The byte of a
character of ASCII is that character; all other characters take several bytes, and none of these is a
character of ASCII.
- `isCut`, `slice?`: a text is cut between characters only,
- `takeWhile_utf8`, `dropWhile_utf8`: runs along a class that does not tell the other characters apart,
- `startsWith_utf8`, `find_utf8`: a mark is found in the bytes where it stands among the characters.
-/

namespace Trellis.Text

/-! ## 1. Bytes of characters -/

/-- The bytes of characters in UTF-8. -/
def utf8 (cs : List Char) : List UInt8 := cs.flatMap String.utf8EncodeChar

/-- A character has the first byte `b` and goes on with `more`. -/
structure Leads (c : Char) (b : UInt8) (more : List UInt8) : Prop where
  encode_eq : String.utf8EncodeChar c = b :: more
  first : b < 0x80 ∨ 0xC0 ≤ b
  others : ∀ x ∈ more, 0x80 ≤ x ∧ x < 0xC0
  ascii : c.toNat < 128 → Char.ofUInt8 b = c ∧ more = []
  beyond : 128 ≤ c.toNat → 0x80 ≤ b

section

variable {c : Char} {cs ds : List Char} {b : UInt8} {bs more : List UInt8}

theorem toNat_ofUInt8 (b : UInt8) : (Char.ofUInt8 b).toNat = b.toNat := rfl

theorem exists_leads (c : Char) : ∃ b more, Leads c b more := by
  have hdef := String.utf8EncodeChar.eq_1 c
  have hval : c.val.toNat = c.toNat := rfl
  rw [hval] at hdef
  split at hdef
  · refine ⟨_, _, hdef, .inl ?_, nofun, fun _ => ⟨?_, rfl⟩, fun h => by omega⟩
    · simp [UInt8.lt_iff_toNat_lt]
      omega
    · refine Char.toNat_inj.mp ?_
      rw [toNat_ofUInt8, UInt8.toNat_ofNat']
      omega
  split at hdef
  · refine ⟨_, _, hdef, ?_, ?_, ?_, ?_⟩ <;>
      simp [UInt8.lt_iff_toNat_lt, UInt8.le_iff_toNat_le] <;> omega
  split at hdef
  · refine ⟨_, _, hdef, ?_, ?_, ?_, ?_⟩ <;>
      simp [UInt8.lt_iff_toNat_lt, UInt8.le_iff_toNat_le] <;> omega
  · refine ⟨_, _, hdef, ?_, ?_, ?_, ?_⟩ <;>
      simp [UInt8.lt_iff_toNat_lt, UInt8.le_iff_toNat_le] <;> omega

theorem utf8_cons (c : Char) (cs : List Char) : utf8 (c :: cs) = String.utf8EncodeChar c ++ utf8 cs :=
  List.flatMap_cons

theorem utf8_append (cs ds : List Char) : utf8 (cs ++ ds) = utf8 cs ++ utf8 ds :=
  List.flatMap_append

theorem Leads.utf8_cons (h : Leads c b more) (cs : List Char) :
    utf8 (c :: cs) = b :: (more ++ utf8 cs) := by
  rw [Text.utf8_cons, h.encode_eq, List.cons_append]

/-- The byte of a character of ASCII is the character. -/
theorem Leads.ofUInt8_eq_iff (h : Leads c b more) {d : Char} (hd : d.toNat < 128) :
    Char.ofUInt8 b = d ↔ c = d := by
  by_cases hc : c.toNat < 128
  · rw [(h.ascii hc).1]
  · have hb := UInt8.le_iff_toNat_le.mp (h.beyond (by omega))
    constructor
    · rintro rfl
      rw [toNat_ofUInt8] at hd
      exact absurd hb (by simpa using hd)
    · rintro rfl
      exact absurd hd hc

theorem utf8_ascii {c : Char} (hc : c.toNat < 128) (cs : List Char) :
    ∃ b, Char.ofUInt8 b = c ∧ utf8 (c :: cs) = b :: utf8 cs := by
  obtain ⟨b, more, h⟩ := exists_leads c
  obtain ⟨hb, rfl⟩ := h.ascii hc
  exact ⟨b, hb, h.utf8_cons cs⟩

theorem utf8_eq_nil : utf8 cs = [] ↔ cs = [] := by
  cases cs with
  | nil => exact ⟨fun _ => rfl, fun _ => rfl⟩
  | cons c cs =>
    obtain ⟨b, more, h⟩ := exists_leads c
    rw [h.utf8_cons]
    exact ⟨nofun, nofun⟩

theorem toByteArray_utf8 (cs : List Char) : (utf8 cs).toByteArray = (String.ofList cs).toByteArray := by
  rw [String.toByteArray_ofList, List.utf8Encode, utf8]

/-- The bytes of a text are those of its characters. -/
theorem utf8_toList (s : String) : utf8 s.toList = s.toByteArray.data.toList := by
  have h := toByteArray_utf8 s.toList
  rw [String.ofList_toList] at h
  rw [← h, List.toList_data_toByteArray]

theorem fromUTF8?_utf8 (cs : List Char) :
    String.fromUTF8? (utf8 cs).toByteArray = some (String.ofList cs) := by
  rw [toByteArray_utf8, String.fromUTF8?, dif_pos (String.ofList cs).isValidUTF8]
  rfl

theorem utf8Size_cons (c : Char) (cs : List Char) : utf8Size (c :: cs) = c.utf8Size + utf8Size cs := by
  have h : ∀ (cs : List Char) (n : Nat),
      cs.foldl (fun n c => n + c.utf8Size) n = n + cs.foldl (fun n c => n + c.utf8Size) 0 := by
    intro cs
    induction cs with
    | nil => exact fun n => rfl
    | cons c cs ih =>
      intro n
      rw [List.foldl_cons, List.foldl_cons, ih, ih (0 + c.utf8Size)]
      omega
  rw [utf8Size, List.foldl_cons, h, Nat.zero_add, utf8Size]

theorem length_utf8 (cs : List Char) : (utf8 cs).length = utf8Size cs := by
  induction cs with
  | nil => rfl
  | cons c cs ih =>
    rw [utf8_cons, List.length_append, String.length_utf8EncodeChar, ih, utf8Size_cons]

/-- **What begins with the bytes of a text begins with the text.** -/
theorem exists_of_utf8_append (h : utf8 cs ++ bs = utf8 ds) :
    ∃ es, ds = cs ++ es ∧ bs = utf8 es := by
  have hbytes : cs.utf8Encode ++ bs.toByteArray = ds.utf8Encode := by
    rw [List.utf8Encode, List.utf8Encode, ← List.toByteArray_append]
    exact congrArg List.toByteArray h
  obtain ⟨es, rfl⟩ := List.isPrefix_of_utf8Encode_append_eq_utf8Encode _ hbytes
  rw [utf8_append] at h
  exact ⟨es, rfl, List.append_cancel_left h⟩

/-! ## 2. Cuts -/

/-- A text can be cut in front of these bytes: they do not go on with a character. -/
def isCut : List UInt8 → Bool
  | [] => true
  | b :: _ => b < 0x80 || 0xC0 ≤ b

/-- The text between two places of a text; the second one, with `rest` behind it, comes later. There is
    none when one of the places is inside a character. -/
def slice? (bs rest : List UInt8) : Option String :=
  if isCut bs && isCut rest then
    String.fromUTF8? (bs.take (bs.length - rest.length)).toByteArray
  else none

theorem isCut_utf8 (cs : List Char) : isCut (utf8 cs) = true := by
  cases cs with
  | nil => rfl
  | cons c cs =>
    obtain ⟨b, more, h⟩ := exists_leads c
    rw [h.utf8_cons, isCut]
    simpa using h.first

/-- **Between characters a text can be cut.** -/
theorem slice?_utf8 (cs ds : List Char) :
    slice? (utf8 (cs ++ ds)) (utf8 ds) = some (String.ofList cs) := by
  have htake : (utf8 (cs ++ ds)).take ((utf8 (cs ++ ds)).length - (utf8 ds).length) = utf8 cs := by
    rw [utf8_append, List.length_append, Nat.add_sub_cancel, List.take_left]
  rw [slice?, isCut_utf8, isCut_utf8, htake, fromUTF8?_utf8]
  rfl

/-! ## 3. Runs -/

/-- A class tells no two characters beyond ASCII apart. -/
def Settled (p : Char → Bool) : Prop := ∃ v, ∀ c : Char, 128 ≤ c.toNat → p c = v

theorem settled_of_lt {p : Char → Bool} (h : ∀ c : Char, p c = true → c.toNat < 128) : Settled p :=
  ⟨false, fun c hc => Bool.eq_false_iff.mpr fun hp => absurd hc (Nat.not_le.mpr (h c hp))⟩

/-- All bytes of a character are in the class when the character is, and else the first is not. -/
theorem Leads.settled {p : Char → Bool} (hp : Settled p) (h : Leads c b more) :
    p (Char.ofUInt8 b) = p c ∧ (p c = true → ∀ x ∈ more, p (Char.ofUInt8 x) = true) := by
  obtain ⟨v, hv⟩ := hp
  by_cases hc : c.toNat < 128
  · obtain ⟨hb, rfl⟩ := h.ascii hc
    exact ⟨by rw [hb], fun _ => nofun⟩
  · have hc' : 128 ≤ c.toNat := by omega
    have hbyte : ∀ x : UInt8, 0x80 ≤ x → p (Char.ofUInt8 x) = v := fun x hx =>
      hv _ (UInt8.le_iff_toNat_le.mp hx)
    refine ⟨by rw [hbyte b (h.beyond hc'), hv c hc'], fun hpc x hx => ?_⟩
    rw [hbyte x (h.others x hx).1, ← hv c hc', hpc]

theorem takeWhile_utf8 {p : Char → Bool} (hp : Settled p) (cs : List Char) :
    (utf8 cs).takeWhile (p <| Char.ofUInt8 ·) = utf8 (cs.takeWhile p) := by
  induction cs with
  | nil => rfl
  | cons c cs ih =>
    obtain ⟨b, more, h⟩ := exists_leads c
    obtain ⟨hb, hmore⟩ := h.settled hp
    rw [h.utf8_cons, List.takeWhile_cons, List.takeWhile_cons, hb]
    cases hc : p c with
    | false => rfl
    | true =>
      rw [if_pos rfl, if_pos rfl, h.utf8_cons, List.takeWhile_append_of_pos (hmore hc), ih]

theorem dropWhile_utf8 {p : Char → Bool} (hp : Settled p) (cs : List Char) :
    (utf8 cs).dropWhile (p <| Char.ofUInt8 ·) = utf8 (cs.dropWhile p) := by
  have hbytes : utf8 (cs.takeWhile p) ++ (utf8 cs).dropWhile (p <| Char.ofUInt8 ·) =
      utf8 (cs.takeWhile p) ++ utf8 (cs.dropWhile p) := by
    rw [← takeWhile_utf8 hp, List.takeWhile_append_dropWhile, takeWhile_utf8 hp, ← utf8_append,
      List.takeWhile_append_dropWhile]
  exact List.append_cancel_left hbytes

/-! ## 4. Searches -/

/-- The bytes begin with a text. -/
def startsWith (mark : List Char) (bs : List UInt8) : Bool := (utf8 mark).isPrefixOf bs

/-- The first place of a text at which it begins as wanted, with all that follows. -/
def find? (starts : List UInt8 → Bool) : List UInt8 → Option (List UInt8)
  | [] => if starts [] then some [] else none
  | b :: bs => if starts (b :: bs) then some (b :: bs) else find? starts bs

/-- No place inside a character is a beginning. -/
def Between (starts : List UInt8 → Bool) : Prop :=
  ∀ b bs, 0x80 ≤ b → b < 0xC0 → starts (b :: bs) = false

theorem find?_eq_some {starts : List UInt8 → Bool} {found : List UInt8}
    (h : find? starts bs = some found) : starts found = true ∧ found.length ≤ bs.length := by
  induction bs with
  | nil =>
    rw [find?] at h
    split at h
    · rename_i hstarts
      cases h
      exact ⟨hstarts, Nat.le_refl _⟩
    · cases h
  | cons b bs ih =>
    rw [find?] at h
    split at h
    · rename_i hstarts
      cases h
      exact ⟨hstarts, Nat.le_refl _⟩
    · obtain ⟨hstarts, hlength⟩ := ih h
      exact ⟨hstarts, Nat.le_succ_of_le hlength⟩

/-- **The search goes from character to character.** -/
theorem find?_utf8_cons {starts : List UInt8 → Bool} (hstarts : Between starts) (c : Char)
    (cs : List Char) :
    find? starts (utf8 (c :: cs)) =
      if starts (utf8 (c :: cs)) then some (utf8 (c :: cs)) else find? starts (utf8 cs) := by
  have hskip : ∀ more : List UInt8, (∀ x ∈ more, 0x80 ≤ x ∧ x < 0xC0) →
      find? starts (more ++ utf8 cs) = find? starts (utf8 cs) := by
    intro more
    induction more with
    | nil => exact fun _ => rfl
    | cons x more ih =>
      intro hmore
      obtain ⟨hx, hx'⟩ := hmore x List.mem_cons_self
      rw [List.cons_append, find?, hstarts x _ hx hx', if_neg Bool.false_ne_true]
      exact ih fun y hy => hmore y (List.mem_cons_of_mem x hy)
  obtain ⟨b, more, h⟩ := exists_leads c
  rw [h.utf8_cons, find?, hskip more h.others]

theorem startsWith_utf8 (mark cs : List Char) :
    startsWith mark (utf8 cs) = (after? mark cs).isSome := by
  rw [Bool.eq_iff_iff, startsWith, List.isPrefixOf_iff_prefix, Option.isSome_iff_exists]
  constructor
  · rintro ⟨bs, hbs⟩
    obtain ⟨rest, rfl, -⟩ := exists_of_utf8_append hbs
    exact ⟨rest, after?_append_self mark rest⟩
  · rintro ⟨rest, hrest⟩
    rw [after?_eq_some hrest, utf8_append]
    exact List.prefix_append _ _

theorem startsWith_utf8_append (mark rest : List Char) :
    startsWith mark (utf8 (mark ++ rest)) = true := by
  rw [startsWith_utf8, after?_append_self]
  rfl

theorem startsWith_utf8_of_ne {mark cs : List Char} (h : ∀ rest, cs ≠ mark ++ rest) :
    startsWith mark (utf8 cs) = false := by
  rw [startsWith_utf8, Option.isSome_eq_false_iff, Option.isNone_iff_eq_none,
    Option.eq_none_iff_forall_not_mem]
  exact fun rest hrest => h rest (after?_eq_some hrest)

/-- A byte inside of a character does not begin a text whose first character is in ASCII. -/
theorem startsWith_eq_false {m : Char} (hm : m.toNat < 128) (mark : List Char) {b : UInt8}
    (hb : 0x80 ≤ b) (bs : List UInt8) : startsWith (m :: mark) (b :: bs) = false := by
  obtain ⟨d, more, h⟩ := exists_leads m
  obtain ⟨hd, rfl⟩ := h.ascii hm
  have hne : d ≠ b := by
    rintro rfl
    rw [← hd, toNat_ofUInt8] at hm
    exact absurd (UInt8.le_iff_toNat_le.mp hb) (by simpa using hm)
  rw [startsWith, h.utf8_cons, List.isPrefixOf, beq_eq_false_iff_ne.mpr hne, Bool.false_and]

theorem between_startsWith {m : Char} (hm : m.toNat < 128) (mark : List Char) :
    Between (startsWith (m :: mark)) :=
  fun _ bs hb _ => startsWith_eq_false hm mark hb bs

/-- **A mark is found in the bytes where it stands among the characters.** -/
theorem find?_startsWith_utf8 {m : Char} (hm : m.toNat < 128) (mark cs : List Char) :
    find? (startsWith (m :: mark)) (utf8 cs) =
      (cut? (m :: mark) cs).map fun r => utf8 (m :: mark ++ r.2) := by
  induction cs with
  | nil =>
    have h : startsWith (m :: mark) (utf8 []) = false := startsWith_utf8 (m :: mark) []
    change (if startsWith (m :: mark) (utf8 []) then some [] else none) = none
    rw [h, if_neg Bool.false_ne_true]
  | cons c cs ih =>
    rw [find?_utf8_cons (between_startsWith hm mark), startsWith_utf8, cut?]
    cases h : after? (m :: mark) (c :: cs) with
    | some rest => rw [after?_eq_some h]; rfl
    | none =>
      rw [Option.isSome_none, if_neg Bool.false_ne_true, ih]
      cases cut? (m :: mark) cs <;> rfl

/-! ## 5. Case -/

/-- The upper case letters of ASCII are lowered. -/
def lowerByte (b : UInt8) : UInt8 := if 0x41 ≤ b ∧ b ≤ 0x5A then b + 0x20 else b

theorem lowerByte_of_le (hb : 0x80 ≤ b) : lowerByte b = b := by
  refine if_neg fun h => ?_
  have hb' := UInt8.le_iff_toNat_le.mp hb
  have h' := UInt8.le_iff_toNat_le.mp h.2
  exact absurd (hb'.trans h') (by decide)

theorem map_lowerByte_encode (c : Char) :
    (String.utf8EncodeChar c).map lowerByte = String.utf8EncodeChar c.toLower := by
  by_cases hc : c.toNat < 128
  · have hall : ∀ n : Fin 128, (String.utf8EncodeChar (Char.ofNat n)).map lowerByte =
        String.utf8EncodeChar (Char.ofNat n).toLower := by decide +kernel
    have h := hall ⟨c.toNat, hc⟩
    rwa [Char.ofNat_toNat] at h
  · have hlower : c.toLower = c := by
      refine dif_neg fun hupper => hc ?_
      have hz := UInt32.le_iff_toNat_le.mp hupper.2
      exact Nat.lt_of_le_of_lt hz (by decide)
    obtain ⟨b, more, h⟩ := exists_leads c
    rw [hlower, h.encode_eq, List.map_cons, lowerByte_of_le (h.beyond (by omega))]
    have hmore : more.map lowerByte = more :=
      (List.map_congr_left fun x hx => lowerByte_of_le (h.others x hx).1).trans (List.map_id more)
    rw [hmore]

/-- Lowering the bytes lowers the characters. -/
theorem map_lowerByte_utf8 (cs : List Char) : (utf8 cs).map lowerByte = utf8 (cs.map Char.toLower) := by
  induction cs with
  | nil => rfl
  | cons c cs ih =>
    rw [utf8_cons, List.map_append, map_lowerByte_encode, ih, List.map_cons, utf8_cons]

/-- Only a letter is lowered to a letter. -/
theorem eq_of_toLower_eq {c d : Char} (h : c.toLower = d) (hd : d.isLower = false) : c = d := by
  unfold Char.toLower at h
  split at h
  · rename_i hupper
    have hshift : ('a'.val - 'A'.val).toNat = 32 := by decide
    have hA : 65 ≤ c.val.toNat := UInt32.le_iff_toNat_le.mp hupper.1
    have hZ : c.val.toNat ≤ 90 := UInt32.le_iff_toNat_le.mp hupper.2
    have hval : d.val.toNat = c.val.toNat + 32 := by
      rw [← h, UInt32.toNat_add, hshift]
      omega
    have ha : 'a'.val ≤ d.val := UInt32.le_iff_toNat_le.mpr (hval ▸ Nat.add_le_add_right hA 32)
    have hz : d.val ≤ 'z'.val := UInt32.le_iff_toNat_le.mpr (hval ▸ Nat.add_le_add_right hZ 32)
    have hlower : d.isLower = true := Bool.and_eq_true_iff.mpr ⟨decide_eq_true ha, decide_eq_true hz⟩
    rw [hlower] at hd
    cases hd
  · exact h

theorem length_utf8_of_map_toLower {v n : List Char} (h : v.map Char.toLower = n) :
    (utf8 v).length = (utf8 n).length := by
  rw [← h, ← map_lowerByte_utf8, List.length_map]

end

end Trellis.Text
