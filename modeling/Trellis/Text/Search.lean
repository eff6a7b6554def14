/-!
# Finding a mark in a text

- `after?`: what follows a mark that the text starts with,
- `cut?`: the text before and after the first place where the mark stands,
- `utf8Size`: how many bytes the characters take; offsets in messages are counted so.
-/
namespace Trellis.Text

/-! ## 1. Marks -/

/-- What follows `mark` when the text starts with it. -/
def after? : List Char → List Char → Option (List Char)
  | [], s => some s
  | _ :: _, [] => none
  | m :: mark, c :: s => if m = c then after? mark s else none

/-- The rest after a mark, put behind the mark, is the text. -/
theorem after?_eq_some {mark s rest : List Char} (h : after? mark s = some rest) :
    s = mark ++ rest := by
  induction mark generalizing s with
  | nil => simpa [after?] using h
  | cons m mark ih =>
    cases s with
    | nil => simp [after?] at h
    | cons c s =>
      by_cases e : m = c
      · simp only [after?, e, if_true] at h
        simp [e, ih h]
      · simp [after?, e] at h

theorem after?_append_self (mark rest : List Char) : after? mark (mark ++ rest) = some rest := by
  induction mark with
  | nil => rfl
  | cons m mark ih => rw [List.cons_append, after?, if_pos rfl, ih]

/-- The text before and after the first place where `mark` stands. -/
def cut? (mark : List Char) : List Char → Option (List Char × List Char)
  | [] => (after? mark []).map fun rest => ([], rest)
  | c :: s =>
    match after? mark (c :: s) with
    | some rest => some ([], rest)
    | none => (cut? mark s).map fun (before, rest) => (c :: before, rest)

/-- The two sides of a cut with the mark between them are the text. -/
theorem cut?_eq_some {mark s before rest : List Char} (h : cut? mark s = some (before, rest)) :
    s = before ++ mark ++ rest := by
  induction s generalizing before with
  | nil =>
    simp only [cut?, Option.map_eq_some_iff, Prod.mk.injEq] at h
    obtain ⟨r, hr, rfl, rfl⟩ := h
    simpa using after?_eq_some hr
  | cons c s ih =>
    simp only [cut?] at h
    split at h
    next r hr =>
      simp only [Option.some.injEq, Prod.mk.injEq] at h
      obtain ⟨rfl, rfl⟩ := h
      simpa using after?_eq_some hr
    next =>
      simp only [Option.map_eq_some_iff, Prod.mk.injEq, Prod.exists] at h
      obtain ⟨b, r, hr, rfl, rfl⟩ := h
      simpa using ih hr

/-! ## 2. Sizes -/

/-- Bytes of the characters in UTF-8. -/
def utf8Size (cs : List Char) : Nat := cs.foldl (fun n c => n + c.utf8Size) 0

/-! ## 3. ASCII -/

/-- The upper case letters of ASCII are lowered, all else is kept. -/
def lower (s : String) : String := String.ofList (s.toList.map Char.toLower)

end Trellis.Text
