import Trellis.Text.Search

/-!
# Runs of characters

A reader that takes the characters of a class off a text takes exactly the run that was put there,
when what follows does not go on with the class (`Stops`).
-/

namespace Trellis.Text

/-- The text does not begin with a character of the class. -/
def Stops (p : Char → Bool) (cs : List Char) : Prop := ∀ c ∈ cs.head?, p c = false

section

variable {p q : Char → Bool} {c : Char} {run rest : List Char}

theorem stops_nil : Stops p [] := nofun

theorem stops_cons : Stops p (c :: rest) ↔ p c = false := by
  simp [Stops]

theorem Stops.mono (h : Stops p rest) (hq : ∀ c, q c = true → p c = true) : Stops q rest := by
  intro c hc
  have := h c hc
  cases hqc : q c with
  | false => rfl
  | true => rw [hq c hqc] at this; cases this

theorem Stops.takeWhile_eq_nil (h : Stops p rest) : rest.takeWhile p = [] := by
  cases rest with
  | nil => rfl
  | cons c rest => simp [stops_cons.mp h]

theorem Stops.dropWhile_eq_self (h : Stops p rest) : rest.dropWhile p = rest := by
  cases rest with
  | nil => rfl
  | cons c rest => simp [stops_cons.mp h]

/-- **The run is taken as a whole.** -/
theorem takeWhile_run (hrun : ∀ c ∈ run, p c = true) (h : Stops p rest) :
    (run ++ rest).takeWhile p = run := by
  rw [List.takeWhile_append_of_pos hrun, h.takeWhile_eq_nil, List.append_nil]

/-- **What follows the run is left.** -/
theorem dropWhile_run (hrun : ∀ c ∈ run, p c = true) (h : Stops p rest) :
    (run ++ rest).dropWhile p = rest := by
  rw [List.dropWhile_append_of_pos hrun, h.dropWhile_eq_self]

/-- What does not go on with the class does not make the run at the front longer. -/
theorem takeWhile_append_stops (cs : List Char) (h : Stops p rest) :
    (cs ++ rest).takeWhile p = cs.takeWhile p := by
  induction cs with
  | nil => exact h.takeWhile_eq_nil
  | cons c cs ih =>
    rw [List.cons_append, List.takeWhile_cons, List.takeWhile_cons, ih]

/-- It stays behind what the run leaves. -/
theorem dropWhile_append_stops (cs : List Char) (h : Stops p rest) :
    (cs ++ rest).dropWhile p = cs.dropWhile p ++ rest := by
  induction cs with
  | nil => exact h.dropWhile_eq_self
  | cons c cs ih =>
    rw [List.cons_append, List.dropWhile_cons, List.dropWhile_cons]
    split
    · exact ih
    · rfl

/-- Where a run ends, the class ends. -/
theorem stops_dropWhile (p : Char → Bool) (cs : List Char) : Stops p (cs.dropWhile p) := by
  induction cs with
  | nil => exact stops_nil
  | cons c cs ih =>
    rw [List.dropWhile_cons]
    split
    · exact ih
    · rename_i h
      exact stops_cons.mpr (by simpa using h)

/-- What all characters of a text have is decided along the text, not along all characters. -/
instance (priority := high) decidableAllChars {p : Char → Prop} [DecidablePred p]
    (cs : List Char) : Decidable (∀ c ∈ cs, p c) := List.decidableBAll p cs

/-- A character of the class is none outside of it. -/
theorem ne_of_class {d : Char} (hc : p c = true) (hd : p d = false) : c ≠ d := by
  rintro rfl
  rw [hc] at hd
  cases hd

end

end Trellis.Text
