/-!
# Maps with names for keys

A map from names to values is a list of pairs in the order of the names, compared code point by
code point. Looking up takes the first pair with the name; inserting keeps the order and leaves
one pair for the name. The laws say how a lookup sees an insertion.
-/
namespace Trellis

universe u

/-- Pairs of names and values in the order of the names. -/
abbrev Dict (α : Type u) := List (String × α)

namespace Dict

variable {α : Type u}

/-! ## 1. Reading -/

/-- The value under a name. -/
def get? : Dict α → String → Option α
  | [], _ => none
  | (k, v) :: rest, name => if k = name then some v else get? rest name

/-- Whether there is a value under a name. -/
def has (d : Dict α) (name : String) : Bool := (get? d name).isSome

/-- The names in order. -/
def names (d : Dict α) : List String := d.map Prod.fst

/-! ## 2. Writing -/

/-- Puts a value under a name, in place of the one that was there. -/
def insert : Dict α → String → α → Dict α
  | [], name, value => [(name, value)]
  | (k, v) :: rest, name, value =>
    if k = name then (name, value) :: rest
    else if k < name then (k, v) :: insert rest name value
    else (name, value) :: (k, v) :: rest

/-- Takes away what is under a name. -/
def erase : Dict α → String → Dict α
  | [], _ => []
  | (k, v) :: rest, name => if k = name then erase rest name else (k, v) :: erase rest name

/-- The map of a list of pairs in any order; of a repeated name the last pair counts. -/
def ofPairs (pairs : List (String × α)) : Dict α :=
  pairs.foldl (fun d (k, v) => insert d k v) []

/-! ## 3. Lookup after insertion -/

/-- **What was put under a name is found under it.** -/
theorem get?_insert_self (d : Dict α) (name : String) (value : α) :
    get? (insert d name value) name = some value := by
  induction d with
  | nil => simp [insert, get?]
  | cons p rest ih =>
    obtain ⟨k, v⟩ := p
    by_cases e : k = name
    · simp [insert, get?, e]
    · by_cases l : k < name
      · simp [insert, get?, e, l, ih]
      · simp [insert, get?, e, l]

/-- **Other names are not touched.** -/
theorem get?_insert_of_ne (d : Dict α) {name other : String} (value : α) (h : name ≠ other) :
    get? (insert d name value) other = get? d other := by
  induction d with
  | nil => simp [insert, get?, h]
  | cons p rest ih =>
    obtain ⟨k, v⟩ := p
    by_cases e : k = name
    · subst e; simp [insert, get?, h]
    · by_cases l : k < name
      · simp [insert, get?, e, l, ih]
      · simp [insert, get?, e, l, h]

end Dict

end Trellis
