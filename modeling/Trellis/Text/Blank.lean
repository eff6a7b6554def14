/-!
# White space

Two notions of white space and what is cut along them:
- `isBlank`: the characters with the Unicode property White_Space; texts are trimmed and split
  into words along these,
- `isAsciiBlank`: space, tab, line feed, form feed and carriage return; tags are read with these.
-/
namespace Trellis.Text

/-! ## 1. Classes -/

/-- Blank: the character has the property White_Space. -/
def isBlank (c : Char) : Bool :=
  let n := c.toNat
  (9 ≤ n && n ≤ 13) || n == 32 || n == 0x85 || n == 0xA0 || n == 0x1680 ||
    (0x2000 ≤ n && n ≤ 0x200A) || n == 0x2028 || n == 0x2029 || n == 0x202F ||
    n == 0x205F || n == 0x3000

/-- Blank inside a tag: space, tab, line feed, form feed, carriage return. -/
def isAsciiBlank (c : Char) : Bool :=
  c == ' ' || c == '\t' || c == '\n' || c == '\x0c' || c == '\r'

/-! ## 2. Cutting -/

/-- The characters between the leading and the trailing blanks. -/
def trimChars (cs : List Char) : List Char :=
  ((cs.dropWhile isBlank).reverse.dropWhile isBlank).reverse

/-- The text without leading and trailing blanks. -/
def trim (s : String) : String := String.ofList (trimChars s.toList)

/-- Puts a word in front of the others unless it is empty. -/
def consWord (word : List Char) (words : List (List Char)) : List (List Char) :=
  if word.isEmpty then words else word :: words

/-- One more character at the front: a blank ends the word that follows it. -/
def wordStep (c : Char) (state : List Char × List (List Char)) : List Char × List (List Char) :=
  if isBlank c then ([], consWord state.1 state.2) else (c :: state.1, state.2)

/-- The maximal runs of characters that are not blank, in order. -/
def words (cs : List Char) : List (List Char) :=
  let state := cs.foldr wordStep ([], [])
  consWord state.1 state.2

/-- The words of a text with one space between neighbours. -/
def collapse (s : String) : String :=
  " ".intercalate ((words s.toList).map String.ofList)

end Trellis.Text
