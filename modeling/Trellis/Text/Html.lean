/-!
# Text inside a page

Four characters have a meaning in a page: `&`, `<`, `>` and the double quote. `escape` writes the
entity for each of them and keeps every other character, so a text or an attribute value can
neither open nor close a tag.
-/
namespace Trellis.Text

/-- The character as it stands in a page. -/
def entity (c : Char) : List Char :=
  match c with
  | '&' => ['&', 'a', 'm', 'p', ';']
  | '<' => ['&', 'l', 't', ';']
  | '>' => ['&', 'g', 't', ';']
  | '"' => ['&', 'q', 'u', 'o', 't', ';']
  | c => [c]

/-- The characters as they stand in a page. -/
def escapeChars (cs : List Char) : List Char := cs.flatMap entity

/-- The text as it stands in a page. -/
def escape (s : String) : String := String.ofList (escapeChars s.toList)

/-- Escaping goes character by character. -/
theorem escapeChars_cons (c : Char) (cs : List Char) :
    escapeChars (c :: cs) = entity c ++ escapeChars cs := by
  simp [escapeChars]

end Trellis.Text
