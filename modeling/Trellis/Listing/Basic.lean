import Trellis.Text.Quoted

/-!
# Listings

A listing shows nested data over several lines. What has parts stands open: each part is on lines
of its own, four columns deeper, with a comma behind it. A list or a map with nothing in it stays
on one line.
-/
namespace Trellis

/-- Data to be listed. -/
inductive Listing where
  | word (text : String)
  /-- A name with parts between round brackets. -/
  | wrap (name : String) (parts : List Listing)
  /-- A name with labelled parts between braces; when cut, two dots stand for more of them. -/
  | record (name : String) (fields : List (String × Listing)) (cut : Bool)
  /-- Parts between square brackets. -/
  | items (parts : List Listing)
  /-- Labelled parts between braces. -/
  | entries (parts : List (String × Listing))

namespace Listing

/-- A text in quotes. -/
def quoted (s : String) : Listing := .word (Text.quoted s)

/-- A number without a sign. -/
def ofNat (n : Nat) : Listing := .word (toString n)

/-- A yes or no. -/
def ofBool (b : Bool) : Listing := .word (if b then "true" else "false")

/-- What may be there. -/
def ofOption : Option Listing → Listing
  | some l => .wrap "Some" [l]
  | none => .word "None"

/-- The blanks in front of a line. -/
def pad (depth : Nat) : String := String.ofList (List.replicate (4 * depth) ' ')

mutual

/-- The text of a listing whose first line stands at a depth already. -/
def write (depth : Nat) : Listing → String
  | .word text => text
  | .wrap name parts => name ++ "(\n" ++ writeParts (depth + 1) parts ++ pad depth ++ ")"
  | .record name fields cut =>
    name ++ " \x7b\n" ++ writeLabelled (depth + 1) fields
      ++ (if cut then pad (depth + 1) ++ "..\n" else "") ++ pad depth ++ "\x7d"
  | .items [] => "[]"
  | .items (part :: parts) =>
    "[\n" ++ pad (depth + 1) ++ write (depth + 1) part ++ ",\n" ++ writeParts (depth + 1) parts
      ++ pad depth ++ "]"
  | .entries [] => "\x7b\x7d"
  | .entries ((label, part) :: parts) =>
    "\x7b\n" ++ pad (depth + 1) ++ label ++ ": " ++ write (depth + 1) part ++ ",\n"
      ++ writeLabelled (depth + 1) parts ++ pad depth ++ "\x7d"

/-- Parts on lines of their own. -/
def writeParts (depth : Nat) : List Listing → String
  | [] => ""
  | part :: parts => pad depth ++ write depth part ++ ",\n" ++ writeParts depth parts

/-- Labelled parts on lines of their own. -/
def writeLabelled (depth : Nat) : List (String × Listing) → String
  | [] => ""
  | (label, part) :: parts =>
    pad depth ++ label ++ ": " ++ write depth part ++ ",\n" ++ writeLabelled depth parts

end

end Listing

end Trellis
