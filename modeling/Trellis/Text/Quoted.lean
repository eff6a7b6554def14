import Trellis.Text.Hidden

/-!
# Quoted text

A text between double quotes on one line, as outlines and patch listings write it. A double quote
and a backslash get a backslash in front, the usual controls have letters of their own, and what
would not be seen is written as its number in braces.
-/
namespace Trellis.Text

/-! ## 1. One character -/

/-- The character as it stands between the quotes. -/
def quotedChar (c : Char) : List Char :=
  match c with
  | '"' => ['\\', '"']
  | '\\' => ['\\', '\\']
  | '\n' => ['\\', 'n']
  | '\r' => ['\\', 'r']
  | '\t' => ['\\', 't']
  | '\x00' => ['\\', '0']
  | c =>
    if isHidden c then
      ['\\', 'u', '\x7b'] ++ Nat.toDigits 16 c.toNat ++ ['\x7d']
    else [c]

/-! ## 2. The text -/

/-- The text between double quotes. -/
def quoted (s : String) : String :=
  String.ofList ('"' :: (s.toList.flatMap quotedChar ++ ['"']))

end Trellis.Text
