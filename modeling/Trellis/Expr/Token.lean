import Trellis.Number.Reading
import Trellis.Text.Search
import Trellis.Expr.Syntax

/-!
# Tokens of the expression language

Readers of the smallest parts. Each takes the rest of the source and gives what it read with the
rest behind it, or nothing; blanks and comments in front of a token are skipped.
-/
namespace Trellis.Token

/-! ## 1. Blanks and comments -/

/-- Space, tab, carriage return and line feed. -/
def isBlank (c : Char) : Bool := c == ' ' || c == '\t' || c == '\r' || c == '\n'

mutual

/-- The source behind blanks and comments. -/
def skip : List Char → List Char
  | '/' :: '/' :: rest => skipLine rest
  | '/' :: '*' :: rest => skipBlock ('/' :: '*' :: rest) rest
  | c :: rest => if isBlank c then skip rest else c :: rest
  | [] => []

/-- The source behind a comment that ends with its line. -/
def skipLine : List Char → List Char
  | c :: rest => if c = '\n' ∨ c = '\r' then skip rest else skipLine rest
  | [] => []

/-- The source behind a comment that ends with its mark; one that does not end is no comment, and
    the source is the one in which it began. -/
def skipBlock (start : List Char) : List Char → List Char
  | '*' :: '/' :: rest => skip rest
  | _ :: rest => skipBlock start rest
  | [] => start

end

/-! ## 2. Marks and words -/

/-- Reads one mark. -/
def mark? (m : Char) (cs : List Char) : Option (List Char) :=
  match skip cs with
  | c :: rest => if c = m then some rest else none
  | [] => none

/-- The letters of ASCII, the underscore and the dollar sign begin a word. -/
def isWordStart (c : Char) : Bool := c.isAlpha || c == '_' || c == '$'

/-- Digits may follow. -/
def isWordChar (c : Char) : Bool := isWordStart c || Number.isDigit c

/-- Reads a whole word. -/
def word? (cs : List Char) : Option (String × List Char) :=
  match skip cs with
  | c :: rest =>
    if isWordStart c then
      some (String.ofList (c :: rest.takeWhile isWordChar), rest.dropWhile isWordChar)
    else none
  | [] => none

/-- Reads one given word. -/
def given? (w : String) (cs : List Char) : Option (List Char) :=
  match word? cs with
  | some (x, rest) => if x = w then some rest else none
  | none => none

/-- The words that are no names of variables. -/
def reserved : List String :=
  ["true", "false", "null", "undefined", "function", "var", "let", "const", "return", "if", "else"]

/-- Reads the name of a variable. -/
def name? (cs : List Char) : Option (String × List Char) :=
  match word? cs with
  | some (x, rest) => if reserved.contains x then none else some (x, rest)
  | none => none

/-! ## 3. Numbers -/

/-- The exponent part of a number and the rest; no exponent without a digit. -/
def exponentPart (cs : List Char) : List Char × List Char :=
  match cs with
  | e :: more =>
    if e = 'e' ∨ e = 'E' then
      let (sign, more) :=
        match more with
        | c :: rest => if c = '+' ∨ c = '-' then ([c], rest) else ([], c :: rest)
        | [] => ([], [])
      let ds := more.takeWhile Number.isDigit
      if ds.isEmpty then ([], cs) else (e :: (sign ++ ds), more.dropWhile Number.isDigit)
    else ([], cs)
  | [] => ([], cs)

/-- Reads the text of a number: digits with an optional point behind or between them, or a point
    with digits behind it, and an optional exponent. -/
def numberText? (cs : List Char) : Option (List Char × List Char) :=
  let cs := skip cs
  let units := cs.takeWhile Number.isDigit
  let rest := cs.dropWhile Number.isDigit
  let (fraction, rest) :=
    match rest with
    | '.' :: more => ('.' :: more.takeWhile Number.isDigit, more.dropWhile Number.isDigit)
    | _ => ([], rest)
  if units.isEmpty && fraction.length < 2 then none
  else
    let (e, rest) := exponentPart rest
    some (units ++ fraction ++ e, rest)

/-- Reads a number. -/
def number? (cs : List Char) : Option (Float × List Char) :=
  (numberText? cs).map fun (t, rest) => ((Number.parse? t).getD Number.nan, rest)

/-! ## 4. Texts -/

/-- The characters up to the closing quote, escapes untouched, and the rest. -/
def rawText? (quote : Char) : List Char → Option (List Char × List Char)
  | [] => none
  | c :: rest =>
    if c = quote then some ([], rest)
    else if c = '\\' then
      match rest with
      | [] => none
      | e :: more => (rawText? quote more).map fun (t, rest) => (c :: e :: t, rest)
    else (rawText? quote rest).map fun (t, rest) => (c :: t, rest)

/-- The value of a run of hexadecimal digits; a plus sign is allowed in front. -/
def hexValue? (cs : List Char) : Option Nat :=
  let ds :=
    match cs with
    | '+' :: more => more
    | _ => cs
  if ds.isEmpty then none
  else
    ds.foldl (fun n? d =>
      n?.bind fun n =>
        if Number.isDigit d then some (16 * n + (d.toNat - 48))
        else if 'a' ≤ d ∧ d ≤ 'f' then some (16 * n + (d.toNat - 87))
        else if 'A' ≤ d ∧ d ≤ 'F' then some (16 * n + (d.toNat - 55))
        else none) (some 0)

/-- The character with the number that four characters write; what is no such number stands for
    itself. -/
def numbered (hex : List Char) : List Char :=
  match hexValue? hex with
  | some n => if n.isValidChar then [Char.ofNat n] else hex
  | none => hex

/-- The character that a backslash and a letter stand for. -/
def escaped (c : Char) : Char :=
  match c with
  | 'n' => '\n'
  | 't' => '\t'
  | 'r' => '\r'
  | '0' => '\x00'
  | c => c

mutual

/-- The characters that a raw text stands for. -/
def unescape : List Char → List Char
  | [] => []
  | c :: rest => if c = '\\' then unescapeOne rest else c :: unescape rest

/-- The same behind a backslash. -/
def unescapeOne : List Char → List Char
  | [] => []
  | c :: rest => if c = 'u' then unescapeHex 3 [] rest else escaped c :: unescape rest

/-- The same inside an escape by number: `read` has been read of it, and up to `more` characters
    after the next one belong to it. -/
def unescapeHex (more : Nat) (read : List Char) : List Char → List Char
  | [] => numbered read
  | c :: rest =>
    match more with
    | 0 => numbered (read ++ [c]) ++ unescape rest
    | n + 1 => unescapeHex n (read ++ [c]) rest

end

/-- Reads a text between double or single quotes. -/
def text? (cs : List Char) : Option (String × List Char) :=
  match skip cs with
  | c :: rest =>
    if c = '"' ∨ c = '\x27' then
      (rawText? c rest).map fun (t, rest) => (String.ofList (unescape t), rest)
    else none
  | [] => none

/-! ## 5. Operators -/

/-- Reads an operator that stands in front of its operand. -/
def unaryOp? (cs : List Char) : Option (UnaryOp × List Char) :=
  match skip cs with
  | '!' :: rest => some (.not, rest)
  | '-' :: rest => some (.neg, rest)
  | '+' :: rest => some (.pos, rest)
  | _ => none

/-- An operator between two operands. -/
inductive Connective where
  | logic (op : LogicOp)
  | value (op : BinaryOp)
  deriving DecidableEq, Repr

/-- Reads an operator between two operands; of two that begin alike the longer one. -/
def connective? (cs : List Char) : Option (Connective × List Char) :=
  match skip cs with
  | '|' :: '|' :: rest => some (.logic .or, rest)
  | '&' :: '&' :: rest => some (.logic .and, rest)
  | '=' :: '=' :: '=' :: rest => some (.value .strictEq, rest)
  | '!' :: '=' :: '=' :: rest => some (.value .strictNe, rest)
  | '=' :: '=' :: rest => some (.value .eq, rest)
  | '!' :: '=' :: rest => some (.value .ne, rest)
  | '<' :: '=' :: rest => some (.value .le, rest)
  | '>' :: '=' :: rest => some (.value .ge, rest)
  | '<' :: rest => some (.value .lt, rest)
  | '>' :: rest => some (.value .gt, rest)
  | '+' :: rest => some (.value .add, rest)
  | '-' :: rest => some (.value .sub, rest)
  | '*' :: rest => some (.value .mul, rest)
  | '/' :: rest => some (.value .div, rest)
  | '%' :: rest => some (.value .rem, rest)
  | _ => none

/-- Reads an assignment operator; an equals sign before another one is none. -/
def assignOp? (cs : List Char) : Option (AssignOp × List Char) :=
  match skip cs with
  | '+' :: '=' :: rest => some (.add, rest)
  | '-' :: '=' :: rest => some (.sub, rest)
  | '=' :: rest =>
    match skip rest with
    | '=' :: _ => none
    | _ => some (.set, rest)
  | _ => none

end Trellis.Token
