import Trellis.Json.Basic
import Trellis.Number.Reading
import Trellis.Text.Search

/-!
# Reading JSON

`Json.parse?` reads one document that takes up the whole text. The reading is strict: no comma
before a closing bracket, no zero in front of a number, no control character in a string, no half
of a surrogate pair, and at most 127 containers inside each other. A number that is no 64-bit
integer is gathered into a 64-bit coefficient and a power of ten, and rounded once when the
coefficient becomes a double and once when it is scaled; a number beyond the largest double is
refused.
-/
namespace Trellis.Json

/-! ## 1. Blanks and words -/

/-- Space, tab, line feed and carriage return. -/
def isBlank (c : Char) : Bool := c == ' ' || c == '\t' || c == '\n' || c == '\r'

/-- The text behind leading blanks. -/
def skip (cs : List Char) : List Char := cs.dropWhile isBlank

/-! ## 2. Numbers -/

/-- The first number that does not fit into 64 bits. -/
def wordBound : Nat := Nat.pow 2 64

/-- A coefficient and a power of ten while digits come in; once full, the coefficient takes no
    more digits. -/
structure Gathered where
  coefficient : Nat
  exponent : Int
  full : Bool

/-- One more digit before the point: one that does not fit only scales. -/
def Gathered.unit (g : Gathered) (d : Char) : Gathered :=
  let next := 10 * g.coefficient + (d.toNat - 48)
  if g.full || wordBound ≤ next then { g with exponent := g.exponent + 1, full := true }
  else { g with coefficient := next }

/-- One more digit behind the point: one that does not fit is dropped, and so are all after it. -/
def Gathered.fraction (g : Gathered) (d : Char) : Gathered :=
  let next := 10 * g.coefficient + (d.toNat - 48)
  if g.full || wordBound ≤ next then { g with full := true }
  else { g with coefficient := next, exponent := g.exponent - 1 }

/-- Divides by `10 ^ 308` a number of times. -/
def lowered : Nat → Float → Float
  | 0, x => x
  | n + 1, x => lowered n (x / Float.ofScientific 1 false 308)

/-- The coefficient as a double, scaled by the power of ten; none when the result is infinite. -/
def scaled? (coefficient : Nat) (exponent : Int) : Option Float :=
  let x := Float.ofNat coefficient
  if coefficient = 0 then some 0.0
  else if 0 ≤ exponent then
    if 308 < exponent then none
    else
      let y := x * Float.ofScientific 1 false exponent.toNat
      if y.isInf then none else some y
  else
    let size := exponent.natAbs
    let rounds := min ((size - 1) / 308) 4
    some (lowered rounds x / Float.ofScientific 1 false (min 308 (size - 308 * rounds)))

/-- The exponent part if there is one, and the rest. -/
def exponent? : List Char → Option (Int × List Char)
  | c :: cs =>
    if c = 'e' ∨ c = 'E' then
      let (negative, cs) := Number.takeSign cs
      let ds := cs.takeWhile Number.isDigit
      if ds.isEmpty then none
      else
        let size : Int := Number.digitsValue ds
        some (if negative then -size else size, cs.dropWhile Number.isDigit)
    else some (0, c :: cs)
  | [] => some (0, [])

/-- The integer a number without point and exponent denotes, or the double nearest to it when 64
    bits do not hold it; minus zero is a double. -/
def whole (negative : Bool) (n : Nat) : Json :=
  if !negative then .integer n
  else if n = 0 ∨ Nat.pow 2 63 < n then .real (-(Float.ofNat n))
  else .integer (-n)

/-- A number and the rest of the text. -/
def number? (cs : List Char) : Option (Json × List Char) :=
  let (negative, cs) :=
    match cs with
    | '-' :: more => (true, more)
    | _ => (false, cs)
  let units := cs.takeWhile Number.isDigit
  let rest := cs.dropWhile Number.isDigit
  if units.isEmpty || (units.head? == some '0' && 1 < units.length) then none
  else
    let g := units.foldl Gathered.unit ⟨0, 0, false⟩
    let finish (g : Gathered) (rest : List Char) : Option (Json × List Char) :=
      match exponent? rest with
      | none => none
      | some (e, rest) =>
        (scaled? g.coefficient (g.exponent + e)).map fun x =>
          (.real (if negative then -x else x), rest)
    match rest with
    | '.' :: more =>
      let ds := more.takeWhile Number.isDigit
      if ds.isEmpty then none
      else finish (ds.foldl Gathered.fraction { g with full := false }) (more.dropWhile Number.isDigit)
    | c :: _ =>
      if c = 'e' ∨ c = 'E' ∨ g.full then finish g rest
      else some (whole negative g.coefficient, rest)
    | [] => if g.full then finish g rest else some (whole negative g.coefficient, rest)

/-! ## 3. Strings -/

/-- The value of a hexadecimal digit. -/
def hexDigit? (c : Char) : Option Nat :=
  if '0' ≤ c ∧ c ≤ '9' then some (c.toNat - 48)
  else if 'a' ≤ c ∧ c ≤ 'f' then some (c.toNat - 87)
  else if 'A' ≤ c ∧ c ≤ 'F' then some (c.toNat - 55)
  else none

/-- The number that four hexadecimal digits write, and the rest. -/
def hexUnit? : List Char → Option (Nat × List Char)
  | a :: b :: c :: d :: rest =>
    match hexDigit? a, hexDigit? b, hexDigit? c, hexDigit? d with
    | some a, some b, some c, some d => some (((a * 16 + b) * 16 + c) * 16 + d, rest)
    | _, _, _, _ => none
  | _ => none

/-- The character that an escape by number writes, and the rest; halves of a pair only count
    together. -/
def numbered? (cs : List Char) : Option (Char × List Char) :=
  match hexUnit? cs with
  | none => none
  | some (unit, rest) =>
    if 0xDC00 ≤ unit ∧ unit ≤ 0xDFFF then none
    else if 0xD800 ≤ unit ∧ unit ≤ 0xDBFF then
      match rest with
      | '\\' :: 'u' :: more =>
        match hexUnit? more with
        | some (low, rest) =>
          if 0xDC00 ≤ low ∧ low ≤ 0xDFFF then
            some (Char.ofNat (0x10000 + (unit - 0xD800) * 0x400 + (low - 0xDC00)), rest)
          else none
        | none => none
      | _ => none
    else some (Char.ofNat unit, rest)

/-- The character behind a backslash, unless it is an escape by number. -/
def named? (c : Char) : Option Char :=
  match c with
  | '"' => some '"'
  | '\\' => some '\\'
  | '/' => some '/'
  | 'b' => some '\x08'
  | 'f' => some '\x0c'
  | 'n' => some '\n'
  | 'r' => some '\r'
  | 't' => some '\t'
  | _ => none

/-- The characters up to the closing quote, and the rest; `read` holds what came before, last
    character first. -/
def string? : Nat → List Char → List Char → Option (String × List Char)
  | 0, _, _ => none
  | _ + 1, _, [] => none
  | fuel + 1, read, c :: cs =>
    if c = '"' then some (String.ofList read.reverse, cs)
    else if c.toNat < 0x20 then none
    else if c = '\\' then
      match cs with
      | [] => none
      | e :: more =>
        if e = 'u' then
          match numbered? more with
          | some (x, rest) => string? fuel (x :: read) rest
          | none => none
        else
          match named? e with
          | some x => string? fuel (x :: read) more
          | none => none
    else string? fuel (c :: read) cs

/-! ## 4. Documents -/

mutual

/-- A document behind blanks, and the rest. The second argument is one more than the number of
    containers that may still be opened. -/
def value? : Nat → Nat → List Char → Option (Json × List Char)
  | 0, _, _ => none
  | fuel + 1, depth, cs =>
    match skip cs with
    | 'n' :: rest => (Text.after? ['u', 'l', 'l'] rest).map fun rest => (.null, rest)
    | 't' :: rest => (Text.after? ['r', 'u', 'e'] rest).map fun rest => (.bool true, rest)
    | 'f' :: rest => (Text.after? ['a', 'l', 's', 'e'] rest).map fun rest => (.bool false, rest)
    | '"' :: rest => (string? (rest.length + 1) [] rest).map fun (s, rest) => (.string s, rest)
    | '[' :: rest =>
      if depth ≤ 1 then none
      else
        match skip rest with
        | ']' :: rest => some (.array [], rest)
        | rest => items? fuel (depth - 1) [] rest
    | '\x7b' :: rest =>
      if depth ≤ 1 then none
      else
        match skip rest with
        | '\x7d' :: rest => some (.object [], rest)
        | rest => fields? fuel (depth - 1) [] rest
    | cs => number? cs

/-- The items up to the closing bracket; `read` holds those before, the last one first. -/
def items? : Nat → Nat → List Json → List Char → Option (Json × List Char)
  | 0, _, _, _ => none
  | fuel + 1, depth, read, cs =>
    match value? fuel depth cs with
    | none => none
    | some (v, rest) =>
      match skip rest with
      | ',' :: rest => items? fuel depth (v :: read) rest
      | ']' :: rest => some (.array (v :: read).reverse, rest)
      | _ => none

/-- The fields up to the closing brace; `read` holds those before, the last one first. -/
def fields? : Nat → Nat → List (String × Json) → List Char → Option (Json × List Char)
  | 0, _, _, _ => none
  | fuel + 1, depth, read, cs =>
    match skip cs with
    | '"' :: rest =>
      match string? (rest.length + 1) [] rest with
      | none => none
      | some (k, rest) =>
        match skip rest with
        | ':' :: rest =>
          match value? fuel depth rest with
          | none => none
          | some (v, rest) =>
            match skip rest with
            | ',' :: rest => fields? fuel depth ((k, v) :: read) rest
            | '\x7d' :: rest => some (.object ((k, v) :: read).reverse, rest)
            | _ => none
        | _ => none
    | _ => none

end

/-- How many containers may stand inside each other, plus one. -/
def depthLimit : Nat := 128

/-- The document that a text is. -/
def parse? (s : String) : Option Json :=
  let cs := s.toList
  match value? (2 * cs.length + 2) depthLimit cs with
  | some (j, rest) => if (skip rest).isEmpty then some j else none
  | none => none

end Trellis.Json
