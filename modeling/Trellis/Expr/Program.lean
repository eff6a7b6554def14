import Trellis.Expr.Eval
import Trellis.Expr.Grammar
import Trellis.Markup.Error
import Trellis.Text.Blank

/-!
# Texts with expressions in them

A program is a text in which some regions, each from two opening braces to the next two closing ones, are
expressions. A program that is one expression has that expression's value; any other one has the
text of its parts, one behind the other.
-/
namespace Trellis

/-! ## 1. Pieces of a text -/

/-- A part of a text: literal characters, or what stands between the braces of a region. -/
inductive Piece where
  | literal (cs : List Char)
  | region (cs : List Char)
  deriving DecidableEq, Repr

namespace Piece

/-- The mark that opens a region. -/
def opening : List Char := ['\x7b', '\x7b']

/-- The mark that closes a region. -/
def closing : List Char := ['\x7d', '\x7d']

/-- A literal piece, unless it is empty. -/
def literal? (cs : List Char) : List Piece := if cs.isEmpty then [] else [.literal cs]

/-- The text that a piece stands for. -/
def chars : Piece → List Char
  | .literal cs => cs
  | .region cs => opening ++ cs ++ closing

/-- Cuts a text at its regions; fuel is the number of regions that may still be found. -/
def splitFrom : Nat → List Char → List Piece
  | 0, cs => literal? cs
  | fuel + 1, cs =>
    match Text.cut? opening cs with
    | none => literal? cs
    | some (before, rest) =>
      match Text.cut? closing rest with
      | none => literal? before ++ [.literal (opening ++ rest)]
      | some (inner, rest) => literal? before ++ .region inner :: splitFrom fuel rest

/-- Cuts a text at its regions: an opening mark without a closing one behind it stays literal. -/
def split (cs : List Char) : List Piece := splitFrom cs.length cs

end Piece

/-! ## 2. Programs -/

/-- A compiled part of a text. -/
inductive Segment where
  | text (s : String)
  | expr (e : Expr)

/-- A compiled text. -/
structure Program where
  source : String
  segments : List Segment

namespace Program

/-- The program of a bare attribute, which always is `true`. -/
def constantTrue : Program := ⟨"true", [.expr (.literal (.bool true))]⟩

/-- The compiled form of a piece; a blank region is `undefined`. -/
def segment (p : Piece) : Except MarkupError Segment :=
  match p with
  | .literal cs => .ok (.text (String.ofList cs))
  | .region cs =>
    if (Text.trimChars cs).isEmpty then .ok (.expr (.literal .undefined))
    else
      match Grammar.parseExpr? (String.ofList cs) with
      | some e => .ok (.expr e)
      | none => .error (.expression (String.ofList cs))

/-- Compiles pieces in order, up to the first that fails. -/
def segmentsOf : List Piece → Except MarkupError (List Segment)
  | [] => .ok []
  | p :: ps =>
    match segment p with
    | .error e => .error e
    | .ok s =>
      match segmentsOf ps with
      | .error e => .error e
      | .ok ss => .ok (s :: ss)

/-- Compiles a text. -/
def compile (s : String) : Except MarkupError Program :=
  (segmentsOf (Piece.split s.toList)).map fun segments => ⟨s, segments⟩

/-- Whether no part is an expression. -/
def isStatic (p : Program) : Bool :=
  p.segments.all fun s =>
    match s with
    | .text _ => true
    | .expr _ => false

/-! ## 3. Values -/

/-- The value of one segment at position `i`. -/
def segmentValue (m : Machine) (layers : Layers) (place : Place) (i : Nat) : Segment → Value
  | .text s => .string s
  | .expr e => e.value m layers (i :: place)

/-- The texts of segments one behind the other, the first of them at position `i`. -/
def joined (m : Machine) (layers : Layers) (place : Place) : Nat → List Segment → String
  | _, [] => ""
  | i, s :: ss => (segmentValue m layers place i s).toText ++ joined m layers place (i + 1) ss

/-- The value of a program. -/
def value (p : Program) (m : Machine) (layers : Layers) (place : Place) : Value :=
  match p.segments with
  | [s] => segmentValue m layers place 0 s
  | ss => .string (joined m layers place 0 ss)

end Program

/-- Compiles a bare expression. -/
def compileExpr (s : String) : Except MarkupError Expr :=
  match Grammar.parseExpr? s with
  | some e => .ok e
  | none => .error (.expression s)

end Trellis
