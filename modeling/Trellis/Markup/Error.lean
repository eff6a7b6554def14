/-!
# What can be wrong with markup

Every failure on the way from markup to a template, with its message. A message quotes source text
between backquotes.
-/
namespace Trellis

/-! ## 1. Causes -/

/-- Why markup is no template. -/
inductive MarkupError where
  /-- No comment, end tag or start tag begins at a `<`. -/
  | scan (offset : Nat) (fragment : String)
  /-- An element is still open at the end. -/
  | unbalanced (tag : String)
  /-- A tag names no native element and no registered component. -/
  | componentNotFound (tag : String)
  /-- The source between double braces is no expression. -/
  | expression (source : String)
  /-- The body of a script element is no list of statements. -/
  | script (module : String)
  /-- A template of that name is already registered. -/
  | duplicateTemplate (name : String)
  deriving DecidableEq, Repr

/-! ## 2. Messages -/

/-- A text between backquotes. -/
def backquoted (s : String) : String := "\x60" ++ s ++ "\x60"

/-- The message of a failure. -/
def MarkupError.message : MarkupError → String
  | .scan offset fragment => "parse error at byte " ++ toString offset ++ ": " ++ backquoted fragment
  | .unbalanced tag => "build ast error: <" ++ tag ++ "> is never closed"
  | .componentNotFound tag => "component " ++ tag ++ " not found"
  | .expression source => "invalid expression " ++ backquoted source
  | .script module => "script module " ++ backquoted module ++ " does not parse"
  | .duplicateTemplate name => "template " ++ backquoted name ++ " is already registered"

end Trellis
