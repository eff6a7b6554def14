import Trellis.Expr.Eval
import Trellis.Expr.Grammar
import Trellis.Markup.Error

/-!
# Script modules

A module is run once. Its top level writes the globals of the module; among them is `module`, and
what `module.exports` holds at the end is what the module exports. The globals are kept, since
functions of the module read them whenever they are called.
-/
namespace Trellis

/-! ## 1. Running a module -/

/-- What a module has left: the globals of all modules so far, its own last, and its exports. -/
structure ModuleRun where
  globals : List (Dict Value)
  exports : Value

/-- The globals before the first statement. -/
def initialGlobals : Dict Value := [("module", .object [("exports", .object [])])]

/-- The place of a module's run. -/
def modulePlace (module : Nat) : Place := [module, 0]

/-- Runs the statements of a module after those whose globals are given. -/
def runModule (globals : List (Dict Value)) (body : List Stmt) : ModuleRun :=
  let module := globals.length
  let start : Machine := ⟨globals ++ [initialGlobals], 0⟩
  let (_, frame, m) :=
    Stmt.exec callFunction (modulePlace module) (.block body) ⟨[], module, true⟩ start
  { globals := m.globals, exports := (frame.lookup m "exports").getD .undefined }

/-- Reads and runs the module `name`. -/
def evaluateModule (globals : List (Dict Value)) (name source : String) :
    Except MarkupError ModuleRun :=
  match Grammar.parseModule? source with
  | some body => .ok (runModule globals body)
  | none => .error (.script name)

/-! ## 2. Calls from outside -/

/-- The place of the call number `i` from outside. -/
def callPlace (i : Nat) : Place := [i, 2]

/-- Calls a value with arguments; only functions can be called. -/
def Value.call? (f : Value) (m : Machine) (place : Place) (args : List Value) :
    Option (Value × Machine) :=
  match f with
  | .function _ module code captured => some (callFunction place module code captured args m)
  | _ => none

end Trellis
