import Trellis.Command.Basic

/-!
# The command line

A command line names what is to be done, a template file, and options before or behind it. An
option is followed by its value, or joined to it by an equals sign; `--component` may be given more
than once, of any other option the last one counts.
-/
namespace Trellis.Command

/-! ## 1. Requests -/

/-- What is to be done. -/
inductive Action where
  | render (data : Option String)
  | outline
  | diff (before after : String) (apply : Bool)
  deriving DecidableEq, Repr

/-- A whole command line. -/
structure Request where
  action : Action
  input : String
  dialect : Dialect

/-- The files that a request may read. -/
def Request.paths (r : Request) : List String :=
  r.dialect.config.toList ++ r.dialect.components ++ [r.input]
    ++ match r.action with
      | .render data => data.toList
      | .outline => []
      | .diff before after _ => [before, after]

/-- Does what a request says. -/
def Request.run (r : Request) (files : Files) : Except CommandError String :=
  match r.action with
  | .render data => renderFile files r.dialect r.input data
  | .outline => outlineFile files r.dialect r.input
  | .diff before after apply => diffFiles files r.dialect r.input before after apply

/-! ## 2. Reading the words -/

/-- The words of a command line, sorted. -/
structure Words where
  plain : List String
  options : List (String × String)
  apply : Bool

/-- The options that are followed by a value. -/
def valued : List String :=
  ["--config", "--namespace", "--script-tag", "--component", "-c", "--data", "--data2"]

/-- An option and its value when they are one word. -/
def joined? (word : String) : Option (String × String) :=
  match word.toList.span (· ≠ '=') with
  | (name, '=' :: value) =>
    if valued.contains (String.ofList name) then some (String.ofList name, String.ofList value)
    else none
  | _ => none

/-- Sorts words; there is nothing for an option without a value, or for one that is not known. -/
def sortWords : List String → Option Words
  | [] => some ⟨[], [], false⟩
  | word :: rest =>
    if word == "--apply" then (sortWords rest).map fun w => { w with apply := true }
    else if valued.contains word then
      match rest with
      | [] => none
      | value :: rest =>
        (sortWords rest).map fun w => { w with options := (word, value) :: w.options }
    else
      match joined? word with
      | some option => (sortWords rest).map fun w => { w with options := option :: w.options }
      | none =>
        if word.startsWith "-" then none
        else (sortWords rest).map fun w => { w with plain := word :: w.plain }

/-- The values of an option, in order. -/
def Words.values (w : Words) (names : List String) : List String :=
  (w.options.filter fun o => names.contains o.1).map Prod.snd

/-- The value of an option that is given last. -/
def Words.value? (w : Words) (name : String) : Option String := (w.values [name]).getLast?

/-- The dialect that the options say. -/
def Words.dialect (w : Words) : Dialect :=
  { config := w.value? "--config", mark := w.value? "--namespace"
    scriptTag := w.value? "--script-tag", components := w.values ["--component", "-c"] }

/-- The request that a command line makes. -/
def request? (words : List String) : Option Request := do
  let w ← sortWords words
  match w.plain with
  | ["render", input] => some ⟨.render (w.value? "--data"), input, w.dialect⟩
  | ["ast", input] => some ⟨.outline, input, w.dialect⟩
  | ["diff", input] =>
    some ⟨.diff (← w.value? "--data") (← w.value? "--data2") w.apply, input, w.dialect⟩
  | _ => none

/-- How a command line is written. -/
def usage : String :=
  "usage: trellis render FILE [--data FILE]\n"
    ++ "       trellis ast FILE\n"
    ++ "       trellis diff FILE --data FILE --data2 FILE [--apply]\n"
    ++ "options: --config FILE, --namespace TEXT, --script-tag TAG, --component FILE"

end Trellis.Command
