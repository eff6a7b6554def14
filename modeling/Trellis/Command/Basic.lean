import Trellis.Command.Files
import Trellis.Component.Basic
import Trellis.Json.Reader
import Trellis.Listing.Patch
import Trellis.Template.Outline
import Trellis.Template.Registry
import Trellis.Value.Json

/-!
# Commands

What is done with template files: `renderFile` writes the page of a template for data,
`outlineFile` its outline, `diffFiles` what changes between two sets of data, as a listing or as
the page after the change. Each file is registered under its stem, the components first. The
configuration is read before the components, these before the template, the template before the
data; the first failure ends the command.
-/
namespace Trellis

/-! ## 1. Failures -/

/-- Why a command fails. -/
inductive CommandError where
  | unreadable (path : String)
  | badConfig (path : String)
  | badJson (path : String)
  | notAnObject (path found : String)
  | notCompiled (path : String) (cause : MarkupError)
  | notRendered (cause : HostError)
  | notPatched (cause : HostError)
  deriving DecidableEq, Repr

/-- The message of a failure. -/
def CommandError.message : CommandError → String
  | .unreadable path => "failed to read " ++ path
  | .badConfig path => "invalid config " ++ path
  | .badJson path => "invalid JSON in " ++ path
  | .notAnObject path found => path ++ " must hold a JSON object, found " ++ found
  | .notCompiled path _ => "failed to compile " ++ path
  | .notRendered _ => "render failed"
  | .notPatched _ => "patch failed"

/-- What is wrong with the markup, if that is why the command fails. -/
def CommandError.markup? : CommandError → Option MarkupError
  | .notCompiled _ cause => some cause
  | _ => none

namespace Command

/-! ## 2. Reading -/

/-- What the templates of a command are written in: a configuration file, what is said instead of
    it, and the files of the components. -/
structure Dialect where
  config : Option String
  mark : Option String
  scriptTag : Option String
  components : List String

/-- The content of a file. -/
def readFile (files : Files) (path : String) : Except CommandError String :=
  match files path with
  | some content => .ok content
  | none => .error (.unreadable path)

/-- The configuration of a dialect. -/
def loadConfig (files : Files) (d : Dialect) : Except CommandError Markup.Config := do
  let base ←
    match d.config with
    | none => pure Markup.Config.standard
    | some path => do
      let content ← readFile files path
      match (Json.parse? content).bind Markup.Config.ofJson? with
      | some c => pure c
      | none => throw (.badConfig path)
  pure { base with mark := d.mark.getD base.mark, scriptTag := d.scriptTag.getD base.scriptTag }

/-- The data in a file. -/
def loadData (files : Files) (path : String) : Except CommandError (Dict Value) := do
  let content ← readFile files path
  match Json.parse? content with
  | none => throw (.badJson path)
  | some j =>
    match Value.ofJson j with
    | .object fields => pure fields
    | v => throw (.notAnObject path v.typeName)

/-- The data in a file that need not be given. -/
def loadDataIfAny (files : Files) : Option String → Except CommandError (Dict Value)
  | some path => loadData files path
  | none => .ok []

/-- Registers the template in a file. -/
def registerFile (files : Files) (r : Registry) (path : String) :
    Except CommandError (Template × Registry) := do
  let content ← readFile files path
  match r.register (Files.stem path) content [] with
  | (.ok t, r) => pure (t, r)
  | (.error e, _) => throw (.notCompiled path e)

/-- The template in a file, built against the components. -/
def compileFile (files : Files) (d : Dialect) (input : String) : Except CommandError Template := do
  let config ← loadConfig files d
  let r ← d.components.foldlM (fun r path => (registerFile files r path).map Prod.snd)
    (Registry.empty config)
  let (t, _) ← registerFile files r input
  pure t

/-! ## 3. Commands -/

/-- A component that shows a template in a host of its own. -/
def start (t : Template) (data : Dict Value) : Except CommandError (Component Unit) :=
  (Component.fresh t data).mapError .notRendered

/-- The page of a template for data. -/
def renderFile (files : Files) (d : Dialect) (input : String) (data : Option String) :
    Except CommandError String := do
  let t ← compileFile files d input
  let c ← start t (← loadDataIfAny files data)
  pure c.toHtml

/-- The outline of a template. -/
def outlineFile (files : Files) (d : Dialect) (input : String) : Except CommandError String := do
  let t ← compileFile files d input
  pure t.outline

/-- What changes in the page of a template from one set of data to another. -/
def listDiff (t : Template) (before after : Dict Value) : String :=
  Patch.listAll (diff (t.generate 0 before) (t.generate 1 after))

/-- The page of a template for data that are merged into others once those are shown. -/
def patchedPage (t : Template) (before after : Dict Value) : Except CommandError String := do
  let c ← start t before
  match c.setData after with
  | (.ok _, c) => pure c.toHtml
  | (.error e, _) => throw (.notPatched e)

/-- What changes between two sets of data, or the page after the change. -/
def diffFiles (files : Files) (d : Dialect) (input before after : String) (apply : Bool) :
    Except CommandError String := do
  let t ← compileFile files d input
  let before ← loadData files before
  let after ← loadData files after
  if apply then patchedPage t before after else pure (listDiff t before after)

end Command

end Trellis
