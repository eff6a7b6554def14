import Trellis.Expr.Script
import Trellis.Template.Attributes

/-!
# From markup to a template

`Template.ofMarkup` reads markup and builds a template from its events. Open elements wait on a
stack with what has come into them; when one closes it goes, with its statements around it, to the
element it stands in. A script is run when it closes. The first failure in the order of the events
is the failure of the whole; that the markup does not read on comes last.
-/
namespace Trellis

/-! ## 1. Kinds of elements -/

/-- Which component a tag names, for tags that are not the component's own name. -/
abbrev Using := Dict String

/-- What a template is built against: a dialect, the tags that name components, and the names of
    the components there are. -/
structure Setting where
  config : Markup.Config
  uses : Using
  known : String → Bool

/-- What an element with a tag is for. A tag that is nothing else names a component. -/
def Setting.kindOf (s : Setting) (tag : String) : Except MarkupError ElementKind :=
  match tag with
  | "slot" => .ok .slot
  | "template" => .ok .definition
  | "block" => .ok .block
  | "import" => .ok .imported
  | "include" => .ok .included
  | tag =>
    if tag = s.config.scriptTag then .ok .script
    else if s.config.isNative tag then .ok .native
    else
      let name := (Dict.get? s.uses tag).getD tag
      if s.known name then .ok (.component name) else .error (.componentNotFound tag)

/-- A text as the template keeps it. -/
def Setting.normalize (s : Setting) (text : String) : String :=
  if s.config.collapses then Text.collapse text else Text.trim text

/-! ## 2. Building -/

/-- An element that is open: what has come into it, last first, and the text of a script. -/
structure Opened where
  heading : Heading
  children : List Node
  script : String

/-- The tree of an element that closes. -/
def Opened.tree (o : Opened) : Node :=
  o.heading.statements.wrap (.element o.heading.element o.children.reverse)

/-- A template while it is built: the open elements, the innermost first, and what stands outside
    of all elements, last first. -/
structure Builder where
  opened : List Opened
  top : List Node
  exports : Dict Value
  globals : List (Dict Value)

namespace Builder

/-- Nothing has been read. -/
def start : Builder := ⟨[], [], [], []⟩

/-- Puts a tree behind the others of the innermost open element. -/
def addNode (b : Builder) (n : Node) : Builder :=
  match b.opened with
  | [] => { b with top := n :: b.top }
  | o :: rest => { b with opened := { o with children := n :: o.children } :: rest }

/-- Puts a text behind what there is, unless it is blank. -/
def addText (b : Builder) (s : Setting) (content : String) : Except MarkupError Builder :=
  let content := s.normalize content
  if content.isEmpty then .ok b else (Program.compile content).map fun p => b.addNode (.text p)

/-- Runs a script that closes; one without a name is passed over. -/
def runScript (b : Builder) (o : Opened) : Except MarkupError Builder :=
  match o.heading.element.kind, o.heading.element.module with
  | .script, some name =>
    (evaluateModule b.globals name o.script).map fun run =>
      { b with exports := Dict.insert b.exports name run.exports, globals := run.globals }
  | _, _ => .ok b

/-- Takes an event over. -/
def step (s : Setting) (b : Builder) : Markup.Event → Except MarkupError Builder
  | .opening tag attrs selfClosing => do
    let kind ← s.kindOf tag
    let heading ← Heading.read s.config kind tag attrs
    let o : Opened := ⟨heading, [], ""⟩
    pure (if selfClosing then b.addNode o.tree else { b with opened := o :: b.opened })
  | .closing tag .endOfInput => .error (.unbalanced tag)
  | .closing _ _ =>
    match b.opened with
    | [] => .ok b
    | o :: rest => (b.runScript o).map fun b => { b with opened := rest }.addNode o.tree
  | .text content =>
    match b.opened with
    | o :: rest =>
      if o.heading.element.kind = .script then
        .ok { b with opened := { o with script := o.script ++ content } :: rest }
      else b.addText s content
    | [] => b.addText s content

end Builder

/-! ## 3. Whole templates -/

/-- The template that markup is. -/
def Template.ofMarkup (s : Setting) (name markup : String) : Except MarkupError Template := do
  let scan := Markup.scan markup s.config.scriptTag
  let b ← scan.events.foldlM (Builder.step s) Builder.start
  match scan.failure markup with
  | some e => throw e
  | none => pure { name, children := b.top.reverse, exports := b.exports, globals := b.globals }

end Trellis
