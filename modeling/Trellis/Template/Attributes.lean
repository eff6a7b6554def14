import Trellis.Markup.Config
import Trellis.Markup.Event
import Trellis.Template.Basic

/-!
# What attributes mean

An attribute of an element is one of four things, tried in this order:
- the name of a script module,
- a statement, which puts a branch or a loop around the element; a statement that is not known is
  an ordinary attribute,
- a binding to an event, written `bind` or `catch`, with `capture-` in front for the way in,
- an ordinary attribute.

Of a statement that stands twice the later one counts.
-/
namespace Trellis

/-! ## 1. Values -/

/-- The program of an attribute: that of its text, or `true` for a bare one. -/
def attrProgram : Option String → Except MarkupError Program
  | some v => Program.compile v
  | none => .ok .constantTrue

/-- How the key of a loop is written: nothing, the item, a text with expressions, or a field. -/
def KeySpec.read? (s : String) : Except MarkupError (Option KeySpec) :=
  let s := Text.trim s
  if s.isEmpty then .ok none
  else if s = "*this" then .ok (some .whole)
  else if (Text.cut? Piece.opening s.toList).isSome then
    (Program.compile s).map fun p => some (.computed p)
  else .ok (some (.field s))

/-- What follows a word that a name begins with. -/
def wordTail? (word : String) (name : List Char) : Option (List Char) :=
  Text.after? word.toList name

/-- The binding that an attribute is. Between the word and the event there may be a colon. -/
def Binding.read? (name : String) (handler : Option String) : Option Binding :=
  let (capture, rest) :=
    match wordTail? "capture-" name.toList with
    | some rest => (true, rest)
    | none => (false, name.toList)
  let word? :=
    match wordTail? "bind" rest with
    | some rest => some (false, rest)
    | none => (wordTail? "catch" rest).map fun rest => (true, rest)
  word?.bind fun (catches, rest) =>
    match (wordTail? ":" rest).getD rest with
    | [] => none
    | event => some ⟨String.ofList event, capture, catches, Text.trim (handler.getD "")⟩

/-! ## 2. Statements -/

/-- The statements of an element. -/
structure Statements where
  ifTest : Option Program
  elifTest : Option Program
  isElse : Bool
  source : Option Program
  item : Option String
  index : Option String
  key : Option KeySpec

namespace Statements

/-- No statement. -/
def none : Statements := ⟨.none, .none, false, .none, .none, .none, .none⟩

/-- The branch around an element, if there is one. -/
def branch? (s : Statements) : Option Branch :=
  if s.ifTest.isSome || s.elifTest.isSome || s.isElse then
    some ⟨s.ifTest, s.elifTest, s.isElse⟩
  else .none

/-- The loop around an element, if there is one. -/
def loop? (s : Statements) : Option Loop :=
  s.source.map fun source => ⟨source, s.item.getD "item", s.index.getD "index", s.key⟩

/-- Puts the loop around a tree. -/
def looped (s : Statements) (n : Node) : Node :=
  match s.loop? with
  | some l => .loop l n
  | .none => n

/-- Puts the statements around a tree. A branch with a test of its own stands inside the loop, where
    it sees the item; one that goes on with a chain stands outside, beside the branch before it. -/
def wrap (s : Statements) (n : Node) : Node :=
  match s.branch? with
  | .none => s.looped n
  | some b => if b.ifTest.isSome then s.looped (.branch b n) else .branch b (s.looped n)

end Statements

/-! ## 3. All attributes -/

/-- An element with the statements around it. -/
structure Heading where
  element : Element
  statements : Statements

namespace Heading

/-- One more ordinary attribute. -/
def addAttr (h : Heading) (name : String) (value : Option String) : Except MarkupError Heading := do
  let p ← attrProgram value
  pure { h with element := { h.element with attrs := h.element.attrs ++ [(name, p)] } }

/-- Takes over the statement `word`, which the attribute `name` is. -/
def addStatement (h : Heading) (word name : String) (value : Option String) :
    Except MarkupError Heading := do
  let s := h.statements
  match word with
  | "if" => pure { h with statements := { s with ifTest := some (← attrProgram value) } }
  | "elif" => pure { h with statements := { s with elifTest := some (← attrProgram value) } }
  | "else" => pure { h with statements := { s with isElse := true } }
  | "for" | "for-items" =>
    pure { h with statements := { s with source := some (← attrProgram value) } }
  | "for-item" => pure { h with statements := { s with item := value.map Text.trim } }
  | "for-index" => pure { h with statements := { s with index := value.map Text.trim } }
  | "key" | "for-key" =>
    match value with
    | none => pure { h with statements := { s with key := none } }
    | some v => pure { h with statements := { s with key := ← KeySpec.read? v } }
  | _ => h.addAttr name value

/-- Takes an attribute over. -/
def add (c : Markup.Config) (h : Heading) (a : Markup.RawAttr) : Except MarkupError Heading :=
  if h.element.kind = .script ∧ a.name = "module" then
    .ok { h with element := { h.element with module := a.value } }
  else
    match c.statement? a.name with
    | some word => h.addStatement word a.name a.value
    | none =>
      match Binding.read? a.name a.value with
      | some b => .ok { h with element := { h.element with events := Events.add h.element.events b } }
      | none => h.addAttr a.name a.value

/-- An element of a kind with its attributes. -/
def read (c : Markup.Config) (kind : ElementKind) (tag : String) (attrs : List Markup.RawAttr) :
    Except MarkupError Heading :=
  attrs.foldlM (add c) ⟨.bare kind tag, .none⟩

end Heading

end Trellis
