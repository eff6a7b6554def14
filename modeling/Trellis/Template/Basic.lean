import Trellis.Expr.Program
import Trellis.Tree.Basic

/-!
# Templates

A template is a list of trees. A tree is a text, an element with its children, or a statement
around another tree: a branch, which shows its body or not, or a loop, which shows its body once
for each item. Beside the trees a template keeps what its script modules export and the globals
that their functions read.
-/
namespace Trellis

/-! ## 1. Statements -/

/-- How the nodes of a loop are told apart. -/
inductive KeySpec where
  /-- By a field of the item, given as a path. -/
  | field (path : String)
  /-- By the item itself. -/
  | whole
  /-- By a text that is computed with the item in scope. -/
  | computed (p : Program)

/-- The condition of a branch. A branch with neither test is the last one of its chain. -/
structure Branch where
  ifTest : Option Program
  elifTest : Option Program
  isElse : Bool

/-- What a loop goes over, and under which names its body sees an item and its index. -/
structure Loop where
  source : Program
  item : String
  index : String
  key : Option KeySpec

/-! ## 2. Elements -/

/-- What an element is for. -/
inductive ElementKind where
  | slot
  | definition
  | block
  | imported
  | included
  | script
  | component (name : String)
  | native
  deriving DecidableEq, Repr

/-- An element without its children: attributes in the order in which they stand, and the name of
    the module when it is a script. -/
structure Element where
  kind : ElementKind
  tag : String
  attrs : List (String × Program)
  events : Events
  module : Option String

/-- An element with nothing in it. -/
def Element.bare (kind : ElementKind) (tag : String) : Element :=
  { kind, tag, attrs := [], events := [], module := none }

/-! ## 3. Trees -/

/-- A tree of a template. -/
inductive Node where
  | text (p : Program)
  | element (e : Element) (children : List Node)
  | branch (b : Branch) (body : Node)
  | loop (l : Loop) (body : Node)

/-- A template: its trees, the exports of its modules by name, and their globals by number. -/
structure Template where
  name : String
  children : List Node
  exports : Dict Value
  globals : List (Dict Value)

instance : Inhabited Template := ⟨⟨"", [], [], []⟩⟩

end Trellis
