import Trellis.Template.Basic
import Trellis.Text.Quoted

/-!
# Outlines and numbers

Written out, a template has one row for each of its nodes in the order of the document, with the
template itself as the first. A loop takes two rows, one for what it goes over and one for the
round. `Template.rows` lists the rows with their numbers, `Template.outline` writes a line for each,
indented by its depth.
-/
namespace Trellis

/-! ## 1. Rows -/

/-- What a row stands for. -/
inductive RowKind where
  | root | slot | templateDef | block | imported | included | script | component | text
  | branch | loop | round | native
  deriving DecidableEq, Repr

/-- The name of a kind. -/
def RowKind.name : RowKind → String
  | .root => "Root"
  | .slot => "Slot"
  | .templateDef => "TemplateDef"
  | .block => "Block"
  | .imported => "Import"
  | .included => "Include"
  | .script => "ScriptModule"
  | .component => "Component"
  | .text => "Text"
  | .branch => "If"
  | .loop => "For"
  | .round => "ForItem"
  | .native => "Native"

/-- The kind of an element's row. -/
def ElementKind.rowKind : ElementKind → RowKind
  | .slot => .slot
  | .definition => .templateDef
  | .block => .block
  | .imported => .imported
  | .included => .included
  | .script => .script
  | .component _ => .component
  | .native => .native

/-- A row: its own number and that of the row it stands in, its position there, the number of the
    branch whose chain it goes on with, the numbers of what stands in it, its depth, and what its
    line says behind the kind. -/
structure Row where
  id : Nat
  kind : RowKind
  tag : String
  parent : Option Nat
  index : Nat
  chain : Option Nat
  children : List Nat
  isBranch : Bool
  depth : Nat
  detail : String

mutual

/-- How many rows a tree takes. -/
def Node.size : Node → Nat
  | .text _ => 1
  | .element _ children => 1 + sizeAll children
  | .branch _ body => 1 + body.size
  | .loop _ body => 2 + body.size

/-- How many rows trees take. -/
def sizeAll : List Node → Nat
  | [] => 0
  | n :: rest => n.size + sizeAll rest

end

/-- The numbers of trees, the first of which has the number `id`. -/
def idsFrom (id : Nat) : List Node → List Nat
  | [] => []
  | n :: rest => id :: idsFrom (id + n.size) rest

/-- The number of the branch that a chain goes on with behind a tree with the number `id`. -/
def Node.chainId (id : Nat) : Node → Option Nat
  | .branch b _ => if b.ifTest.isSome || b.elifTest.isSome then some id else none
  | .loop _ (.branch b _) => if b.ifTest.isSome || b.elifTest.isSome then some (id + 2) else none
  | _ => none

/-! ## 2. Details -/

/-- A label with the source of a program, if there is one. -/
def labelled (label : String) : Option Program → String
  | some p => " " ++ label ++ "=" ++ Text.quoted p.source
  | none => ""

/-- The detail of a branch. -/
def Branch.detail (b : Branch) : String :=
  labelled "if" b.ifTest ++ labelled "elif" b.elifTest ++ (if b.isElse then " else" else "")

/-- The detail of a key. -/
def KeySpec.detail : Option KeySpec → String
  | some (.field path) => " key=" ++ path
  | some .whole => " key=*this"
  | some (.computed p) => labelled "key" (some p)
  | none => ""

/-- The detail of the rounds of a loop. -/
def Loop.roundDetail (l : Loop) : String :=
  " item=" ++ l.item ++ " index=" ++ l.index ++ KeySpec.detail l.key

/-- The detail of a binding. -/
def Binding.detail (b : Binding) : String :=
  " " ++ (if b.capture then "capture-" else "") ++ (if b.catches then "catch" else "bind")
    ++ ":" ++ b.name ++ "=" ++ b.handler

/-- The component that an element names. -/
def ElementKind.component? : ElementKind → Option String
  | .component name => some name
  | _ => none

/-- The detail of an element. -/
def Element.detail (e : Element) : String :=
  (if e.tag.isEmpty then "" else " <" ++ e.tag ++ ">")
    ++ (match e.kind.component? with
      | some name => " component=" ++ name
      | none => "")
    ++ String.join (e.attrs.map fun (name, p) => labelled name (some p))
    ++ String.join ((Events.all e.events).map Binding.detail)
    ++ (match e.module with
      | some name => " module=" ++ name
      | none => "")

/-! ## 3. All rows -/

/-- Where a row stands. -/
structure Spot where
  id : Nat
  parent : Option Nat
  index : Nat
  depth : Nat

/-- The spot of the only tree inside a row. -/
def Spot.below (s : Spot) : Spot := ⟨s.id + 1, some s.id, 0, s.depth + 1⟩

/-- The row at a spot. -/
def Spot.row (s : Spot) (kind : RowKind) (tag : String) (children : List Nat) (detail : String) :
    Row :=
  { id := s.id, kind, tag, parent := s.parent, index := s.index, chain := none, children
    isBranch := false, depth := s.depth, detail }

mutual

/-- The rows of a tree, given the branch that a chain could go on with there. -/
def Node.rows (s : Spot) (chain : Option Nat) : Node → List Row
  | .text p => [s.row .text "" [] (" " ++ Text.quoted p.source)]
  | .element e children =>
    s.row e.kind.rowKind e.tag (idsFrom (s.id + 1) children) e.detail
      :: rowsAll (some s.id) (s.depth + 1) (s.id + 1) 0 none children
  | .branch b body =>
    { s.row .branch "" [s.id + 1] b.detail with
      chain := if b.ifTest.isSome then none else chain
      isBranch := true }
      :: body.rows s.below none
  | .loop l body =>
    s.row .loop "" [s.id + 1] (labelled "for" (some l.source))
      :: s.below.row .round "" [s.id + 2] l.roundDetail
      :: body.rows s.below.below none

/-- The rows of trees one behind the other, the first of them with the number `id` at position
    `index`. -/
def rowsAll (parent : Option Nat) (depth id index : Nat) (chain : Option Nat) :
    List Node → List Row
  | [] => []
  | n :: rest =>
    n.rows ⟨id, parent, index, depth⟩ chain
      ++ rowsAll parent depth (id + n.size) (index + 1) (n.chainId id) rest

end

namespace Template

/-- All rows of a template, each at the position of its number. -/
def rows (t : Template) : List Row :=
  (Spot.mk 0 none 0 0).row .root "" (idsFrom 1 t.children) ""
    :: rowsAll (some 0) 1 1 0 none t.children

/-! ## 4. Outlines -/

/-- The line of a row. -/
def line (r : Row) : String :=
  String.ofList (List.replicate (2 * r.depth) ' ') ++ r.kind.name ++ r.detail ++ "\n"

/-- A line for each row. -/
def outline (t : Template) : String := String.join (t.rows.map line)

end Template

end Trellis
