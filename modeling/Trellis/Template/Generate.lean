import Std.Data.HashSet
import Trellis.Template.Chain

/-!
# From a template to a virtual tree

`Template.generate` shows a template for data. The names in scope are a stack: the bindings of the
loops around a tree, the innermost first, then the data, then the exports of the modules. A round of
a loop pushes its item and its index and pops both when its body is done.
- A loop shows its body once for each item, in order, and a branch shows its body or nothing.
- A block shows its children in its own place; definitions, imports and scripts show nothing.
- Among the children of one element a key counts once; the first node with it keeps it.
-/
namespace Trellis

/-! ## 1. Keys -/

/-- The nodes with a key that has stood before cleared from them. -/
def clearRepeats (nodes : List VNode) : List VNode :=
  (nodes.foldl step (∅, [])).2.reverse
where
  /-- Takes one node over, given the keys so far and the nodes so far, last first. -/
  step (state : Std.HashSet String × List VNode) (n : VNode) : Std.HashSet String × List VNode :=
    if n.key.isEmpty then (state.1, n :: state.2)
    else if state.1.contains n.key then (state.1, { n with key := "" } :: state.2)
    else (state.1.insert n.key, n :: state.2)

/-- The text of a value as a key; nothing is no key. -/
def keyText (v : Value) : String := if v.isNullish then "" else v.toText

/-- The key of the nodes for an item, looked up under the item's name. -/
def Loop.keyOf (l : Loop) (m : Machine) (layers : Layers) (place : Place) : String :=
  let item := (layers.lookup l.item).getD .undefined
  match l.key with
  | none => ""
  | some .whole => keyText item
  | some (.field path) =>
    match Path.parse? path with
    | some keys => keyText (item.getPath keys)
    | none => ""
  | some (.computed p) => keyText (p.value m layers place)

/-! ## 2. Elements -/

/-- How an element is shown. -/
inductive Showing where
  | nothing
  /-- Its children stand in its place. -/
  | children
  | node (kind : VKind) (component : Option String)

/-- How an element of a kind is shown. -/
def ElementKind.showing : ElementKind → Showing
  | .slot => .node .slot none
  | .component name => .node .component (some name)
  | .native => .node .native none
  | .block => .children
  | .definition | .imported | .included | .script => .nothing

/-- The values of attributes, the first of them at position `i`. -/
def attrValues (m : Machine) (layers : Layers) (place : Place) (i : Nat) :
    List (String × Program) → List Attr
  | [] => []
  | (name, p) :: rest =>
    ⟨name, p.value m layers (i :: place)⟩ :: attrValues m layers place (i + 1) rest

/-! ## 3. Trees -/

/-- Shadows a name until the matching `pop`. -/
def Layers.push (l : Layers) (name : String) (value : Value) : Layers :=
  { l with bindings := (name, value) :: l.bindings }

/-- Takes the last binding away. -/
def Layers.pop (l : Layers) : Layers := { l with bindings := l.bindings.tail }

/-- Runs with names in scope. -/
abbrev Scoped := StateM Layers

mutual

/-- The nodes that show a tree, behind a chain of branches and under the key of the loop around
    it. -/
def Node.generate (m : Machine) (place : Place) (before : Chain) (key : String) :
    Node → Scoped (List VNode)
  | .text p => do return [VNode.ofText (p.value m (← get) place).toText]
  | .element e children =>
    match e.kind.showing with
    | .nothing => pure []
    | .children => generateAll m (1 :: place) 0 [] children
    | .node kind component => do
      let attrs := attrValues m (← get) (0 :: place) 0 e.attrs
      let nodes ← generateAll m (1 :: place) 0 [] children
      return [{ VNode.plain kind e.tag with
          component, key, attrs, events := e.events, children := clearRepeats nodes }]
  | .branch b body => do
    let layers ← get
    if b.holds (fun p => (p.value m layers (0 :: place)).isTruthy) before then
      body.generate m (1 :: place) [] key
    else return []
  | .loop l body => do
    let items := (l.source.value m (← get) (0 :: place)).items
    items.zipIdx.flatMapM fun ((item, index), round) => do
      modify (·.push l.item item)
      modify (·.push l.index index)
      let place := round :: 1 :: place
      let key := l.keyOf m (← get) (0 :: place)
      let nodes ← body.generate m (1 :: place) [] key
      modify Layers.pop
      modify Layers.pop
      return nodes

/-- The nodes that show trees one behind the other, the first of them at position `i`. -/
def generateAll (m : Machine) (place : Place) (i : Nat) (before : Chain) :
    List Node → Scoped (List VNode)
  | [] => return []
  | n :: rest => do
    let nodes ← n.generate m (i :: place) before ""
    let others ← generateAll m place (i + 1) (before.next n) rest
    return nodes ++ others

end

/-- The machine that the expressions of a template run on. -/
def Template.machine (t : Template) : Machine := ⟨t.globals, 0⟩

/-- The names that data and modules give. -/
def Template.layers (t : Template) (data : Dict Value) : Layers := ⟨[], data, t.exports⟩

/-- The place of the render number `run`. -/
def renderPlace (run : Nat) : Place := [run, 1]

/-- The tree that shows a template for data. Functions made in different runs are different
    values, so runs are numbered. -/
def Template.generate (t : Template) (run : Nat) (data : Dict Value) : VNode :=
  .root (clearRepeats
    ((generateAll t.machine (renderPlace run) 0 [] t.children).run (t.layers data)).1)

end Trellis
