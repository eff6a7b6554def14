import Trellis.Tree.Basic

/-!
# The host

The host holds what is shown: nodes by handle, each an element or a text with its attributes,
its listeners, its children in order and its parent. Handles count up from the root and are never
used again. Every change is written to a log.

An operation on the host either does what it says or fails with a `HostError`; a run of operations
is a `HostM`, in which everything that was done before a failure stays done.
-/
namespace Trellis

/-! ## 1. Nodes -/

/-- What a host node shows. -/
inductive Content where
  | element (tag : String)
  | text (content : String)
  deriving DecidableEq, Repr

/-- A node of the host. -/
structure HostNode where
  content : Content
  attrs : List Attr
  listeners : List Binding
  children : List Handle
  parent : Option Handle

/-- A node with nothing in it and nothing around it. -/
def HostNode.bare (content : Content) : HostNode :=
  { content, attrs := [], listeners := [], children := [], parent := none }

/-- One change to the host. -/
inductive Mutation where
  | create (node : Handle)
  | append (parent child : Handle)
  | insertBefore (parent child : Handle)
  | remove (parent child : Handle)
  | replace (parent new old : Handle)
  | setAttr (node : Handle) (name : String)
  | removeAttr (node : Handle) (name : String)
  | listen (node : Handle) (event : String)
  | unlisten (node : Handle) (event : String)
  deriving DecidableEq, Repr

/-- Nodes by handle, nothing where a node was discarded, and the log, newest change first. -/
structure Host where
  nodes : Array (Option HostNode)
  log : List Mutation

/-! ## 2. Failures -/

/-- Why an operation on the host fails. -/
inductive HostError where
  | unknownNode (node : Handle)
  | notAChild (parent child : Handle)
  /-- The child is the parent itself or stands around it. -/
  | cycle (parent child : Handle)
  /-- A virtual node that nothing in the host stands for. -/
  | detached
  deriving DecidableEq, Repr

/-- A handle as messages show it. -/
def Handle.shown (n : Handle) : String := "#" ++ toString n

/-- The message of a failure. -/
def HostError.message : HostError → String
  | .unknownNode n => "unknown host node " ++ Handle.shown n
  | .notAChild parent child => Handle.shown child ++ " is not a child of " ++ Handle.shown parent
  | .cycle parent child =>
    "inserting " ++ Handle.shown child ++ " into " ++ Handle.shown parent ++ " would create a cycle"
  | .detached => "virtual node is not attached to a host node"

/-- Runs on a host that may fail half way. -/
abbrev HostM := ExceptT HostError (StateM Host)

namespace Host

/-! ## 3. Views -/

/-- The handle of the first node. -/
def root : Handle := 0

/-- A host that holds an empty `body` element. -/
def empty : Host := { nodes := #[some (HostNode.bare (.element "body"))], log := [] }

/-- The node of a handle, if it is known. -/
def get? (h : Host) (n : Handle) : Option HostNode := h.nodes.getD n none

/-- Whether a handle has a node. -/
def knows (h : Host) (n : Handle) : Bool := (h.get? n).isSome

/-- The children of a node, in order. -/
def children (h : Host) (n : Handle) : List Handle :=
  match h.get? n with
  | some node => node.children
  | none => []

/-- The parent of a node. -/
def parent? (h : Host) (n : Handle) : Option Handle := (h.get? n).bind HostNode.parent

/-- The tag of a node that is an element. -/
def tag? (h : Host) (n : Handle) : Option String :=
  match h.get? n with
  | some ⟨.element tag, _, _, _, _⟩ => some tag
  | _ => none

/-- The value of an attribute of a node. -/
def attr? (h : Host) (n : Handle) (name : String) : Option Value :=
  (h.get? n).bind fun node => Attrs.get? node.attrs name

/-- The bindings that a node listens by, in order. -/
def listeners (h : Host) (n : Handle) : List Binding :=
  match h.get? n with
  | some node => node.listeners
  | none => []

/-- A node and the nodes around it, outwards; `fuel` bounds their number. -/
def outwards (h : Host) : Nat → Handle → List Handle
  | 0, _ => []
  | fuel + 1, n =>
    n :: match h.parent? n with
      | some p => outwards h fuel p
      | none => []

/-- A node and the nodes around it, outwards. There are no more of them than nodes. -/
def path (h : Host) (n : Handle) : List Handle := h.outwards h.nodes.size n

/-- Whether a node is another one or stands around it. -/
def holds (h : Host) (outer inner : Handle) : Bool := (h.path inner).contains outer

/-! ## 4. Single changes -/

/-- Changes the node of a handle; an unknown handle changes nothing. -/
def update (h : Host) (n : Handle) (f : HostNode → HostNode) : Host :=
  { h with nodes := h.nodes.modify n (Option.map f) }

/-- Forgets a node. -/
def forget (h : Host) (n : Handle) : Host :=
  { h with nodes := h.nodes.modify n fun _ => none }

/-- Forgets nodes and everything below them; `fuel` bounds the depth. -/
def discardAll : Nat → List Handle → Host → Host
  | 0, _, h => h
  | fuel + 1, ns, h =>
    ns.foldl (fun h n =>
      match h.get? n with
      | some node => discardAll fuel node.children (h.forget n)
      | none => h) h

/-- Forgets a node and everything below it. -/
def discard (h : Host) (n : Handle) : Host := discardAll h.nodes.size [n] h

/-- Writes a change to the log. -/
def record (m : Mutation) : HostM Unit := modify fun h => { h with log := m :: h.log }

/-- Takes the log, oldest change first, and leaves it empty. -/
def takeLog (h : Host) : List Mutation × Host := (h.log.reverse, { h with log := [] })

/-- The node of a handle, which must be known. -/
def require (n : Handle) : HostM HostNode := do
  match (← get).get? n with
  | some node => pure node
  | none => throw (.unknownNode n)

/-- A parent must be the parent of a child. -/
def requireChild (parent child : Handle) : HostM Unit := do
  if (← get).parent? child ≠ some parent then throw (.notAChild parent child)

/-- Parts a node from its parent. -/
def unlink (child : Handle) : HostM Unit := do
  match (← require child).parent with
  | none => pure ()
  | some p =>
    modify fun h => h.update child fun n => { n with parent := none }
    let _ ← require p
    modify fun h => h.update p fun n => { n with children := n.children.filter (· ≠ child) }

/-- Puts a handle before another one, or at the end. -/
def placed (siblings : List Handle) (child : Handle) : Option Handle → List Handle
  | none => siblings ++ [child]
  | some r => siblings.takeWhile (· ≠ r) ++ child :: siblings.dropWhile (· ≠ r)

/-- Makes a node a child of another one, before a given child or as the last one. -/
def attach (parent child : Handle) (before : Option Handle) : HostM Unit := do
  let _ ← require parent
  let _ ← require child
  if (← get).holds child parent then throw (.cycle parent child)
  match before with
  | none => pure ()
  | some r => if (← get).parent? r ≠ some parent ∨ r = child then throw (.notAChild parent r)
  unlink child
  let _ ← require parent
  modify fun h => h.update parent fun n => { n with children := placed n.children child before }
  let _ ← require child
  modify fun h => h.update child fun n => { n with parent := some parent }

/-! ## 5. Operations -/

/-- Makes a node that stands nowhere. -/
def create (content : Content) : HostM Handle := do
  let n := (← get).nodes.size
  modify fun h => { h with nodes := h.nodes.push (some (HostNode.bare content)) }
  record (.create n)
  pure n

/-- Makes a node the last child of another one. -/
def append (parent child : Handle) : HostM Unit := do
  attach parent child none
  record (.append parent child)

/-- Makes a node a child of another one, before a given child or as the last one. -/
def insertBefore (parent child : Handle) (before : Option Handle) : HostM Unit := do
  attach parent child before
  record (.insertBefore parent child)

/-- Takes a child away with everything below it. -/
def remove (parent child : Handle) : HostM Unit := do
  requireChild parent child
  unlink child
  modify fun h => h.discard child
  record (.remove parent child)

/-- Puts a node in the place of a child, which goes away with everything below it. -/
def replace (parent new old : Handle) : HostM Unit := do
  requireChild parent old
  attach parent new (some old)
  unlink old
  modify fun h => h.discard old
  record (.replace parent new old)

/-- Gives an attribute a value. -/
def setAttr (n : Handle) (name : String) (value : Value) : HostM Unit := do
  let _ ← require n
  modify fun h => h.update n fun node => { node with attrs := Attrs.set node.attrs name value }
  record (.setAttr n name)

/-- Takes an attribute away. -/
def removeAttr (n : Handle) (name : String) : HostM Unit := do
  let _ ← require n
  modify fun h => h.update n fun node => { node with attrs := Attrs.remove node.attrs name }
  record (.removeAttr n name)

/-- Adds a listener behind the others. -/
def listen (n : Handle) (b : Binding) : HostM Unit := do
  let _ ← require n
  modify fun h => h.update n fun node => { node with listeners := node.listeners ++ [b] }
  record (.listen n b.name)

/-- Takes away the first listener that is this one. -/
def unlisten (n : Handle) (b : Binding) : HostM Unit := do
  let _ ← require n
  modify fun h => h.update n fun node => { node with listeners := node.listeners.erase b }
  record (.unlisten n b.name)

end Host

end Trellis
