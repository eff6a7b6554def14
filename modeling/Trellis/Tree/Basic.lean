import Trellis.Value.Basic

/-!
# Virtual trees

What a render produces: a tree of nodes that describes what the host should show. A node carries
its attributes in order, its event bindings grouped by event, and the handle of the host node that
stands for it once there is one; the handle is no part of what the node is.
-/
namespace Trellis

/-! ## 1. Attributes -/

/-- A name with a value. -/
structure Attr where
  name : String
  value : Value

/-- The same name with the same value. -/
def Attr.same (a b : Attr) : Bool := a.name == b.name && a.value == b.value

instance : BEq Attr := ⟨Attr.same⟩

namespace Attrs

/-- The value of the first attribute with a name. -/
def get? : List Attr → String → Option Value
  | [], _ => none
  | a :: rest, name => if a.name = name then some a.value else get? rest name

/-- The value of the last attribute with a name. -/
def last? : List Attr → String → Option Value
  | [], _ => none
  | a :: rest, name => (last? rest name).or (if a.name = name then some a.value else none)

/-- Gives a name a value: in place where the name stands first, else at the end. -/
def set : List Attr → String → Value → List Attr
  | [], name, value => [⟨name, value⟩]
  | a :: rest, name, value =>
    if a.name = name then ⟨a.name, value⟩ :: rest else a :: set rest name value

/-- Takes every attribute with a name away. -/
def remove (attrs : List Attr) (name : String) : List Attr := attrs.filter fun a => a.name ≠ name

/-- The attributes that come from setting pairs one after the other. -/
def ofPairs (pairs : List (String × Value)) : List Attr :=
  pairs.foldl (fun attrs (name, value) => set attrs name value) []

/-- **What was set is found.** -/
theorem get?_set_self (attrs : List Attr) (name : String) (value : Value) :
    get? (set attrs name value) name = some value := by
  induction attrs with
  | nil => simp [set, get?]
  | cons a rest ih => by_cases e : a.name = name <;> simp [set, get?, e, ih]

/-- **Other names keep their values.** -/
theorem get?_set_of_ne (attrs : List Attr) {name other : String} (value : Value)
    (h : name ≠ other) : get? (set attrs name value) other = get? attrs other := by
  induction attrs with
  | nil => simp [set, get?, h]
  | cons a rest ih =>
    by_cases e : a.name = name
    · simp [set, get?, e, h]
    · simp [set, get?, e, ih]

end Attrs

/-! ## 2. Event bindings -/

/-- That a node listens to an event: in the phase inwards or outwards, letting the event pass or
    catching it, with the name of what handles it. -/
structure Binding where
  name : String
  capture : Bool
  catches : Bool
  handler : String
  deriving DecidableEq, Repr

/-- Bindings by event name, each list in the order of declaration. -/
abbrev Events := Dict (List Binding)

namespace Events

/-- One more binding, behind those of the same event. -/
def add (events : Events) (b : Binding) : Events :=
  Dict.insert events b.name (((Dict.get? events b.name).getD []) ++ [b])

/-- The bindings of a list, grouped. -/
def ofList (bindings : List Binding) : Events := bindings.foldl add []

/-- All bindings: by event, and in the order of declaration for each. -/
def all (events : Events) : List Binding := events.flatMap Prod.snd

end Events

/-! ## 3. Nodes -/

/-- What a virtual node stands for. -/
inductive VKind where
  | root | slot | block | component | text | native
  deriving DecidableEq, Repr

/-- A node of the host, by number. -/
abbrev Handle := Nat

/-- A virtual node. An empty key means that the node has none. -/
structure VNode where
  kind : VKind
  tag : String
  component : Option String
  content : String
  key : String
  attrs : List Attr
  events : Events
  children : List VNode
  host : Option Handle

namespace VNode

/-- A node with nothing in it. -/
def plain (kind : VKind) (tag : String) : VNode :=
  { kind, tag, component := none, content := "", key := "", attrs := [], events := []
    children := [], host := none }

instance : Inhabited VNode := ⟨plain .root ""⟩

/-- The top of a tree. -/
def root (children : List VNode) : VNode := { plain .root "" with children }

/-- A text. -/
def ofText (content : String) : VNode := { plain .text "" with content }

/-- Whether the node is a text. -/
def isText (n : VNode) : Bool := n.kind == .text

/-- The value of the first attribute with a name. -/
def attr? (n : VNode) (name : String) : Option Value := Attrs.get? n.attrs name

/-! ## 4. Whole trees -/

mutual

/-- The same tree, whatever hosts it. -/
def same : VNode → VNode → Bool
  | ⟨kind, tag, component, content, key, attrs, events, children, _⟩, other =>
    kind == other.kind && tag == other.tag && component == other.component &&
      content == other.content && key == other.key && attrs == other.attrs &&
      events == other.events && sameAll children other.children

/-- The same trees in the same order. -/
def sameAll : List VNode → List VNode → Bool
  | [], [] => true
  | a :: as, b :: bs => same a b && sameAll as bs
  | _, _ => false

end

instance : BEq VNode := ⟨same⟩

mutual

/-- The texts of a tree one behind the other. -/
def textContent : VNode → String
  | ⟨kind, _, _, content, _, _, _, children, _⟩ =>
    if kind = .text then content else textContents children

/-- The texts of trees one behind the other. -/
def textContents : List VNode → String
  | [] => ""
  | n :: ns => textContent n ++ textContents ns

end

mutual

/-- The same tree with no host anywhere. -/
def detach : VNode → VNode
  | ⟨kind, tag, component, content, key, attrs, events, children, _⟩ =>
    ⟨kind, tag, component, content, key, attrs, events, detachAll children, none⟩

/-- The same trees with no host anywhere. -/
def detachAll : List VNode → List VNode
  | [] => []
  | n :: ns => detach n :: detachAll ns

end

end VNode

end Trellis
