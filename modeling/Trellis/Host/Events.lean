import Trellis.Host.Basic

/-!
# Events

An event travels along the path from the outermost node to its target and back. On the way in the
capturing bindings for it count, on the way out the others. A binding that catches ends the journey
behind the node it stands at; the other bindings of that node still count. `dispatch` gives the
handlers that run, in order; a binding to a name without a handler runs nothing.
-/
namespace Trellis

/-! ## 1. Events and handlers -/

/-- Something that happens to a node. -/
structure Event where
  name : String
  target : Handle
  detail : Value

/-- Handlers by the name that bindings give. -/
abbrev Handlers (α : Type) := Dict α

namespace Event

/-! ## 2. The journey -/

/-- The bindings of a node that count for an event in one phase. -/
def matching (e : Event) (h : Host) (capture : Bool) (n : Handle) : List Binding :=
  (h.listeners n).filter fun b => b.capture == capture && b.name == e.name

/-- The bindings that count, stop by stop: inwards to the target, then outwards from it. -/
def stops (e : Event) (h : Host) : List (List Binding) :=
  (h.path e.target).reverse.map (e.matching h true) ++ (h.path e.target).map (e.matching h false)

/-- The bindings of all stops up to the first one where the event is caught. -/
def untilCaught : List (List Binding) → List Binding
  | [] => []
  | stop :: rest => if stop.any Binding.catches then stop else stop ++ untilCaught rest

end Event

/-- The handlers that an event runs, in order. -/
def dispatch {α : Type} (h : Host) (e : Event) (handlers : Handlers α) : List α :=
  (Event.untilCaught (e.stops h)).filterMap fun b => Dict.get? handlers b.handler

end Trellis
