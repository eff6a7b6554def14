import Trellis.Component.TickQueue
import Trellis.Host.Events
import Trellis.Host.Html
import Trellis.Host.Patch
import Trellis.Template.Generate

/-!
# Components

A component is a template that is shown: its data, the host with the container it is shown in, and
the tree of the last render with the handles of the host nodes. New data make a new tree, and the
host is patched by the difference. Renders are numbered, so that functions made in different ones
differ. Jobs can be left for the next tick; what a job is, is up to whoever uses the component.
-/
namespace Trellis

universe u

/-! ## 1. State -/

/-- A template that is shown. -/
structure Component (α : Type u) where
  template : Template
  data : Dict Value
  host : Host
  container : Handle
  tree : VNode
  /-- How many renders there were. -/
  runs : Nat
  queue : TickQueue α

namespace Component

variable {α : Type u}

/-! ## 2. Mounting -/

/-- Shows a template in a container of a host. -/
def mount (template : Template) (data : Dict Value) (host : Host) (container : Handle) :
    Except HostError (Component α) :=
  match (Host.mount container (template.generate 0 data) : HostM VNode) host with
  | (.ok tree, host) => .ok ⟨template, data, host, container, tree, 1, .empty⟩
  | (.error e, _) => .error e

/-- Shows a template in the root of a fresh host. -/
def fresh (template : Template) (data : Dict Value) : Except HostError (Component α) :=
  mount template data .empty Host.root

/-! ## 3. New data -/

/-- Puts a value where a name says: below a path, or, when the name is none, under the name. -/
def writeData (data : Dict Value) (name : String) (value : Value) : Dict Value :=
  match Path.parse? name with
  | some path => (((Value.object data).setPath path value).asObject?).getD []
  | none => Dict.insert data name value

/-- Puts values over data, in the order of their names. -/
def mergeData (data patch : Dict Value) : Dict Value :=
  patch.foldl (fun data (name, value) => writeData data name value) data

/-- Renders again and patches the host. -/
def update (c : Component α) : Except HostError Unit × Component α :=
  let next := c.template.generate c.runs c.data
  let (result, m) := applyPatches c.container (diff c.tree next) ⟨c.host, c.tree⟩
  (result, { c with host := m.host, tree := m.node, runs := c.runs + 1 })

/-- Merges data and brings the host up to date. -/
def setData (c : Component α) (patch : Dict Value) : Except HostError Unit × Component α :=
  update { c with data := mergeData c.data patch }

/-- Merges data, and leaves a job for the next tick if that went well. -/
def setDataThen (c : Component α) (patch : Dict Value) (job : α) :
    Except HostError Unit × Component α :=
  match c.setData patch with
  | (.ok _, c) => (.ok (), { c with queue := c.queue.defer job })
  | failed => failed

/-- The jobs that wait, and the component without them. -/
def tick (c : Component α) : List α × Component α :=
  let (jobs, queue) := c.queue.take
  (jobs, { c with queue })

/-! ## 4. What is shown -/

/-- The page of what is in the container. -/
def toHtml (c : Component α) : String := c.host.innerHtml c.container

/-- The first node with a text for an attribute, the container included. -/
def findByAttr (c : Component α) (name text : String) : Option Handle :=
  c.host.findByAttr c.container name text

end Component

end Trellis
