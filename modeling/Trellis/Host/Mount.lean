import Trellis.Host.Basic

/-!
# From a virtual tree to the host

`render` makes host nodes for a tree and notes in every virtual node which host node stands for it.
`mount` puts a tree into a container; the top of a tree has no host node of its own, the container
stands for it.
-/
namespace Trellis.Host

/-- What the host node of a virtual node shows. -/
def contentOf (kind : VKind) (tag content : String) : Content :=
  match kind with
  | .text => .text content
  | .root => .element "root"
  | .slot => .element "slot"
  | .block => .element "block"
  | .component | .native => .element tag

mutual

/-- Makes the host nodes of a tree, which stand nowhere yet. -/
def render : VNode → HostM (Handle × VNode)
  | ⟨kind, tag, component, content, key, attrs, events, children, _⟩ => do
    let n ← create (contentOf kind tag content)
    if kind = .text then
      pure (n, ⟨kind, tag, component, content, key, attrs, events, children, some n⟩)
    else
      attrs.forM fun a => setAttr n a.name a.value
      (Events.all events).forM (listen n)
      let children ← renderInto n children
      pure (n, ⟨kind, tag, component, content, key, attrs, events, children, some n⟩)

/-- Makes the host nodes of trees and appends them to a node. -/
def renderInto (parent : Handle) : List VNode → HostM (List VNode)
  | [] => pure []
  | c :: cs => do
    let (n, c) ← render c
    append parent n
    let cs ← renderInto parent cs
    pure (c :: cs)

end

/-- Puts a tree into a container. -/
def mount (container : Handle) (tree : VNode) : HostM VNode := do
  if tree.kind = .root then
    let children ← renderInto container tree.children
    pure { tree with children, host := some container }
  else
    let (n, tree) ← render tree
    append container n
    pure tree

end Trellis.Host
