import Trellis.Host.Mount
import Trellis.Tree.Diff

/-!
# Patching the host

`applyPatches` carries patches out on the host and on the virtual node they are for, side by side:
the node keeps the handles of what stays. What was done before a failure stays done in both.

- attributes and bindings change at the node's own host node,
- a reordering removes first, then inserts from left to right, each node before the one that stands
  at its position by then,
- the parent is needed only to remove or replace the node itself.
-/
namespace Trellis

/-! ## 1. A virtual node with its host -/

/-- A virtual node together with the host. -/
structure Mounted where
  host : Host
  node : VNode

/-- Runs on a virtual node with its host. -/
abbrev PatchM := ExceptT HostError (StateM Mounted)

namespace PatchM

/-- A run on the host alone. -/
def onHost {α : Type} (act : HostM α) : PatchM α := fun ⟨host, node⟩ =>
  let (r, host) := act host
  (r, ⟨host, node⟩)

/-- A run on a child with the host; nothing happens where there is no child. -/
def onChild (i : Nat) (act : PatchM Unit) : PatchM Unit := fun ⟨host, node⟩ =>
  match node.children[i]? with
  | none => (.ok (), ⟨host, node⟩)
  | some child =>
    let (r, ⟨host, child⟩) := act ⟨host, child⟩
    (r, ⟨host, { node with children := node.children.set i child }⟩)

/-- Changes the virtual node. -/
def onNode (f : VNode → VNode) : PatchM Unit := modify fun m => { m with node := f m.node }

end PatchM

/-- The handle of a virtual node, which must have one. -/
def VNode.handle (n : VNode) : HostM Handle :=
  match n.host with
  | some h => pure h
  | none => throw .detached

namespace Patch

open PatchM

/-- The handle of the node at hand. -/
def handle : PatchM Handle := do onHost (← get).node.handle

/-! ## 2. Attributes and bindings -/

/-- Changes one attribute, in the host and in the node. -/
def applyAttr (n : Handle) (c : AttrChange) : PatchM Unit :=
  match c.value with
  | some v => do
    onHost (Host.setAttr n c.name v)
    onNode fun node => { node with attrs := Attrs.set node.attrs c.name v }
  | none => do
    onHost (Host.removeAttr n c.name)
    onNode fun node => { node with attrs := Attrs.remove node.attrs c.name }

/-- Changes attributes one after the other. -/
def applyAttrs (changes : List AttrChange) : PatchM Unit := do
  let n ← handle
  changes.forM (applyAttr n)

/-- Puts other bindings in the place of those of the node. -/
def rebindAll (events : Events) : PatchM Unit := do
  let n ← handle
  (Events.all (← get).node.events).forM fun b => onHost (Host.unlisten n b)
  (Events.all events).forM fun b => onHost (Host.listen n b)
  onNode fun node => { node with events }

/-! ## 3. Order -/

/-- Removes the child at a position, if there is one. -/
def removeAt (parent : Handle) (live : Moves.Live VNode) (i : Nat) : HostM (Moves.Live VNode) :=
  match live[i]? with
  | none => pure live
  | some (_, child) => do
    Host.remove parent (← child.handle)
    pure (Moves.removeAt live i)

/-- Puts a child at a position, or at the end when there are fewer. -/
def putAt (parent : Handle) (live : Moves.Live VNode) (i : Nat) (item : Option Nat × VNode) :
    HostM (Moves.Live VNode) := do
  let next := live[min i live.length]?
  Host.insertBefore parent (← item.2.handle) (next.bind fun (_, n) => n.host)
  pure (Moves.putAt live i item)

/-- Carries one insertion out; the move of a child that is no longer there does nothing. -/
def insertOne (parent : Handle) (live : Moves.Live VNode) (ins : Insertion) :
    HostM (Moves.Live VNode) :=
  match ins.source with
  | .fresh node => do
    let (_, node) ← Host.render node
    putAt parent live ins.index (none, node)
  | .moved old =>
    match Moves.find? live old with
    | none => pure live
    | some i =>
      match live[i]? with
      | none => pure live
      | some item => putAt parent (live.eraseIdx i) ins.index item

/-- Removes, then inserts. The node has no children while this goes on. -/
def reorderAll (removes : List Nat) (inserts : List Insertion) : PatchM Unit := do
  let n ← handle
  let children := (← get).node.children
  onNode fun node => { node with children := [] }
  let live ← onHost (removes.foldlM (removeAt n) (Moves.start children))
  let live ← onHost (inserts.foldlM (insertOne n) live)
  onNode fun node => { node with children := live.map Prod.snd }

/-! ## 4. Whole patches -/

/-- Takes the node away from its parent. -/
def removeSelf (parent : Handle) : PatchM Unit := do
  let n ← handle
  onHost (Host.remove parent n)
  onNode VNode.detach

/-- Puts a fresh node in the place of the node. -/
def replaceSelf (parent : Handle) (new : VNode) : PatchM Unit := do
  let old ← handle
  let (n, fresh) ← onHost (Host.render new)
  onHost (Host.replace parent n old)
  onNode fun _ => fresh

mutual

/-- Carries one patch out. -/
def applyOne : Patch → Handle → PatchM Unit
  | .remove, parent => removeSelf parent
  | .replace new, parent => replaceSelf parent new
  | .setAttrs changes, _ => applyAttrs changes
  | .rebind events, _ => rebindAll events
  | .updateChild i patches, _ => do
    let n ← handle
    onChild i (applyAll patches n)
  | .reorder removes inserts, _ => reorderAll removes inserts

/-- Carries patches out one after the other. -/
def applyAll : List Patch → Handle → PatchM Unit
  | [], _ => pure ()
  | p :: ps, parent => do
    applyOne p parent
    applyAll ps parent

end

end Patch

/-- Carries patches out on a virtual node below `parent` and on the host. -/
def applyPatches (parent : Handle) (patches : List Patch) (m : Mounted) :
    Except HostError Unit × Mounted :=
  Patch.applyAll patches parent m

end Trellis
