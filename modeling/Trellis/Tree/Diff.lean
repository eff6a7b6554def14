import Trellis.Tree.Align
import Trellis.Tree.Basic

/-!
# Differences of trees

`diff old new` lists the patches that turn the old tree into the new one. Two texts are compared by
content; two other nodes that differ in kind, tag, component or key replace each other whole, and
else differ in attributes, bindings, children and order, in this order. Attributes are compared as
maps in which the last of repeated names counts.
-/
namespace Trellis

/-! ## 1. Patches -/

/-- An attribute that changes: to a value, or away. -/
structure AttrChange where
  name : String
  value : Option Value

/-- Where an inserted node comes from: an old position, or a fresh node. -/
inductive Source where
  | moved (oldIndex : Nat)
  | fresh (node : VNode)

/-- A node that takes a position. -/
structure Insertion where
  index : Nat
  source : Source

/-- A change to a node. -/
inductive Patch where
  /-- The node leaves its parent. -/
  | remove
  /-- Another node takes its place. -/
  | replace (node : VNode)
  | setAttrs (changes : List AttrChange)
  /-- All bindings give way to these. -/
  | rebind (events : Events)
  /-- Patches for the child at a position of the old list. -/
  | updateChild (index : Nat) (patches : List Patch)
  /-- Removals from the highest position down, then insertions from left to right. -/
  | reorder (removes : List Nat) (inserts : List Insertion)

/-! ## 2. Attributes -/

namespace Diff

/-- Whether a name has a value. -/
def hasValue (current : Option Value) (v : Value) : Bool :=
  match current with
  | some w => w == v
  | none => false

/-- Records that an attribute of the new list is set: only its final value counts, a name counts
    once, and a value that was there before is no change. -/
def recordSet (old new : List Attr) (changes : List AttrChange) (a : Attr) : List AttrChange :=
  if !hasValue (Attrs.last? new a.name) a.value then changes
  else if changes.any fun c => c.name == a.name then changes
  else if hasValue (Attrs.last? old a.name) a.value then changes
  else changes ++ [⟨a.name, some a.value⟩]

/-- Records that an attribute of the old list is gone. -/
def recordGone (new : List Attr) (changes : List AttrChange) (a : Attr) : List AttrChange :=
  if (Attrs.last? new a.name).isSome || changes.any fun c => c.name == a.name then changes
  else changes ++ [⟨a.name, none⟩]

/-- What changes between two lists of attributes, or nothing. -/
def attrs (old new : List Attr) : Option (List AttrChange) :=
  let set := new.foldl (recordSet old new) []
  let all := old.foldl (recordGone new) set
  if all.isEmpty then none else some all

/-! ## 3. Trees -/

/-- Whether one node can become the other. -/
def compatible (old new : VNode) : Bool :=
  old.kind == new.kind && old.tag == new.tag && old.component == new.component &&
    old.key == new.key

/-- The patches for the order of the children. -/
def order (new : List VNode) (m : Moves) : List Patch :=
  if m.isEmpty then []
  else
    [.reorder m.removes (m.inserts.map fun ins =>
      ⟨ins.index,
        match ins.oldIndex with
        | some o => .moved o
        | none => .fresh ((new[ins.index]?).getD default)⟩)]

mutual

/-- The patches that turn one tree into the other. -/
def tree : VNode → VNode → List Patch
  | ⟨kind, tag, component, content, key, oldAttrs, events, children, host⟩, new =>
    let old : VNode := ⟨kind, tag, component, content, key, oldAttrs, events, children, host⟩
    if old.isText || new.isText then
      if old.isText && new.isText && content == new.content then [] else [.replace new]
    else if !compatible old new then [.replace new]
    else
      let alignment := align (children.map VNode.key) (new.children.map VNode.key)
      let partners := alignment.children.map fun n? => n?.bind fun n => new.children[n]?
      (match attrs oldAttrs new.attrs with
        | some changes => [.setAttrs changes]
        | none => [])
        ++ (if events == new.events then [] else [.rebind new.events])
        ++ siblings 0 children partners
        ++ order new.children alignment.moves

/-- The patches for the children from position `i` on, each with its counterpart. -/
def siblings (i : Nat) : List VNode → List (Option VNode) → List Patch
  | old :: olds, some new :: partners =>
    let patches := tree old new
    (if patches.isEmpty then [] else [.updateChild i patches]) ++ siblings (i + 1) olds partners
  | _ :: olds, none :: partners => siblings (i + 1) olds partners
  | _, _ => []

end

end Diff

/-- The patches that turn one tree into the other. -/
def diff (old new : VNode) : List Patch := Diff.tree old new

/-- The patches towards a tree that may be absent; an absent one removes the node. -/
def diffTree (old : VNode) (new : Option VNode) : List Patch :=
  match new with
  | some new => diff old new
  | none => [.remove]

end Trellis
