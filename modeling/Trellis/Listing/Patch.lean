import Trellis.Listing.Basic
import Trellis.Number.Layout
import Trellis.Tree.Diff

/-!
# Listings of patches

How patches, and the nodes and values inside them, are listed. Of a function only its name and its
parameters are listed.
-/
namespace Trellis

/-! ## 1. Values -/

mutual

/-- The listing of a value. -/
def Value.listing : Value → Listing
  | .undefined => .word "Undefined"
  | .null => .word "Null"
  | .bool b => .wrap "Bool" [.ofBool b]
  | .number x => .wrap "Number" [.word (Number.listing x)]
  | .string s => .wrap "String" [.quoted s]
  | .array items => .wrap "Array" [.items (itemListings items)]
  | .object fields => .wrap "Object" [.entries (fieldListings fields)]
  | .function _ _ code _ =>
    .wrap "Function" [.record "ScriptFunction"
      [("def", .record "FunctionDef"
        [("name", .ofOption (code.name.map .quoted)),
          ("params", .items (code.params.map .quoted))] true)] true]

/-- The listing of each item. -/
def itemListings : List Value → List Listing
  | [] => []
  | v :: vs => v.listing :: itemListings vs

/-- The listing of each field under its name. -/
def fieldListings : List (String × Value) → List (String × Listing)
  | [] => []
  | (k, v) :: rest => (Text.quoted k, v.listing) :: fieldListings rest

end

/-! ## 2. Nodes -/

/-- The name of what a virtual node stands for. -/
def VKind.name : VKind → String
  | .root => "Root"
  | .slot => "Slot"
  | .block => "Block"
  | .component => "Component"
  | .text => "Text"
  | .native => "Native"

/-- The listing of an attribute. -/
def Attr.listing (a : Attr) : Listing :=
  .record "Attr" [("name", .quoted a.name), ("value", a.value.listing)] false

/-- The listing of a binding. -/
def Binding.listing (b : Binding) : Listing :=
  .record "EventBinding"
    [("name", .quoted b.name), ("capture", .ofBool b.capture), ("catch", .ofBool b.catches),
      ("handler", .quoted b.handler)] false

/-- The listing of bindings by event. -/
def Events.listing (es : Events) : Listing :=
  .entries (es.map fun (name, bs) => (Text.quoted name, .items (bs.map Binding.listing)))

mutual

/-- The listing of a virtual node. -/
def VNode.listing : VNode → Listing
  | ⟨kind, tag, component, content, key, attrs, events, children, host⟩ =>
    .record "VNode"
      [("kind", .word kind.name), ("tag", .quoted tag),
        ("component", .ofOption (component.map fun c => .wrap "ComponentRef" [.quoted c])),
        ("content", .quoted content), ("key", .quoted key),
        ("attrs", .items (attrs.map Attr.listing)), ("events", Events.listing events),
        ("children", .items (nodeListings children)),
        ("host", .ofOption (host.map fun n => .wrap "NodeHandle" [.ofNat n]))] false

/-- The listing of each node. -/
def nodeListings : List VNode → List Listing
  | [] => []
  | n :: ns => n.listing :: nodeListings ns

end

/-! ## 3. Patches -/

/-- The listing of a changed attribute. -/
def AttrChange.listing (c : AttrChange) : Listing :=
  .record "AttrChange"
    [("name", .quoted c.name), ("value", .ofOption (c.value.map Value.listing))] false

/-- The listing of where a node comes from. -/
def Source.listing : Source → Listing
  | .moved old => .wrap "Moved" [.ofNat old]
  | .fresh node => .wrap "Fresh" [node.listing]

/-- The listing of an insertion. -/
def Insertion.listing (i : Insertion) : Listing :=
  .record "Insertion" [("index", .ofNat i.index), ("source", i.source.listing)] false

mutual

/-- The listing of a patch. -/
def Patch.listing : Patch → Listing
  | .remove => .word "Remove"
  | .replace node => .wrap "Replace" [node.listing]
  | .setAttrs changes => .wrap "SetAttrs" [.items (changes.map AttrChange.listing)]
  | .rebind events => .wrap "Rebind" [Events.listing events]
  | .updateChild i patches => .wrap "UpdateChild" [.ofNat i, .items (patchListings patches)]
  | .reorder removes inserts =>
    .record "Reorder"
      [("removes", .items (removes.map .ofNat)),
        ("inserts", .items (inserts.map Insertion.listing))] false

/-- The listing of each patch. -/
def patchListings : List Patch → List Listing
  | [] => []
  | p :: ps => p.listing :: patchListings ps

end

/-- Patches one below the other. -/
def Patch.listAll (patches : List Patch) : String :=
  String.join (patches.map fun p => p.listing.write 0 ++ "\n")

end Trellis
