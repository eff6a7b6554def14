import Trellis.Host.Basic
import Trellis.Text.Html
import Trellis.Value.Coerce

/-!
# The host as a page

`toHtml` writes a node with everything below it, `innerHtml` what is below it. Every element has an
end tag. An attribute that is `true` stands bare; one that is `false`, `null` or undefined is left
out. `findByAttr` looks a node up by the text of an attribute.
-/
namespace Trellis.Host

/-! ## 1. Writing -/

/-- An attribute behind a tag. -/
def attrHtml (a : Attr) : String :=
  match a.value with
  | .bool true => " " ++ a.name
  | .bool false | .undefined | .null => ""
  | v => " " ++ a.name ++ "=\"" ++ Text.escape v.toText ++ "\""

/-- Writes a node with what is below it; `fuel` bounds the depth. -/
def htmlFrom (h : Host) : Nat → Handle → String
  | 0, _ => ""
  | fuel + 1, n =>
    match h.get? n with
    | none => ""
    | some ⟨.text content, _, _, _, _⟩ => Text.escape content
    | some ⟨.element tag, attrs, _, children, _⟩ =>
      "<" ++ tag ++ String.join (attrs.map attrHtml) ++ ">"
        ++ String.join (children.map (htmlFrom h fuel)) ++ "</" ++ tag ++ ">"

/-- A node with everything below it. No node lies deeper than there are nodes. -/
def toHtml (h : Host) (n : Handle) : String := htmlFrom h h.nodes.size n

/-- What is below a node. -/
def innerHtml (h : Host) (n : Handle) : String := String.join ((h.children n).map (toHtml h))

/-! ## 2. Finding -/

/-- Whether an attribute of a node has a text. -/
def hasAttrText (h : Host) (n : Handle) (name text : String) : Bool :=
  match h.attr? n name with
  | some v => v.toText == text
  | none => false

/-- The first node, in the order of the page, with a text for an attribute; `fuel` bounds the
    depth. -/
def findFrom (h : Host) (name text : String) : Nat → Handle → Option Handle
  | 0, _ => none
  | fuel + 1, n =>
    if hasAttrText h n name text then some n
    else (h.children n).findSome? (findFrom h name text fuel)

/-- The first node from a given one on, in the order of the page, with a text for an attribute. -/
def findByAttr (h : Host) (start : Handle) (name text : String) : Option Handle :=
  findFrom h name text h.nodes.size start

end Trellis.Host
