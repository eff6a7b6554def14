import Trellis.Json.Basic
import Trellis.Text.Search

/-!
# The dialect of markup

What a page may be written with: how statement attributes are marked, which element holds a
script, which tags are plain elements, and whether blanks inside a text collapse. A configuration
document names what differs from the default.
-/
namespace Trellis.Markup

/-! ## 1. Settings -/

/-- The tags of a page that are plain elements unless said otherwise. -/
def htmlTags : List String := [
  "a", "abbr", "address", "area", "article", "aside", "audio", "b", "base", "bdi", "bdo",
  "blockquote", "body", "br", "button", "canvas", "caption", "cite", "code", "col", "colgroup",
  "data", "datalist", "dd", "del", "dfn", "div", "dl", "dt", "em", "embed", "fieldset",
  "figcaption", "figure", "footer", "form", "h1", "h2", "h3", "h4", "h5", "h6", "head", "header",
  "hr", "html", "i", "iframe", "img", "input", "ins", "kbd", "keygen", "label", "legend", "li",
  "link", "main", "map", "mark", "meta", "meter", "nav", "noscript", "object", "ol", "optgroup",
  "option", "output", "p", "param", "pre", "progress", "q", "rb", "rp", "rt", "rtc", "ruby", "s",
  "samp", "script", "section", "select", "small", "source", "span", "strong", "style", "sub",
  "sup", "table", "tbody", "td", "template", "textarea", "tfoot", "th", "thead", "time", "title",
  "tr", "track", "u", "ul", "var", "video", "wbr"]

/-- The settings of a dialect. -/
structure Config where
  /-- What the name of a statement attribute begins with. -/
  mark : String
  /-- The element whose body is a script module. -/
  scriptTag : String
  /-- The elements that are no components. -/
  nativeTags : List String
  /-- Whether a run of blanks inside a text becomes one space. -/
  collapses : Bool
  deriving DecidableEq, Repr

namespace Config

/-- The dialect that nothing is said about. -/
def standard : Config :=
  { mark := "wx:", scriptTag := "wxs", nativeTags := htmlTags, collapses := true }

/-- The dialect with its tags in lower case, the way tags are read. The mark keeps its case, since
    the names of attributes do. -/
def normalized (c : Config) : Config :=
  { c with scriptTag := Text.lower c.scriptTag, nativeTags := c.nativeTags.map Text.lower }

/-- Whether a tag is a plain element. -/
def isNative (c : Config) (tag : String) : Bool := c.nativeTags.contains tag

/-- The statement that an attribute's name stands for. -/
def statement? (c : Config) (name : String) : Option String :=
  (Text.after? c.mark.toList name.toList).map String.ofList

/-! ## 2. Documents -/

/-- A text of a document. -/
def text? : Json → Option String
  | .string s => some s
  | _ => none

/-- The tags that a document lists. -/
def tags? : Json → Option (List String)
  | .array items => items.mapM text?
  | _ => none

/-- A yes or no of a document. -/
def flag? : Json → Option Bool
  | .bool b => some b
  | _ => none

/-- Takes over one field; no other field may stand in a configuration. -/
def setField (c : Config) (name : String) (j : Json) : Option Config :=
  match name with
  | "namespace" => (text? j).map fun mark => { c with mark }
  | "script_tag" => (text? j).map fun scriptTag => { c with scriptTag }
  | "native_tags" => (tags? j).map fun nativeTags => { c with nativeTags }
  | "collapse_whitespace" => (flag? j).map fun collapses => { c with collapses }
  | _ => none

/-- The names of the fields, in the order in which a configuration without names gives them. -/
def fieldNames : List String := ["namespace", "script_tag", "native_tags", "collapse_whitespace"]

/-- Takes fields over one after the other. -/
def setFields (c : Config) : List (String × Json) → Option Config
  | [] => some c
  | (name, j) :: rest => (c.setField name j).bind fun c => setFields c rest

/-- Whether no name stands twice. -/
def distinct : List String → Bool
  | [] => true
  | n :: ns => !ns.contains n && distinct ns

/-- The dialect of a configuration document: an object with known fields, none of them twice, or
    a list of the first few values in order. What is not there has its default. -/
def ofJson? : Json → Option Config
  | .object fields => if distinct (fields.map Prod.fst) then standard.setFields fields else none
  | .array items =>
    if items.length ≤ fieldNames.length then standard.setFields (fieldNames.zip items) else none
  | _ => none

end Config

end Trellis.Markup
