/-!
# JSON documents

A document as it was read: the fields of an object stay in the order in which they stood, a
repeated name included, so that whoever reads the document decides what a repetition means.
Integers and other numbers are apart.
-/
namespace Trellis

/-- A JSON document. -/
inductive Json where
  | null
  | bool (b : Bool)
  | integer (n : Int)
  | real (x : Float)
  | string (s : String)
  | array (items : List Json)
  | object (fields : List (String × Json))

instance : Inhabited Json := ⟨.null⟩

end Trellis
