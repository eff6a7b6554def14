/-!
# Files by path

A command sees files through a function from paths to contents. `Files.inFolder` is that function
for the files of one folder: a path is walked part by part from there, so every part but the last
has to be a folder. `stem` is the name of a file without what follows its last point.
-/
namespace Trellis

/-! ## 1. Folders -/

/-- What is read under a path, if anything. -/
abbrev Files := String → Option String

namespace Files

/-- The parts of a path. -/
def parts (path : String) : List String :=
  (path.toList.splitOn '/').map String.ofList

/-- Whether a part of a path stays where it is. -/
def stays (part : String) : Bool := part.isEmpty || part == "."

/-- The parts that lead to a file, the last first. -/
def spot (path : String) : List String := ((parts path).filter fun p => !stays p).reverse

/-- Whether a spot is a folder: the one all begins in, or one around a file. -/
def isFolder (spots : List (List String)) (spot : List String) : Bool :=
  spot.isEmpty || spots.any fun file => spot.length < file.length && spot.isSuffixOf file

/-- Walks on from a folder. -/
def walk (spots : List (List String)) (here : List String) : List String → Option (List String)
  | [] => some here
  | part :: rest =>
    if !isFolder spots here then none
    else if stays part then walk spots here rest
    else if part == ".." then
      match here with
      | [] => none
      | _ :: up => walk spots up rest
    else walk spots (part :: here) rest

/-- The files of a folder, given with their paths. -/
def inFolder (table : List (String × String)) : Files := fun path =>
  let spots := table.map fun (name, content) => (spot name, content)
  if path.startsWith "/" then none
  else
    (walk (spots.map Prod.fst) [] (parts path)).bind fun found =>
      (spots.find? fun s => s.1 == found).map Prod.snd

/-! ## 2. Names -/

/-- The name of a file without what follows its last point; a point at the very beginning ends
    nothing. -/
def stemChars (name : List Char) : List Char :=
  match name.reverse.dropWhile (· ≠ '.') with
  | '.' :: c :: before => (c :: before).reverse
  | _ => name

/-- The name of the file that a path leads to, without what follows its last point. -/
def stem (path : String) : String :=
  match spot path with
  | [] => "template"
  | name :: _ => if name == ".." then "template" else String.ofList (stemChars name.toList)

end Files

end Trellis
