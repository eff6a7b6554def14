import Trellis.Value.Coerce

/-!
# Paths into values

A path such as `list[1].name` is a list of keys, each a name or an index. Names and indices stand
for each other where the container asks for the other kind.
- `Path.parse?` reads a path, `Key.text` writes a key,
- `Value.getPath` reads below a value, one key at a time,
- `Value.setPath` writes below a value and makes the containers that are missing; an array takes
  no key that is not a position, and no position far beyond its end.
-/
namespace Trellis

/-! ## 1. Keys -/

/-- One step of a path. -/
inductive Key where
  | name (n : String)
  | index (i : Nat)
  deriving DecidableEq, Repr

namespace Key

/-- The key as it is written in a path. -/
def text : Key → String
  | .name n => "." ++ n
  | .index i => "[" ++ toString i ++ "]"

/-- The key as a name of an object. -/
def asName : Key → String
  | .name n => n
  | .index i => toString i

/-- The key as a position of an array. -/
def asIndex? : Key → Option Nat
  | .name n => Number.signedIndex? n.toList
  | .index i => some i

/-- The key that a computed value is: a whole number is an index, all else is the name it
    writes. -/
def ofValue : Value → Key
  | .number n =>
    match Number.natural? n with
    | some i => if i < Number.indexBound then .index i else .name (Number.text n)
    | none => .name (Number.text n)
  | v => .name v.toText

end Key

/-! ## 2. Reading a path -/

namespace Path

/-- The key of a name that has been read, unless the name is empty. -/
def pending (name : List Char) : List Key :=
  if name.isEmpty then [] else [.name (String.ofList name)]

mutual

/-- Reads on outside brackets; `name` is what has been read of a name. -/
def outside (name : List Char) : List Char → Option (List Key)
  | [] => some (pending name)
  | c :: rest =>
    if c = '.' then (outside [] rest).map (pending name ++ ·)
    else if c = '[' then (inside [] rest).map (pending name ++ ·)
    else outside (name ++ [c]) rest

/-- Reads on inside brackets; `digits` is what has been read of an index. -/
def inside (digits : List Char) : List Char → Option (List Key)
  | [] => none
  | c :: rest =>
    if c = ']' then
      match Number.index? digits with
      | some i => (outside [] rest).map (.index i :: ·)
      | none => none
    else if Number.isDigit c then inside (digits ++ [c]) rest
    else none

end

/-- The keys of a path; there is none when brackets hold anything but an index, when one stays
    open, or when there is no key at all. -/
def parse? (s : String) : Option (List Key) :=
  match outside [] s.toList with
  | some (k :: ks) => some (k :: ks)
  | _ => none

/-- A path as it is written. -/
def text (keys : List Key) : String := String.join (keys.map Key.text)

end Path

/-! ## 3. Reading below a value -/

namespace Value

/-- What is stored under a key. -/
def child? : Value → Key → Option Value
  | .object fields, k => Dict.get? fields k.asName
  | .array items, k => k.asIndex?.bind fun i => items[i]?
  | _, _ => none

/-- What a value answers for a key under which nothing is stored: arrays and texts know their
    length, texts their characters. -/
def derived : Value → Key → Value
  | .array items, .name n => if n = "length" then ofNat items.length else .undefined
  | .string s, k =>
    if k = .name "length" then ofNat s.length
    else
      match k.asIndex?.bind fun i => s.toList[i]? with
      | some c => .string c.toString
      | none => .undefined
  | _, _ => .undefined

/-- One step down. -/
def step (v : Value) (k : Key) : Value := (v.child? k).getD (v.derived k)

/-- The value below a value; a step into nothing gives `undefined`. -/
def getPath : Value → List Key → Value
  | v, [] => v
  | v, k :: ks => getPath (v.step k) ks

/-- **A longer path is read by reading its parts one after the other.** -/
theorem getPath_append (v : Value) (ks more : List Key) :
    v.getPath (ks ++ more) = (v.getPath ks).getPath more := by
  induction ks generalizing v with
  | nil => rfl
  | cons k ks ih => exact ih (v.step k)

/-! ## 4. Writing below a value -/

/-- The highest position that a write may add to an array. -/
def maxArrayIndex : Nat := 65536

/-- The container to write into: the value itself if it is one, else a new one of the kind that
    the key asks for. -/
def container : Value → Key → Value
  | .object fields, _ => .object fields
  | .array items, _ => .array items
  | _, .index _ => .array []
  | _, .name _ => .object []

/-- The items, with `undefined` up to position `i` if there are fewer. -/
def padded (items : List Value) (i : Nat) : List Value :=
  items ++ List.replicate (i + 1 - items.length) .undefined

/-- Writes `x` below a value. -/
def setPath : Value → List Key → Value → Value
  | _, [], x => x
  | v, k :: ks, x =>
    match v.container k with
    | .array items =>
      match k.asIndex? with
      | some i =>
        if items.length ≤ i ∧ maxArrayIndex < i then .array items
        else .array ((padded items i).modify i fun slot => setPath slot ks x)
      | none => .array items
    | .object fields =>
      let slot := (Dict.get? fields k.asName).getD .undefined
      .object (Dict.insert fields k.asName (setPath slot ks x))
    | other => other

end Value

end Trellis
