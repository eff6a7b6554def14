/-!
# Aligning two lists of siblings

Siblings are aligned by key. An empty key is none, and neither is a key that stood before in the
same list; items without a key pair up in order. From the pairs come the moves that turn the old
list into the new one: removals, highest position first, then insertions from left to right, each
before what stands at its position by then.
- `align`: the pairs and the moves of two lists of keys,
- `Moves.replay`: what the moves make of a list.
-/
namespace Trellis

/-! ## 1. Moves -/

/-- An item that takes a position of the new list: one of the old list, or a fresh one. -/
structure Insert where
  oldIndex : Option Nat
  index : Nat
  deriving DecidableEq, Repr

/-- Removals, then insertions. -/
structure Moves where
  removes : List Nat
  inserts : List Insert
  deriving DecidableEq, Repr

/-- Whether nothing moves. -/
def Moves.isEmpty (m : Moves) : Bool := m.removes.isEmpty && m.inserts.isEmpty

/-- For every old position its counterpart in the new list, and the moves. -/
structure Alignment where
  children : List (Option Nat)
  moves : Moves
  deriving DecidableEq, Repr

namespace Align

/-! ## 2. Pairs -/

/-- The keys that count, given those that stood before. -/
def marksFrom (seen : List String) : List String → List (Option String)
  | [] => []
  | k :: rest =>
    if k.isEmpty || seen.contains k then none :: marksFrom seen rest
    else some k :: marksFrom (k :: seen) rest

/-- The keys of a list that count: not empty, and none that stood before. -/
def marks (keys : List String) : List (Option String) := marksFrom [] keys

/-- The positions from `i` on that have no key. -/
def freeFrom (i : Nat) : List (Option String) → List Nat
  | [] => []
  | none :: rest => i :: freeFrom (i + 1) rest
  | some _ :: rest => freeFrom (i + 1) rest

/-- Gives every item its counterpart: the position of its key, or the next free one. -/
def pair (position : String → Option Nat) :
    List (Option String) → List Nat → List (Option Nat)
  | [], _ => []
  | some k :: rest, free => position k :: pair position rest free
  | none :: rest, n :: free => some n :: pair position rest free
  | none :: rest, [] => none :: pair position rest []

/-- For every old position its counterpart in the new list. -/
def counterparts (old new : List String) : List (Option Nat) :=
  let newMarks := marks new
  pair (fun k => newMarks.idxOf? (some k)) (marks old) (freeFrom 0 newMarks)

/-! ## 3. Moves from pairs -/

/-- The positions from `i` on that have a counterpart. -/
def keptFrom (i : Nat) : List (Option Nat) → List Nat
  | [] => []
  | some _ :: rest => i :: keptFrom (i + 1) rest
  | none :: rest => keptFrom (i + 1) rest

/-- The positions from `i` on that have none. -/
def droppedFrom (i : Nat) : List (Option Nat) → List Nat
  | [] => []
  | some _ :: rest => droppedFrom (i + 1) rest
  | none :: rest => i :: droppedFrom (i + 1) rest

/-- For the new positions below `count` the old position that each is the counterpart of. -/
def sources (children : List (Option Nat)) (count : Nat) : List (Option Nat) :=
  (List.range count).map fun n => children.idxOf? (some n)

/-- Goes through the new positions from `index` on. `waiting` holds the kept old positions that
    have not come up yet, in old order: one that is first in line keeps its place, any other one
    is moved. -/
def insertsFrom (waiting : List Nat) (index : Nat) : List (Option Nat) → List Insert
  | [] => []
  | none :: rest => ⟨none, index⟩ :: insertsFrom waiting (index + 1) rest
  | some o :: rest =>
    if waiting.head? = some o then insertsFrom waiting.tail (index + 1) rest
    else ⟨some o, index⟩ :: insertsFrom (waiting.erase o) (index + 1) rest

end Align

/-- Aligns two lists of siblings given by their keys. -/
def align (old new : List String) : Alignment :=
  let children := Align.counterparts old new
  { children
    moves :=
      { removes := (Align.droppedFrom 0 children).reverse
        inserts := Align.insertsFrom (Align.keptFrom 0 children) 0
          (Align.sources children new.length) } }

/-! ## 4. Replay -/

namespace Moves

universe u
variable {α : Type u}

/-- Items with the old positions they come from. -/
abbrev Live (α : Type u) := List (Option Nat × α)

/-- A list at the start of a replay. -/
def start (old : List α) : Live α := old.zipIdx.map fun (a, i) => (some i, a)

/-- Takes the item away that stands at a position, if one does. -/
def removeAt (live : Live α) (i : Nat) : Live α := live.eraseIdx i

/-- Where the item that comes from an old position stands. -/
def find? (live : Live α) (old : Nat) : Option Nat := live.findIdx? fun p => p.1 == some old

/-- Puts an item at a position, or at the end when the list is shorter. -/
def putAt (live : Live α) (i : Nat) (item : Option Nat × α) : Live α :=
  live.insertIdx (min i live.length) item

/-- One insertion; the move of an item that is no longer there does nothing. -/
def insertStep (fresh : Nat → α) (live : Live α) (ins : Insert) : Live α :=
  match ins.oldIndex with
  | none => putAt live ins.index (none, fresh ins.index)
  | some old =>
    match find? live old with
    | none => live
    | some i =>
      match live[i]? with
      | none => live
      | some item => putAt (live.eraseIdx i) ins.index item

/-- What the moves make of a list. -/
def replay (m : Moves) (old : List α) (fresh : Nat → α) : List α :=
  let removed := m.removes.foldl removeAt (start old)
  (m.inserts.foldl (insertStep fresh) removed).map Prod.snd

end Moves

end Trellis
