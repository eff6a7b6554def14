import Trellis.Template.Build
import Trellis.Template.Chain
import Trellis.Template.Outline

/-!
# Templates in an arena

Beside the trees there is the arena: one entry for each element, text and statement, found by its
number. An entry names the one it stands in, its position there, what stands in it, and the branch
it goes on from. Entries are only ever put at the end, while a stack keeps the numbers of the elements
that are open: the entries for the statements of an element come before that of the element itself,
and each of them goes into the one before.

`Growth.ofMarkup` reads markup into an arena, `Arena.rows` walks through an arena from its first entry
along what stands in each one.
-/
namespace Trellis

/-! ## 1. Entries -/

/-- What an entry is. A loop is two entries, one for what it goes over and one for the round. -/
inductive EntryKind where
  | root
  | text (p : Program)
  | element (e : Element)
  | branch (b : Branch)
  | loop (source : Program)
  | round (item index : String) (key : Option KeySpec)

/-- An entry: what it is, where it stands, what stands in it, and the branch it goes on from. -/
structure Entry where
  kind : EntryKind
  parent : Option Nat
  index : Nat
  children : List Nat
  chain : Option Nat

/-- An entry that has nothing in it yet. -/
def Entry.fresh (kind : EntryKind) (parent index : Nat) : Entry :=
  ⟨kind, some parent, index, [], none⟩

/-- An entry with more in it, behind what there is. -/
def Entry.holding (e : Entry) (more : List Nat) : Entry := { e with children := e.children ++ more }

/-- The entries, each at the position of its number. -/
abbrev Arena := List Entry

namespace Arena

/-- The template itself, with nothing in it. -/
def start : Arena := [⟨.root, none, 0, [], none⟩]

/-- What an entry is. -/
def kind? (a : Arena) (i : Nat) : Option EntryKind := a[i]?.map Entry.kind

/-- The element at an entry. -/
def element? (a : Arena) (i : Nat) : Option Element :=
  match a.kind? i with
  | some (.element e) => some e
  | _ => none

/-- What stands in an entry. -/
def childrenOf (a : Arena) (i : Nat) : List Nat :=
  match a[i]? with
  | some e => e.children
  | none => []

/-- Puts an entry behind all others; it stands in `parent` behind what there is. -/
def add (a : Arena) (kind : EntryKind) (parent : Nat) : Arena :=
  (a ++ [Entry.fresh kind parent (a.childrenOf parent).length]).modify parent
    (Entry.holding · [a.length])

/-! ## 2. Chains -/

/-- Whether a chain can go on behind an entry. -/
def continues (a : Arena) (i : Nat) : Bool :=
  match a.kind? i with
  | some (.branch b) => b.continues
  | _ => false

/-- What stands right before an entry, in the same one. -/
def previous? (a : Arena) (i : Nat) : Option Nat :=
  match a[i]? with
  | some ⟨_, some parent, index + 1, _, _⟩ => (a.childrenOf parent)[index]?
  | _ => none

/-- What a loop shows in its rounds; any other entry is what it shows. -/
def unlooped? (a : Arena) (i : Nat) : Option Nat :=
  match a.kind? i with
  | some (.loop _) => (a.childrenOf i).head?.bind fun round => (a.childrenOf round).head?
  | _ => some i

/-- The branch that an entry goes on from: the one right before it, or the one in that loop. -/
def chainHead (a : Arena) (i : Nat) : Option Nat :=
  ((a.previous? i).bind a.unlooped?).filter a.continues

/-- Lets an entry go on from a branch. -/
def chained (a : Arena) (i : Nat) (chain : Option Nat) : Arena :=
  a.modify i fun e => { e with chain }

/-- Puts a branch into an entry. Without a test of its own it goes on from the one before it. -/
def addBranch (a : Arena) (b : Branch) (parent : Nat) : Arena :=
  let grown := a.add (.branch b) parent
  if b.ifTest.isNone then grown.chained a.length (grown.chainHead a.length) else grown

/-! ## 3. Statements -/

/-- An arena with the entry that what comes next goes into. -/
structure Holder where
  nodes : Arena
  node : Nat

namespace Holder

/-- Puts a branch, if there is one, around what comes next. -/
def inBranch (h : Holder) : Option Branch → Holder
  | some b => ⟨h.nodes.addBranch b h.node, h.nodes.length⟩
  | none => h

/-- Puts a loop, if there is one, around what comes next. -/
def inLoop (h : Holder) : Option Loop → Holder
  | some l =>
    let looped := h.nodes.add (.loop l.source) h.node
    ⟨looped.add (.round l.item l.index l.key) h.nodes.length, looped.length⟩
  | none => h

/-- Puts the statements of an element around it: a branch that goes on with a chain, then the loop,
    then a branch with a test of its own. -/
def wrap (h : Holder) (st : Statements) : Holder :=
  ((h.inBranch (st.branch?.filter (·.ifTest.isNone))).inLoop st.loop?).inBranch
    (st.branch?.filter (·.ifTest.isSome))

end Holder

end Arena

/-! ## 4. Growth -/

/-- An element that is open: its number, and the text of a script. -/
structure OpenEntry where
  node : Nat
  script : String

/-- An arena while it grows: the entries, the open elements, the innermost first, and what the
    scripts left behind. -/
structure Growth where
  nodes : Arena
  opened : List OpenEntry
  exports : Dict Value
  globals : List (Dict Value)

namespace Growth

/-- Nothing has been read. -/
def start : Growth := ⟨Arena.start, [], [], []⟩

/-- The entry that what comes next goes into. -/
def parent (g : Growth) : Nat :=
  match g.opened with
  | [] => 0
  | o :: _ => o.node

/-- The entries with those for the statements of an element that stands in the innermost open one. -/
def holder (g : Growth) (h : Heading) : Arena.Holder :=
  Arena.Holder.wrap ⟨g.nodes, g.parent⟩ h.statements

/-- Puts an element with its statements into the innermost open one. -/
def addElement (g : Growth) (h : Heading) : Growth :=
  { g with nodes := (g.holder h).nodes.add (.element h.element) (g.holder h).node }

/-- Puts a text into the innermost open element, unless it is blank. -/
def addText (g : Growth) (s : Setting) (content : String) : Except MarkupError Growth :=
  let content := s.normalize content
  if content.isEmpty then .ok g
  else (Program.compile content).map fun p => { g with nodes := g.nodes.add (.text p) g.parent }

/-- Whether an entry is a script. -/
def isScript (g : Growth) (i : Nat) : Bool :=
  match g.nodes.element? i with
  | some e => e.kind = .script
  | none => false

/-- Runs a script that closes; one without a name is passed over. -/
def runScript (g : Growth) (o : OpenEntry) : Except MarkupError Growth :=
  match g.isScript o.node, (g.nodes.element? o.node).bind Element.module with
  | true, some name =>
    (evaluateModule g.globals name o.script).map fun run =>
      { g with exports := Dict.insert g.exports name run.exports, globals := run.globals }
  | _, _ => .ok g

/-- Takes an event over. -/
def step (s : Setting) (g : Growth) : Markup.Event → Except MarkupError Growth
  | .opening tag attrs selfClosing => do
    let kind ← s.kindOf tag
    let heading ← Heading.read s.config kind tag attrs
    let grown := g.addElement heading
    pure (if selfClosing then grown
      else { grown with opened := ⟨(g.holder heading).nodes.length, ""⟩ :: g.opened })
  | .closing tag .endOfInput => .error (.unbalanced tag)
  | .closing _ _ =>
    match g.opened with
    | [] => .ok g
    | o :: rest => { g with opened := rest }.runScript o
  | .text content =>
    match g.opened with
    | o :: rest =>
      if g.isScript o.node then
        .ok { g with opened := { o with script := o.script ++ content } :: rest }
      else g.addText s content
    | [] => g.addText s content

/-- The arena that markup grows. -/
def ofMarkup (s : Setting) (markup : String) : Except MarkupError Growth := do
  let scan := Markup.scan markup s.config.scriptTag
  let g ← scan.events.foldlM (step s) start
  match scan.failure markup with
  | some e => throw e
  | none => pure g

end Growth

/-! ## 5. Walks -/

/-- The kind of an entry's row. -/
def EntryKind.rowKind : EntryKind → RowKind
  | .root => .root
  | .text _ => .text
  | .element e => e.kind.rowKind
  | .branch _ => .branch
  | .loop _ => .loop
  | .round .. => .round

/-- The tag that an entry shows. -/
def EntryKind.tag : EntryKind → String
  | .element e => e.tag
  | _ => ""

/-- What the line of an entry says behind the kind. -/
def EntryKind.detail : EntryKind → String
  | .root => ""
  | .text p => " " ++ Text.quoted p.source
  | .element e => e.detail
  | .branch b => b.detail
  | .loop source => labelled "for" (some source)
  | .round item index key => " item=" ++ item ++ " index=" ++ index ++ KeySpec.detail key

/-- Whether an entry is a branch. -/
def EntryKind.isBranch : EntryKind → Bool
  | .branch _ => true
  | _ => false

/-- The row of an entry with a number at a depth. -/
def Entry.row (e : Entry) (id depth : Nat) : Row :=
  { id, kind := e.kind.rowKind, tag := e.kind.tag, parent := e.parent, index := e.index
    chain := e.chain, children := e.children, isBranch := e.kind.isBranch, depth
    detail := e.kind.detail }

namespace Arena

/-- The rows from an entry on, down to `fuel` entries deep: its own one, then those of what stands in
    it. -/
def rowsFrom (a : Arena) : Nat → Nat → Nat → List Row
  | 0, _, _ => []
  | fuel + 1, depth, i =>
    match a[i]? with
    | none => []
    | some e => e.row i depth :: e.children.flatMap (a.rowsFrom fuel (depth + 1))

/-- The rows of an arena, from its first entry on. No walk is deeper than there are entries. -/
def rows (a : Arena) : List Row := a.rowsFrom a.length 0 0

end Arena

end Trellis
