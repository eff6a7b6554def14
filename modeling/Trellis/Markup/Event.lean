import Trellis.Markup.Error
import Trellis.Text.Blank
import Trellis.Text.Search

/-!
# The events of markup

Markup is read as a list of events: elements open and close, and texts stand between them.
- A start tag, an end tag and a comment begin with `<`; a `<` at which none of them is complete is
  a failure, and reading stops there.
- An end tag closes the innermost open element with its name, and before it those opened later. An
  end tag without an open element is passed over.
- The body of the raw element is one text, whatever is in it, up to the end tag of that element.
- At the end of the input all open elements close, the innermost first.
-/
namespace Trellis.Markup

/-! ## 1. Events -/

/-- An attribute as written; a bare one has no value. -/
structure RawAttr where
  name : String
  value : Option String
  deriving DecidableEq, Repr

/-- Why an element closes: by its own end tag, by that of an element around it, or because the
    input is at its end. -/
inductive EndKind where
  | explicit | implicit | endOfInput
  deriving DecidableEq, Repr

/-- What happens in markup. -/
inductive Event where
  | opening (tag : String) (attrs : List RawAttr) (selfClosing : Bool)
  | closing (tag : String) (kind : EndKind)
  | text (content : String)
  deriving DecidableEq, Repr

/-! ## 2. Names and attributes -/

/-- A character of a tag: an ASCII letter or digit, `-` or `_`. -/
def isTagChar (c : Char) : Bool := c.isAlphanum || c == '-' || c == '_'

/-- A character of an attribute's name. -/
def isAttrChar (c : Char) : Bool := isTagChar c || c == ':'

/-- A character of a value without quotes. -/
def isBareChar (c : Char) : Bool := c != '>' && !Text.isAsciiBlank c

/-- The text behind leading blanks. -/
def skip (cs : List Char) : List Char := cs.dropWhile Text.isAsciiBlank

/-- The characters of a class at the beginning, at least one, and the rest. -/
def run? (p : Char → Bool) (cs : List Char) : Option (String × List Char) :=
  match cs.takeWhile p with
  | [] => none
  | c :: run => some (String.ofList (c :: run), cs.dropWhile p)

/-- The text up to the closing quote, and the rest. What follows a backslash closes nothing; the
    backslash stays. -/
def quoted? (quote : Char) : List Char → Option (List Char × List Char)
  | [] => none
  | c :: rest =>
    if c = '\\' then
      match rest with
      | [] => none
      | d :: rest => (quoted? quote rest).map fun (text, rest) => (c :: d :: text, rest)
    else if c = quote then some ([], rest)
    else (quoted? quote rest).map fun (text, rest) => (c :: text, rest)

/-- The value of an attribute, and the rest. -/
def attrValue? (cs : List Char) : Option (String × List Char) :=
  match cs with
  | [] => none
  | c :: rest =>
    if c = '"' ∨ c = '\x27' then
      (quoted? c rest).map fun (text, rest) => (String.ofList text, rest)
    else run? isBareChar cs

/-- An attribute, and the rest. -/
def attr? (cs : List Char) : Option (RawAttr × List Char) :=
  match run? isAttrChar cs with
  | none => none
  | some (name, rest) =>
    match skip rest with
    | '=' :: value => (attrValue? (skip value)).map fun (v, rest) => (⟨name, some v⟩, rest)
    | _ => some (⟨name, none⟩, rest)

/-- The attributes of a start tag up to its end, whether it closes itself, and the rest. There is a
    blank before each attribute. Fuel is the number of attributes that may still come. -/
def attrs? : Nat → List Char → Option (List RawAttr × Bool × List Char)
  | 0, _ => none
  | fuel + 1, cs =>
    match skip cs with
    | [] => none
    | '>' :: rest => some ([], false, rest)
    | '/' :: '>' :: rest => some ([], true, rest)
    | c :: rest =>
      if c = '/' || !(cs.head?.any Text.isAsciiBlank) then none
      else
        match attr? (c :: rest) with
        | none => none
        | some (a, rest) =>
          (attrs? fuel rest).map fun (as, selfClosing, rest) => (a :: as, selfClosing, rest)

/-! ## 3. Tags and comments -/

/-- What begins with `<`. -/
inductive Mark where
  | comment
  | endTag (tag : String)
  | startTag (tag : String) (attrs : List RawAttr) (selfClosing : Bool)
  deriving DecidableEq, Repr

/-- The end tag behind `</`: its name in lower case, and the rest behind the next `>`. -/
def endTag? (cs : List Char) : Option (String × List Char) :=
  match run? isTagChar cs with
  | none => none
  | some (name, rest) => (Text.cut? ['>'] rest).map fun (_, rest) => (Text.lower name, rest)

/-- The start tag behind `<`, its name in lower case, and the rest. -/
def startTag? (cs : List Char) : Option (Mark × List Char) :=
  match run? isTagChar cs with
  | none => none
  | some (name, rest) =>
    (attrs? rest.length rest).map fun (as, selfClosing, rest) =>
      (.startTag (Text.lower name) as selfClosing, rest)

/-- The comment, end tag or start tag at the beginning, and the rest. The dashes that open a
    comment may be those that close it. -/
def mark? : List Char → Option (Mark × List Char)
  | '<' :: '!' :: '-' :: '-' :: cs =>
    (Text.cut? ['-', '-', '>'] ('-' :: '-' :: cs)).map fun (_, rest) => (.comment, rest)
  | '<' :: '/' :: cs => (endTag? cs).map fun (tag, rest) => (.endTag tag, rest)
  | '<' :: cs => startTag? cs
  | _ => none

/-- What follows when the end tag of an element stands at the beginning. -/
def behindEndTag? (tag : String) : List Char → Option (List Char)
  | '<' :: '/' :: cs =>
    match endTag? cs with
    | some (found, rest) => if found = tag then some rest else none
    | none => none
  | _ => none

/-- The text before the first end tag of an element, and what follows the tag. -/
def rawBody? (tag : String) : List Char → Option (List Char × List Char)
  | [] => none
  | c :: cs =>
    match behindEndTag? tag (c :: cs) with
    | some rest => some ([], rest)
    | none => (rawBody? tag cs).map fun (body, rest) => (c :: body, rest)

/-! ## 4. Closing -/

/-- What an end tag does to the open elements, the innermost of which comes first. -/
def close (tag : String) (stack : List String) : List Event × List String :=
  if stack.contains tag then
    ((stack.takeWhile (· ≠ tag)).map (.closing · .implicit) ++ [.closing tag .explicit],
      (stack.dropWhile (· ≠ tag)).tail)
  else ([], stack)

/-- What the end of the input does to the open elements. -/
def closeAll (stack : List String) : List Event := stack.map (.closing · .endOfInput)

/-! ## 5. Reading -/

/-- The events of markup; when it does not read, those up to there and the text from there on. -/
structure Scan where
  events : List Event
  unread : Option (List Char)

/-- Puts events before those of a reading. -/
def Scan.after (events : List Event) (s : Scan) : Scan := { s with events := events ++ s.events }

/-- A text event, unless the text is empty. -/
def textEvent (cs : List Char) : List Event :=
  if cs.isEmpty then [] else [.text (String.ofList cs)]

/-- Reads markup with the given elements open. Each round takes at least one character, so the
    length of the text is fuel enough. -/
def scanFrom (raw : String) : Nat → List String → List Char → Scan
  | _, stack, [] => ⟨closeAll stack, none⟩
  | 0, _, c :: cs => ⟨[], some (c :: cs)⟩
  | fuel + 1, stack, c :: cs =>
    if stack.head? = some raw then
      match rawBody? raw (c :: cs) with
      | some (body, rest) =>
        let (ends, stack) := close raw stack
        (scanFrom raw fuel stack rest).after (textEvent body ++ ends)
      | none => ⟨textEvent (c :: cs) ++ closeAll stack, none⟩
    else if c = '<' then
      match mark? (c :: cs) with
      | none => ⟨[], some (c :: cs)⟩
      | some (.comment, rest) => scanFrom raw fuel stack rest
      | some (.endTag tag, rest) =>
        let (ends, stack) := close tag stack
        (scanFrom raw fuel stack rest).after ends
      | some (.startTag tag attrs selfClosing, rest) =>
        (scanFrom raw fuel (if selfClosing then stack else tag :: stack) rest).after
          [.opening tag attrs selfClosing]
    else
      let text := (c :: cs).takeWhile (· ≠ '<')
      (scanFrom raw fuel stack ((c :: cs).dropWhile (· ≠ '<'))).after (textEvent text)

/-- Reads markup; the element `raw` has a raw body. -/
def scan (markup raw : String) : Scan :=
  let cs := markup.toList
  scanFrom (Text.lower raw) cs.length [] cs

/-! ## 6. Failure -/

/-- How many characters of the source a message shows. -/
def maxFragment : Nat := 40

/-- The beginning of a text, with dots where it is cut. -/
def fragment (cs : List Char) : String :=
  if maxFragment < cs.length then String.ofList (cs.take maxFragment) ++ "..."
  else String.ofList cs

/-- The failure of a reading, with the byte at which it stopped. -/
def Scan.failure (s : Scan) (markup : String) : Option MarkupError :=
  s.unread.map fun rest =>
    .scan (Text.utf8Size markup.toList - Text.utf8Size rest) (fragment rest)

end Trellis.Markup
