import Trellis.Expr.Precedence
import Trellis.Number.Layout

/-!
# The grammar of expressions and statements

Reading by ordered choice: of the alternatives at a place the first that reads something counts,
and what has been read is not given back. Every reader takes fuel first; the two entry points,
`parseExpr?` and `parseModule?`, hand out more than the source can use up, since each reader in a
chain without progress is another one.
-/
namespace Trellis.Grammar

open Token

/-! ## 1. Lists of names -/

/-- Names behind commas, and the rest. -/
def moreNames : Nat → List Char → List String × List Char
  | 0, cs => ([], cs)
  | fuel + 1, cs =>
    match (mark? ',' cs).bind word? with
    | some (x, rest) =>
      let (xs, rest) := moreNames fuel rest
      (x :: xs, rest)
    | none => ([], cs)

/-- Parameters: names with commas between them, or none. -/
def params (fuel : Nat) (cs : List Char) : List String × List Char :=
  match word? cs with
  | some (x, rest) =>
    let (xs, rest) := moreNames fuel rest
    (x :: xs, rest)
  | none => ([], cs)

/-! ## 2. Expressions and statements -/

/-- What a word on its own is as an operand, unless it begins something longer. -/
def wordOperand? (x : String) : Option Expr :=
  if x = "true" then some (.literal (.bool true))
  else if x = "false" then some (.literal (.bool false))
  else if x = "null" then some (.literal .null)
  else if x = "undefined" then some (.literal .undefined)
  else if reserved.contains x then none
  else some (.name x)

/-- Whether a word begins a variable declaration. -/
def declares (x : String) : Bool := x == "var" || x == "let" || x == "const"

/-- The source behind a semicolon, which may be left out. -/
def optionalEnd (cs : List Char) : List Char := (mark? ';' cs).getD cs

/-- The source behind a comma, which may be left out. -/
def optionalComma (cs : List Char) : List Char := (mark? ',' cs).getD cs

mutual

/-- An expression: operands with operators, and behind them maybe the two branches of a
    condition. -/
def expr : Nat → List Char → Option (Expr × List Char)
  | 0, _ => none
  | fuel + 1, cs =>
    match chain fuel cs with
    | none => none
    | some (test, rest) =>
      match branches fuel rest with
      | some ((yes, no), rest) => some (.conditional test yes no, rest)
      | none => some (test, rest)

/-- The two branches behind a condition. -/
def branches : Nat → List Char → Option ((Expr × Expr) × List Char)
  | 0, _ => none
  | fuel + 1, cs => do
    let rest ← mark? '?' cs
    let (yes, rest) ← expr fuel rest
    let rest ← mark? ':' rest
    let (no, rest) ← expr fuel rest
    some ((yes, no), rest)

/-- Operands with operators between them. -/
def chain : Nat → List Char → Option (Expr × List Char)
  | 0, _ => none
  | fuel + 1, cs => do
    let (a, rest) ← operand fuel cs
    let (more, rest) ← moreOperands fuel rest
    some (Connective.assemble a more, rest)

/-- Operators with the operands behind them. -/
def moreOperands : Nat → List Char → Option (List (Connective × Expr) × List Char)
  | 0, _ => none
  | fuel + 1, cs =>
    match connected fuel cs with
    | none => some ([], cs)
    | some (p, rest) => do
      let (ps, rest) ← moreOperands fuel rest
      some (p :: ps, rest)

/-- One operator with the operand behind it. -/
def connected : Nat → List Char → Option ((Connective × Expr) × List Char)
  | 0, _ => none
  | fuel + 1, cs => do
    let (op, rest) ← connective? cs
    let (b, rest) ← operand fuel rest
    some ((op, b), rest)

/-- An operand with the operators in front of it and the accesses behind it; the accesses bind
    tighter. -/
def operand : Nat → List Char → Option (Expr × List Char)
  | 0, _ => none
  | fuel + 1, cs =>
    match unaryOp? cs with
    | some (op, rest) => do
      let (e, rest) ← operand fuel rest
      some (.unary op e, rest)
    | none => do
      let (e, rest) ← primary fuel cs
      accesses fuel e rest

/-- The accesses behind an expression: members, keys in brackets and calls. -/
def accesses : Nat → Expr → List Char → Option (Expr × List Char)
  | 0, _, _ => none
  | fuel + 1, e, cs =>
    match access fuel e cs with
    | none => some (e, cs)
    | some (e, rest) => accesses fuel e rest

/-- One access behind an expression. -/
def access : Nat → Expr → List Char → Option (Expr × List Char)
  | 0, _, _ => none
  | fuel + 1, e, cs =>
    match skip cs with
    | '.' :: rest => do
      let (x, rest) ← word? rest
      some (.member e x, rest)
    | '[' :: rest => do
      let (key, rest) ← expr fuel rest
      let rest ← mark? ']' rest
      some (.index e key, rest)
    | '(' :: rest => do
      let (args, rest) := (exprs fuel rest).getD ([], rest)
      let rest ← mark? ')' rest
      some (.call e args, rest)
    | _ => none

/-- One or more expressions with commas between them. -/
def exprs : Nat → List Char → Option (List Expr × List Char)
  | 0, _ => none
  | fuel + 1, cs => do
    let (e, rest) ← expr fuel cs
    let (es, rest) ← moreExprs fuel rest
    some (e :: es, rest)

/-- Expressions behind commas. -/
def moreExprs : Nat → List Char → Option (List Expr × List Char)
  | 0, _ => none
  | fuel + 1, cs =>
    match (mark? ',' cs).bind (expr fuel) with
    | none => some ([], cs)
    | some (e, rest) => do
      let (es, rest) ← moreExprs fuel rest
      some (e :: es, rest)

/-- An operand on its own. -/
def primary : Nat → List Char → Option (Expr × List Char)
  | 0, _ => none
  | fuel + 1, cs =>
    match skip cs with
    | '[' :: rest => do
      let (es, rest) :=
        match exprs fuel rest with
        | some (es, rest) => (es, optionalComma rest)
        | none => ([], rest)
      let rest ← mark? ']' rest
      some (.array es, rest)
    | '\x7b' :: rest => do
      let (fs, rest) :=
        match fields fuel rest with
        | some (fs, rest) => (fs, optionalComma rest)
        | none => ([], rest)
      let rest ← mark? '\x7d' rest
      some (.object fs, rest)
    | '(' :: rest => do
      let (e, rest) ← expr fuel rest
      let rest ← mark? ')' rest
      some (e, rest)
    | _ =>
      match word? cs with
      | some (x, rest) =>
        if x = "function" then
          let (name, rest) :=
            match word? rest with
            | some (n, rest) => (some n, rest)
            | none => (none, rest)
          (functionRest fuel name rest).map fun (code, rest) => (.function code, rest)
        else (wordOperand? x).map fun e => (e, rest)
      | none =>
        match text? cs with
        | some (s, rest) => some (.literal (.string s), rest)
        | none => (number? cs).map fun (n, rest) => (.literal (.number n), rest)

/-- One or more fields with commas between them. -/
def fields : Nat → List Char → Option (List (String × Expr) × List Char)
  | 0, _ => none
  | fuel + 1, cs => do
    let (f, rest) ← field fuel cs
    let (fs, rest) ← moreFields fuel rest
    some (f :: fs, rest)

/-- Fields behind commas. -/
def moreFields : Nat → List Char → Option (List (String × Expr) × List Char)
  | 0, _ => none
  | fuel + 1, cs =>
    match (mark? ',' cs).bind (field fuel) with
    | none => some ([], cs)
    | some (f, rest) => do
      let (fs, rest) ← moreFields fuel rest
      some (f :: fs, rest)

/-- A field: a word, a text or a number with an expression, or a word that is also the name of
    the variable. -/
def field : Nat → List Char → Option ((String × Expr) × List Char)
  | 0, _ => none
  | fuel + 1, cs =>
    match fieldValue fuel cs with
    | some r => some r
    | none => (word? cs).map fun (x, rest) => ((x, .name x), rest)

/-- A field that is written with its value. -/
def fieldValue : Nat → List Char → Option ((String × Expr) × List Char)
  | 0, _ => none
  | fuel + 1, cs => do
    let (k, rest) ←
      match word? cs with
      | some r => some r
      | none =>
        match text? cs with
        | some r => some r
        | none => (number? cs).map fun (n, rest) => (Number.text n, rest)
    let rest ← mark? ':' rest
    let (e, rest) ← expr fuel rest
    some ((k, e), rest)

/-- A function behind its name: parameters and body. -/
def functionRest : Nat → Option String → List Char → Option (Function × List Char)
  | 0, _, _ => none
  | fuel + 1, name, cs => do
    let rest ← mark? '(' cs
    let (ps, rest) := params fuel rest
    let rest ← mark? ')' rest
    let (body, rest) ← block fuel rest
    some (.mk name ps body, rest)

/-- Statements between braces. -/
def block : Nat → List Char → Option (List Stmt × List Char)
  | 0, _ => none
  | fuel + 1, cs => do
    let rest ← mark? '\x7b' cs
    let (body, rest) ← statements fuel rest
    let rest ← mark? '\x7d' rest
    some (body, rest)

/-- As many statements as there are. -/
def statements : Nat → List Char → Option (List Stmt × List Char)
  | 0, _ => none
  | fuel + 1, cs =>
    match statement fuel cs with
    | none => some ([], cs)
    | some (s, rest) => do
      let (ss, rest) ← statements fuel rest
      some (s :: ss, rest)

/-- A statement: a block, a declaration, a function, a return, a branch, an assignment, an
    expression or nothing but a semicolon. -/
def statement : Nat → List Char → Option (Stmt × List Char)
  | 0, _ => none
  | fuel + 1, cs =>
    match block fuel cs with
    | some (body, rest) => some (.block body, rest)
    | none =>
      match wordStatement fuel cs with
      | some r => some r
      | none =>
        match assignment fuel cs with
        | some r => some r
        | none =>
          match expr fuel cs with
          | some (e, rest) => some (.run e, optionalEnd rest)
          | none => (mark? ';' cs).map fun rest => (.empty, rest)

/-- A statement that begins with a word of its own. -/
def wordStatement : Nat → List Char → Option (Stmt × List Char)
  | 0, _ => none
  | fuel + 1, cs => do
    let (x, rest) ← word? cs
    if declares x then
      let (b, rest) ← binding fuel rest
      let (bs, rest) ← moreBindings fuel rest
      some (.declare (b :: bs), optionalEnd rest)
    else if x = "function" then
      let (n, rest) ← word? rest
      let (code, rest) ← functionRest fuel (some n) rest
      some (.function code, rest)
    else if x = "return" then
      let (e, rest) := (expr fuel rest).getD (.literal .undefined, rest)
      some (.leave e, optionalEnd rest)
    else if x = "if" then
      let rest ← mark? '(' rest
      let (test, rest) ← expr fuel rest
      let rest ← mark? ')' rest
      let (yes, rest) ← statement fuel rest
      match (given? "else" rest).bind (statement fuel) with
      | some (no, rest) => some (.branch test yes no, rest)
      | none => some (.branch test yes .empty, rest)
    else none

/-- A declared variable with its value; without one it is `undefined`. -/
def binding : Nat → List Char → Option ((String × Expr) × List Char)
  | 0, _ => none
  | fuel + 1, cs => do
    let (x, rest) ← word? cs
    match (mark? '=' rest).bind (expr fuel) with
    | some (e, rest) => some ((x, e), rest)
    | none => some ((x, .literal .undefined), rest)

/-- Declared variables behind commas. -/
def moreBindings : Nat → List Char → Option (List (String × Expr) × List Char)
  | 0, _ => none
  | fuel + 1, cs =>
    match (mark? ',' cs).bind (binding fuel) with
    | none => some ([], cs)
    | some (b, rest) => do
      let (bs, rest) ← moreBindings fuel rest
      some (b :: bs, rest)

/-- An assignment to a variable or to a path below one. -/
def assignment : Nat → List Char → Option (Stmt × List Char)
  | 0, _ => none
  | fuel + 1, cs => do
    let (root, rest) ← name? cs
    let (keys, rest) ← targetKeys fuel rest
    let (op, rest) ← assignOp? rest
    let (e, rest) ← expr fuel rest
    some (.assign root keys op e, optionalEnd rest)

/-- The keys of a path that is assigned to. -/
def targetKeys : Nat → List Char → Option (List Expr × List Char)
  | 0, _ => none
  | fuel + 1, cs =>
    match targetKey fuel cs with
    | none => some ([], cs)
    | some (k, rest) => do
      let (ks, rest) ← targetKeys fuel rest
      some (k :: ks, rest)

/-- One key of a path that is assigned to. -/
def targetKey : Nat → List Char → Option (Expr × List Char)
  | 0, _ => none
  | fuel + 1, cs =>
    match skip cs with
    | '.' :: rest => do
      let (x, rest) ← word? rest
      some (.literal (.string x), rest)
    | '[' :: rest => do
      let (key, rest) ← expr fuel rest
      let rest ← mark? ']' rest
      some (key, rest)
    | _ => none

end

/-! ## 3. Entry points -/

/-- More fuel than reading a source can use up. -/
def fuelFor (cs : List Char) : Nat := 16 * (cs.length + 2)

/-- The expression that a source is. -/
def parseExpr? (s : String) : Option Expr :=
  let cs := s.toList
  match expr (fuelFor cs) cs with
  | some (e, rest) => if (skip rest).isEmpty then some e else none
  | none => none

/-- The statements that a source is. -/
def parseModule? (s : String) : Option (List Stmt) :=
  let cs := s.toList
  match statements (fuelFor cs) cs with
  | some (body, rest) => if (skip rest).isEmpty then some body else none
  | none => none

end Trellis.Grammar
