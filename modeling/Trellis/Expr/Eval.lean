import Trellis.Expr.Operator
import Trellis.Value.Path

/-!
# Evaluation

Expressions are evaluated in a scope, statements in a frame. What a script module keeps between
calls is the machine: the globals of every module and the nesting depth of calls. Evaluation takes
the machine and gives back the machine it leaves; only module-level code writes globals.
- A function is called through a `Caller`, so expressions and statements are evaluated by
  recursion on their form; `callAt` closes the knot by recursion on the calls that may still be
  nested.
- A call nested deeper than `maxDepth` is cut off and yields `undefined`.
- Places grow with the recursion, so no two evaluations of a function literal in one run share
  one.
-/
namespace Trellis

/-! ## 1. The machine -/

/-- What scripts keep between calls: the globals of each module, by its number, and how deep the
    running call is nested. -/
structure Machine where
  globals : List (Dict Value)
  depth : Nat

instance : Inhabited Machine := ⟨⟨[], 0⟩⟩

/-- The globals of a module. -/
def Machine.module? (m : Machine) (module : Nat) : Option (Dict Value) := m.globals[module]?

/-- Writes a global of a module. -/
def Machine.write (m : Machine) (module : Nat) (name : String) (value : Value) : Machine :=
  { m with globals := m.globals.modify module fun g => Dict.insert g name value }

/-! ## 2. Scopes -/

/-- The names a page sees: loop bindings with the innermost first, then the data, then what the
    script modules export. -/
structure Layers where
  bindings : List (String × Value)
  data : Dict Value
  exports : Dict Value

/-- The value of a name in a page. -/
def Layers.lookup (l : Layers) (name : String) : Option Value :=
  (Dict.get? l.bindings name).or ((Dict.get? l.data name).or (Dict.get? l.exports name))

/-- One run of a body: its local variables, the module it belongs to, and whether it is
    module-level code, whose variables are the globals. -/
structure Frame where
  locals : Dict Value
  module : Nat
  atTop : Bool

/-- Where names are looked up. -/
inductive Scope where
  | page (layers : Layers)
  | frame (f : Frame)

/-- The value of a name in a frame: a local, a global of the module, or, for `exports` where
    nothing else has that name, the exports of the module. -/
def Frame.lookup (f : Frame) (m : Machine) (name : String) : Option Value :=
  match Dict.get? f.locals name with
  | some v => some v
  | none =>
    match m.module? f.module with
    | none => none
    | some globals =>
      match Dict.get? globals name with
      | some v => some v
      | none =>
        if name = "exports" then
          (Dict.get? globals "module").map fun v => v.getPath [.name "exports"]
        else none

/-- The value of a name. -/
def Scope.lookup (s : Scope) (m : Machine) (name : String) : Option Value :=
  match s with
  | .page layers => layers.lookup name
  | .frame f => f.lookup m name

/-- The value of a function literal: only scripts make functions. -/
def Scope.function (s : Scope) (place : Place) (code : Function) : Value :=
  match s with
  | .page _ => .undefined
  | .frame f => .function place f.module code f.locals

/-! ## 3. Expressions -/

/-- Calls a function of a module with its captured variables and its arguments. -/
abbrev Caller := Place → Nat → Function → Dict Value → List Value → Machine → Value × Machine

mutual

/-- Evaluates an expression. -/
def Expr.eval (call : Caller) (scope : Scope) (place : Place) : Expr → Machine → Value × Machine
  | .literal l, m => (.ofLiteral l, m)
  | .name x, m => ((scope.lookup m x).getD .undefined, m)
  | .array items, m =>
    let (vs, m) := evalAll call scope place 0 items m
    (.array vs, m)
  | .object fields, m =>
    let (kvs, m) := evalFields call scope place 0 fields m
    (.object (Dict.ofPairs kvs), m)
  | .function code, m => (scope.function place code, m)
  | .member base field, m =>
    let (v, m) := Expr.eval call scope (0 :: place) base m
    (v.step (.name field), m)
  | .index base key, m =>
    let (v, m) := Expr.eval call scope (0 :: place) base m
    let (k, m) := Expr.eval call scope (1 :: place) key m
    (v.step (.ofValue k), m)
  | .call callee args, m =>
    match Expr.eval call scope (0 :: place) callee m with
    | (.function _ module code captured, m) =>
      let (vs, m) := evalAll call scope (1 :: place) 0 args m
      call (2 :: place) module code captured vs m
    | (_, m) => (.undefined, m)
  | .unary op operand, m =>
    let (v, m) := Expr.eval call scope (0 :: place) operand m
    (op.apply v, m)
  | .binary op left right, m =>
    let (a, m) := Expr.eval call scope (0 :: place) left m
    let (b, m) := Expr.eval call scope (1 :: place) right m
    (op.apply a b, m)
  | .logical op left right, m =>
    let (a, m) := Expr.eval call scope (0 :: place) left m
    if op.decided a then (a, m) else Expr.eval call scope (1 :: place) right m
  | .conditional test yes no, m =>
    let (t, m) := Expr.eval call scope (0 :: place) test m
    if t.isTruthy then Expr.eval call scope (1 :: place) yes m
    else Expr.eval call scope (2 :: place) no m

/-- Evaluates expressions from left to right, the first of them at position `i`. -/
def evalAll (call : Caller) (scope : Scope) (place : Place) (i : Nat) :
    List Expr → Machine → List Value × Machine
  | [], m => ([], m)
  | e :: es, m =>
    let (v, m) := Expr.eval call scope (i :: place) e m
    let (vs, m) := evalAll call scope place (i + 1) es m
    (v :: vs, m)

/-- Evaluates the fields of an object literal from left to right. -/
def evalFields (call : Caller) (scope : Scope) (place : Place) (i : Nat) :
    List (String × Expr) → Machine → List (String × Value) × Machine
  | [], m => ([], m)
  | (k, e) :: es, m =>
    let (v, m) := Expr.eval call scope (i :: place) e m
    let (vs, m) := evalFields call scope place (i + 1) es m
    ((k, v) :: vs, m)

end

/-! ## 4. Writing variables -/

/-- Whether a name is declared in the frame or among the globals of its module. -/
def Frame.declares (f : Frame) (m : Machine) (name : String) : Bool :=
  Dict.has f.locals name ||
    match m.module? f.module with
    | some globals => Dict.has globals name
    | none => false

/-- Writes a variable: module-level code writes a global, a function body one of its locals. -/
def Frame.write (f : Frame) (m : Machine) (name : String) (value : Value) : Frame × Machine :=
  if f.atTop then (f, m.write f.module name value)
  else ({ f with locals := Dict.insert f.locals name value }, m)

/-- The value that an assignment stores, given the one that was there. -/
def AssignOp.combine (op : AssignOp) (current value : Value) : Value :=
  match op with
  | .set => value
  | .add => BinaryOp.add.apply current value
  | .sub => BinaryOp.sub.apply current value

/-- The variable and the path that a target means: `exports`, where nothing has that name, stands
    for the exports of the module. -/
def Frame.target (f : Frame) (m : Machine) (root : String) (keys : List Key) : String × List Key :=
  if root = "exports" ∧ f.declares m "exports" = false then
    ("module", .name "exports" :: keys)
  else (root, keys)

/-- Stores a value at a path below a variable. -/
def Frame.store (f : Frame) (m : Machine) (root : String) (keys : List Key) (op : AssignOp)
    (value : Value) : Frame × Machine :=
  let (root, keys) := f.target m root keys
  let base := (f.lookup m root).getD .undefined
  let value := op.combine (base.getPath keys) value
  f.write m root (base.setPath keys value)

/-! ## 5. Statements -/

/-- How a statement ends: the next one follows, or the body is left with a value. -/
inductive Flow where
  | next
  | left (v : Value)

/-- The value of a body that ended. -/
def Flow.value : Flow → Value
  | .next => .undefined
  | .left v => v

/-- Makes the functions that a body declares, before its first statement runs. -/
def hoist (place : Place) (i : Nat) : List Stmt → Frame → Machine → Frame × Machine
  | [], f, m => (f, m)
  | .function code :: rest, f, m =>
    match code.name with
    | some name =>
      let (f, m) := f.write m name ((Scope.frame f).function (i :: place) code)
      hoist place (i + 1) rest f m
    | none => hoist place (i + 1) rest f m
  | _ :: rest, f, m => hoist place (i + 1) rest f m

mutual

/-- Runs a statement. -/
def Stmt.exec (call : Caller) (place : Place) : Stmt → Frame → Machine → Flow × Frame × Machine
  | .declare bindings, f, m =>
    let (f, m) := execBindings call place 0 bindings f m
    (.next, f, m)
  | .assign root keys op value, f, m =>
    let (v, m) := Expr.eval call (.frame f) (0 :: place) value m
    let (ks, m) := evalAll call (.frame f) (1 :: place) 0 keys m
    let (f, m) := f.store m root (ks.map Key.ofValue) op v
    (.next, f, m)
  | .function _, f, m => (.next, f, m)
  | .leave value, f, m =>
    let (v, m) := Expr.eval call (.frame f) place value m
    (.left v, f, m)
  | .branch test yes no, f, m =>
    let (t, m) := Expr.eval call (.frame f) (0 :: place) test m
    if t.isTruthy then Stmt.exec call (1 :: place) yes f m
    else Stmt.exec call (2 :: place) no f m
  | .block body, f, m =>
    let (f, m) := hoist (0 :: place) 0 body f m
    execAll call (1 :: place) 0 body f m
  | .run e, f, m =>
    let (_, m) := Expr.eval call (.frame f) place e m
    (.next, f, m)
  | .empty, f, m => (.next, f, m)

/-- Runs statements in order until one leaves the body. -/
def execAll (call : Caller) (place : Place) (i : Nat) :
    List Stmt → Frame → Machine → Flow × Frame × Machine
  | [], f, m => (.next, f, m)
  | s :: rest, f, m =>
    match Stmt.exec call (i :: place) s f m with
    | (.next, f, m) => execAll call place (i + 1) rest f m
    | (.left v, f, m) => (.left v, f, m)

/-- Declares variables from left to right. -/
def execBindings (call : Caller) (place : Place) (i : Nat) :
    List (String × Expr) → Frame → Machine → Frame × Machine
  | [], f, m => (f, m)
  | (name, e) :: rest, f, m =>
    let (v, m) := Expr.eval call (.frame f) (i :: place) e m
    let (f, m) := f.write m name v
    execBindings call place (i + 1) rest f m

end

/-! ## 6. Calls -/

/-- How deep calls may be nested. -/
def maxDepth : Nat := 64

/-- The local variables at the start of a call: the captured ones, and over them the parameters;
    an argument that is missing is `undefined`. -/
def bindParams : List String → List Value → Dict Value → Dict Value
  | [], _, locals => locals
  | p :: ps, [], locals => bindParams ps [] (Dict.insert locals p .undefined)
  | p :: ps, v :: vs, locals => bindParams ps vs (Dict.insert locals p v)

/-- Calls a function while at most `fuel` calls may still be nested. -/
def callAt : Nat → Caller
  | 0 => fun _ _ _ _ _ m => (.undefined, m)
  | fuel + 1 => fun place module code captured args m =>
    let entered : Machine := { m with depth := m.depth + 1 }
    let (result, reached) :=
      if maxDepth < entered.depth then (.undefined, entered)
      else
        let frame : Frame := ⟨bindParams code.params args captured, module, false⟩
        let (flow, _, m) := Stmt.exec (callAt fuel) place (.block code.body) frame entered
        (flow.value, m)
    (result, { reached with depth := reached.depth - 1 })

/-- Calls a function from outside: one level more than may be nested, so the bound on the depth is
    what cuts calls off. -/
def callFunction : Caller := callAt (maxDepth + 1)

/-- The value of an expression in a page. The machine that is left is the one that was there, so
    nothing is carried to the next expression. -/
def Expr.value (e : Expr) (m : Machine) (layers : Layers) (place : Place) : Value :=
  (e.eval callFunction (.page layers) place m).1

end Trellis
