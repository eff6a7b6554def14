import Trellis.Proofs.Expr.Writes

/-!
# `exports` spelled out

In the code of a script module `exports` is short for `module.exports`. `Stmt.spelled` is the code with
the short form spelled out wherever a variable is read or written. Two properties of code tell when
both mean the same:
- `Stmt.declares`: a variable, a function or a parameter has the name,
- `Stmt.misreads`: the short form is read where `module` may be a local variable. A body that is not
  module-level code gets one by declaring it, as a parameter, by assigning to `module`, or by assigning
  to `exports`, and the functions that it makes from then on capture it.
-/

namespace Trellis

/-! ## 1. Spelling out -/

mutual

/-- An expression with `exports` spelled out; the code of other modules stays as it is. -/
def Expr.spelled (own : Bool) : Expr → Expr
  | .literal l => .literal l
  | .name x => if own && x == "exports" then .member (.name "module") "exports" else .name x
  | .array items => .array (spelledAll own items)
  | .object fields => .object (spelledFields own fields)
  | .function code => .function (code.spelled own)
  | .member base field => .member (base.spelled own) field
  | .index base key => .index (base.spelled own) (key.spelled own)
  | .call callee args => .call (callee.spelled own) (spelledAll own args)
  | .unary op operand => .unary op (operand.spelled own)
  | .binary op left right => .binary op (left.spelled own) (right.spelled own)
  | .logical op left right => .logical op (left.spelled own) (right.spelled own)
  | .conditional test yes no => .conditional (test.spelled own) (yes.spelled own) (no.spelled own)

/-- Expressions with `exports` spelled out. -/
def spelledAll (own : Bool) : List Expr → List Expr
  | [] => []
  | e :: es => e.spelled own :: spelledAll own es

/-- Named expressions with `exports` spelled out. -/
def spelledFields (own : Bool) : List (String × Expr) → List (String × Expr)
  | [] => []
  | (k, e) :: fields => (k, e.spelled own) :: spelledFields own fields

/-- A statement with `exports` spelled out. -/
def Stmt.spelled (own : Bool) : Stmt → Stmt
  | .declare bindings => .declare (spelledFields own bindings)
  | .assign root keys op value =>
    if own && root == "exports" then
      .assign "module" (.literal (.string "exports") :: spelledAll own keys) op (value.spelled own)
    else .assign root (spelledAll own keys) op (value.spelled own)
  | .function code => .function (code.spelled own)
  | .leave value => .leave (value.spelled own)
  | .branch test yes no => .branch (test.spelled own) (yes.spelled own) (no.spelled own)
  | .block body => .block (spelledBody own body)
  | .run e => .run (e.spelled own)
  | .empty => .empty

/-- Statements with `exports` spelled out. -/
def spelledBody (own : Bool) : List Stmt → List Stmt
  | [] => []
  | s :: rest => s.spelled own :: spelledBody own rest

/-- A function with `exports` spelled out. -/
def Function.spelled (own : Bool) : Function → Function
  | .mk name params body => .mk name params (spelledBody own body)

end

@[simp] theorem Function.name_spelled (own : Bool) (code : Function) :
    (code.spelled own).name = code.name := by
  cases code
  rw [spelled]
  rfl

@[simp] theorem Function.params_spelled (own : Bool) (code : Function) :
    (code.spelled own).params = code.params := by
  cases code
  rw [spelled]
  rfl

@[simp] theorem Function.body_spelled (own : Bool) (code : Function) :
    (code.spelled own).body = spelledBody own code.body := by
  cases code
  rw [spelled]
  rfl

mutual

/-- In the code of other modules nothing is spelled out. -/
theorem Expr.spelled_false : ∀ e : Expr, e.spelled false = e
  | .literal _ => by rw [Expr.spelled]
  | .name _ => by
    rw [Expr.spelled]
    rfl
  | .array items => by rw [Expr.spelled, spelledAll_false items]
  | .object fields => by rw [Expr.spelled, spelledFields_false fields]
  | .function code => by rw [Expr.spelled, Function.spelled_false code]
  | .member base _ => by rw [Expr.spelled, Expr.spelled_false base]
  | .index base key => by rw [Expr.spelled, Expr.spelled_false base, Expr.spelled_false key]
  | .call callee args => by rw [Expr.spelled, Expr.spelled_false callee, spelledAll_false args]
  | .unary _ operand => by rw [Expr.spelled, Expr.spelled_false operand]
  | .binary _ left right => by rw [Expr.spelled, Expr.spelled_false left, Expr.spelled_false right]
  | .logical _ left right => by rw [Expr.spelled, Expr.spelled_false left, Expr.spelled_false right]
  | .conditional test yes no => by
    rw [Expr.spelled, Expr.spelled_false test, Expr.spelled_false yes, Expr.spelled_false no]

theorem spelledAll_false : ∀ es : List Expr, spelledAll false es = es
  | [] => rfl
  | e :: es => by rw [spelledAll, Expr.spelled_false e, spelledAll_false es]

theorem spelledFields_false : ∀ fields : List (String × Expr), spelledFields false fields = fields
  | [] => rfl
  | (_, e) :: fields => by rw [spelledFields, Expr.spelled_false e, spelledFields_false fields]

theorem Stmt.spelled_false : ∀ s : Stmt, s.spelled false = s
  | .declare bindings => by rw [Stmt.spelled, spelledFields_false bindings]
  | .assign _ keys _ value => by
    rw [Stmt.spelled, spelledAll_false keys, Expr.spelled_false value]
    rfl
  | .function code => by rw [Stmt.spelled, Function.spelled_false code]
  | .leave value => by rw [Stmt.spelled, Expr.spelled_false value]
  | .branch test yes no => by
    rw [Stmt.spelled, Expr.spelled_false test, Stmt.spelled_false yes, Stmt.spelled_false no]
  | .block body => by rw [Stmt.spelled, spelledBody_false body]
  | .run e => by rw [Stmt.spelled, Expr.spelled_false e]
  | .empty => by rw [Stmt.spelled]

theorem spelledBody_false : ∀ body : List Stmt, spelledBody false body = body
  | [] => rfl
  | s :: rest => by rw [spelledBody, Stmt.spelled_false s, spelledBody_false rest]

theorem Function.spelled_false : ∀ code : Function, code.spelled false = code
  | .mk _ _ body => by rw [Function.spelled, spelledBody_false body]

end

/-! ## 2. What code declares -/

mutual

/-- Whether a variable, a function or a parameter in an expression has the name `x`. -/
def Expr.declares (x : String) : Expr → Bool
  | .literal _ | .name _ => false
  | .array items => declaresAll x items
  | .object fields => declaresFields x fields
  | .function code => code.declares x
  | .member base _ => base.declares x
  | .index base key => base.declares x || key.declares x
  | .call callee args => callee.declares x || declaresAll x args
  | .unary _ operand => operand.declares x
  | .binary _ left right => left.declares x || right.declares x
  | .logical _ left right => left.declares x || right.declares x
  | .conditional test yes no => test.declares x || (yes.declares x || no.declares x)

/-- Whether something in expressions has the name. -/
def declaresAll (x : String) : List Expr → Bool
  | [] => false
  | e :: es => e.declares x || declaresAll x es

/-- Whether something in the fields of an object has the name; the fields are no variables. -/
def declaresFields (x : String) : List (String × Expr) → Bool
  | [] => false
  | (_, e) :: fields => e.declares x || declaresFields x fields

/-- Whether a variable, a function or a parameter in a statement has the name. -/
def Stmt.declares (x : String) : Stmt → Bool
  | .declare bindings => declaresBindings x bindings
  | .assign _ keys _ value => value.declares x || declaresAll x keys
  | .function code => code.name == some x || code.declares x
  | .leave value => value.declares x
  | .branch test yes no => test.declares x || (yes.declares x || no.declares x)
  | .block body => declaresBody x body
  | .run e => e.declares x
  | .empty => false

/-- Whether one of the declared variables, or something in their values, has the name. -/
def declaresBindings (x : String) : List (String × Expr) → Bool
  | [] => false
  | (name, e) :: rest => name == x || (e.declares x || declaresBindings x rest)

/-- Whether something in statements has the name. -/
def declaresBody (x : String) : List Stmt → Bool
  | [] => false
  | s :: rest => s.declares x || declaresBody x rest

/-- Whether a parameter, or something in the body, has the name. -/
def Function.declares (x : String) : Function → Bool
  | .mk _ params body => params.contains x || declaresBody x body

end

/-! ## 3. Where the short form is read -/

mutual

/-- Whether an expression reads the short form where `module` may be a local variable: here if it is
    `hidden`, and in the bodies of functions. -/
def Expr.misreads (hidden : Bool) : Expr → Bool
  | .literal _ => false
  | .name x => hidden && x == "exports"
  | .array items => misreadsAll hidden items
  | .object fields => misreadsFields hidden fields
  | .function code => code.misreads hidden
  | .member base _ => base.misreads hidden
  | .index base key => base.misreads hidden || key.misreads hidden
  | .call callee args => callee.misreads hidden || misreadsAll hidden args
  | .unary _ operand => operand.misreads hidden
  | .binary _ left right => left.misreads hidden || right.misreads hidden
  | .logical _ left right => left.misreads hidden || right.misreads hidden
  | .conditional test yes no => test.misreads hidden || (yes.misreads hidden || no.misreads hidden)

/-- Whether expressions read the short form where `module` may be a local variable. -/
def misreadsAll (hidden : Bool) : List Expr → Bool
  | [] => false
  | e :: es => e.misreads hidden || misreadsAll hidden es

/-- Whether the fields of an object read the short form where `module` may be a local variable. -/
def misreadsFields (hidden : Bool) : List (String × Expr) → Bool
  | [] => false
  | (_, e) :: fields => e.misreads hidden || misreadsFields hidden fields

/-- Whether a statement reads the short form where `module` may be a local variable; only an `inner`
    body, one that is not module-level code, has local variables. -/
def Stmt.misreads (inner hidden : Bool) : Stmt → Bool
  | .declare bindings => misreadsBindings inner hidden bindings
  | .assign _ keys _ value => value.misreads hidden || misreadsAll hidden keys
  | .leave value => value.misreads hidden
  | .branch test yes no =>
    test.misreads hidden || (yes.misreads inner hidden || no.misreads inner hidden)
  | .block body =>
    misreadsHoisted (hidden || inner && hoists "module" body) body ||
      misreadsBody inner (hidden || inner && hoists "module" body) body
  | .run e => e.misreads hidden
  | .function _ | .empty => false

/-- Whether declared variables read the short form where `module` may be a local variable. -/
def misreadsBindings (inner hidden : Bool) : List (String × Expr) → Bool
  | [] => false
  | (name, e) :: rest =>
    e.misreads hidden || misreadsBindings inner (hidden || inner && name == "module") rest

/-- Whether the functions that a body declares read the short form where `module` may be a local
    variable. -/
def misreadsHoisted (hidden : Bool) : List Stmt → Bool
  | [] => false
  | .function code :: rest => code.misreads hidden || misreadsHoisted hidden rest
  | _ :: rest => misreadsHoisted hidden rest

/-- Whether statements read the short form where `module` may be a local variable. -/
def misreadsBody (inner hidden : Bool) : List Stmt → Bool
  | [] => false
  | s :: rest => s.misreads inner hidden || misreadsBody inner (hidden || inner && s.writes "module") rest

/-- Whether a function reads the short form where `module` may be a local variable: one that is
    captured, a parameter, or a variable of the body. -/
def Function.misreads (hidden : Bool) : Function → Bool
  | .mk _ params body =>
    misreadsHoisted (hidden || params.contains "module" || true && hoists "module" body) body ||
      misreadsBody true (hidden || params.contains "module" || true && hoists "module" body) body

end

theorem Function.declares_eq (x : String) (code : Function) :
    code.declares x = (code.params.contains x || (Stmt.block code.body).declares x) := by
  cases code
  rw [Function.declares, Stmt.declares]
  rfl

theorem Function.misreads_eq (hidden : Bool) (code : Function) :
    code.misreads hidden =
      (Stmt.block code.body).misreads true (hidden || code.params.contains "module") := by
  cases code
  rw [Function.misreads, Stmt.misreads]
  rfl

/-! ## 4. Code in which the short form can be spelled out -/

/-- An expression that declares no `exports` and reads it nowhere where `module` may be a local
    variable. -/
def Expr.Fits (hidden : Bool) (e : Expr) : Prop :=
  e.declares "exports" = false ∧ e.misreads hidden = false

/-- The same for expressions. -/
def FitsAll (hidden : Bool) (es : List Expr) : Prop :=
  declaresAll "exports" es = false ∧ misreadsAll hidden es = false

/-- The same for the fields of an object. -/
def FitsFields (hidden : Bool) (fields : List (String × Expr)) : Prop :=
  declaresFields "exports" fields = false ∧ misreadsFields hidden fields = false

/-- The same for a statement. -/
def Stmt.Fits (inner hidden : Bool) (s : Stmt) : Prop :=
  s.declares "exports" = false ∧ s.misreads inner hidden = false

/-- The same for statements. -/
def FitsBody (inner hidden : Bool) (body : List Stmt) : Prop :=
  declaresBody "exports" body = false ∧ misreadsBody inner hidden body = false

/-- The same for declared variables. -/
def FitsBindings (inner hidden : Bool) (bindings : List (String × Expr)) : Prop :=
  declaresBindings "exports" bindings = false ∧ misreadsBindings inner hidden bindings = false

/-- The same for the functions that a body declares. -/
def FitsHoisted (hidden : Bool) (body : List Stmt) : Prop :=
  declaresBody "exports" body = false ∧ misreadsHoisted hidden body = false

/-- The same for a function. -/
def Function.Fits (hidden : Bool) (code : Function) : Prop :=
  code.declares "exports" = false ∧ code.misreads hidden = false

section

variable {inner hidden : Bool}

/-- What has two parts fits when both do. -/
theorem or_eq_false_and {a b c d : Bool} :
    ((a || b) = false ∧ (c || d) = false) ↔ (a = false ∧ c = false) ∧ (b = false ∧ d = false) := by
  rw [Bool.or_eq_false_iff, Bool.or_eq_false_iff, and_and_and_comm]

theorem Expr.fits_name {x : String} (h : (Expr.name x).Fits hidden) (hx : x = "exports") :
    hidden = false := by
  obtain ⟨-, h⟩ := h
  rw [Expr.misreads, hx, beq_self_eq_true, Bool.and_true] at h
  exact h

theorem Expr.fits_array {items : List Expr} :
    (Expr.array items).Fits hidden ↔ FitsAll hidden items :=
  Iff.rfl

theorem Expr.fits_object {fields : List (String × Expr)} :
    (Expr.object fields).Fits hidden ↔ FitsFields hidden fields :=
  Iff.rfl

theorem Expr.fits_function {code : Function} : (Expr.function code).Fits hidden ↔ code.Fits hidden :=
  Iff.rfl

theorem Expr.fits_member {base : Expr} {field : String} :
    (Expr.member base field).Fits hidden ↔ base.Fits hidden :=
  Iff.rfl

theorem Expr.fits_index {base key : Expr} :
    (Expr.index base key).Fits hidden ↔ base.Fits hidden ∧ key.Fits hidden :=
  or_eq_false_and

theorem Expr.fits_call {callee : Expr} {args : List Expr} :
    (Expr.call callee args).Fits hidden ↔ callee.Fits hidden ∧ FitsAll hidden args :=
  or_eq_false_and

theorem Expr.fits_unary {op : UnaryOp} {operand : Expr} :
    (Expr.unary op operand).Fits hidden ↔ operand.Fits hidden :=
  Iff.rfl

theorem Expr.fits_binary {op : BinaryOp} {left right : Expr} :
    (Expr.binary op left right).Fits hidden ↔ left.Fits hidden ∧ right.Fits hidden :=
  or_eq_false_and

theorem Expr.fits_logical {op : LogicOp} {left right : Expr} :
    (Expr.logical op left right).Fits hidden ↔ left.Fits hidden ∧ right.Fits hidden :=
  or_eq_false_and

theorem Expr.fits_conditional {test yes no : Expr} :
    (Expr.conditional test yes no).Fits hidden ↔
      test.Fits hidden ∧ yes.Fits hidden ∧ no.Fits hidden :=
  or_eq_false_and.trans (and_congr_right' or_eq_false_and)

theorem fitsAll_cons {e : Expr} {es : List Expr} :
    FitsAll hidden (e :: es) ↔ e.Fits hidden ∧ FitsAll hidden es :=
  or_eq_false_and

theorem fitsFields_cons {k : String} {e : Expr} {fields : List (String × Expr)} :
    FitsFields hidden ((k, e) :: fields) ↔ e.Fits hidden ∧ FitsFields hidden fields :=
  or_eq_false_and

theorem Stmt.fits_declare {bindings : List (String × Expr)} :
    (Stmt.declare bindings).Fits inner hidden ↔ FitsBindings inner hidden bindings :=
  Iff.rfl

theorem Stmt.fits_assign {root : String} {keys : List Expr} {op : AssignOp} {value : Expr} :
    (Stmt.assign root keys op value).Fits inner hidden ↔ value.Fits hidden ∧ FitsAll hidden keys :=
  or_eq_false_and

theorem Stmt.fits_leave {value : Expr} :
    (Stmt.leave value).Fits inner hidden ↔ value.Fits hidden :=
  Iff.rfl

theorem Stmt.fits_branch {test : Expr} {yes no : Stmt} :
    (Stmt.branch test yes no).Fits inner hidden ↔
      test.Fits hidden ∧ yes.Fits inner hidden ∧ no.Fits inner hidden :=
  or_eq_false_and.trans (and_congr_right' or_eq_false_and)

theorem Stmt.fits_block {body : List Stmt} :
    (Stmt.block body).Fits inner hidden ↔
      FitsHoisted (hidden || inner && hoists "module" body) body ∧
        FitsBody inner (hidden || inner && hoists "module" body) body := by
  rw [Stmt.Fits, FitsHoisted, FitsBody, Stmt.declares, Stmt.misreads, Bool.or_eq_false_iff,
    and_and_left]

theorem Stmt.fits_run {e : Expr} : (Stmt.run e).Fits inner hidden ↔ e.Fits hidden :=
  Iff.rfl

theorem fitsBody_cons {s : Stmt} {rest : List Stmt} :
    FitsBody inner hidden (s :: rest) ↔
      s.Fits inner hidden ∧ FitsBody inner (hidden || inner && s.writes "module") rest :=
  or_eq_false_and

theorem fitsBindings_cons {name : String} {e : Expr} {rest : List (String × Expr)} :
    FitsBindings inner hidden ((name, e) :: rest) ↔
      name ≠ "exports" ∧ e.Fits hidden ∧
        FitsBindings inner (hidden || inner && name == "module") rest := by
  rw [FitsBindings, declaresBindings, misreadsBindings, Bool.or_eq_false_iff, beq_eq_false_iff_ne,
    and_assoc]
  exact and_congr_right' or_eq_false_and

theorem fitsHoisted_cons {s : Stmt} {rest : List Stmt} (h : FitsHoisted hidden (s :: rest)) :
    FitsHoisted hidden rest := by
  obtain ⟨hdeclares, hmisreads⟩ := h
  rw [declaresBody, Bool.or_eq_false_iff] at hdeclares
  refine ⟨hdeclares.2, ?_⟩
  cases s with
  | function code =>
    rw [misreadsHoisted, Bool.or_eq_false_iff] at hmisreads
    exact hmisreads.2
  | _ => exact hmisreads

theorem fitsHoisted_function {code : Function} {rest : List Stmt}
    (h : FitsHoisted hidden (.function code :: rest)) :
    code.name ≠ some "exports" ∧ code.Fits hidden := by
  obtain ⟨hdeclares, hmisreads⟩ := h
  rw [declaresBody, Stmt.declares, Bool.or_eq_false_iff, Bool.or_eq_false_iff] at hdeclares
  rw [misreadsHoisted, Bool.or_eq_false_iff] at hmisreads
  exact ⟨beq_eq_false_iff_ne.mp hdeclares.1.1, hdeclares.1.2, hmisreads.1⟩

theorem Function.fits_iff {code : Function} :
    code.Fits hidden ↔ "exports" ∉ code.params ∧
      (Stmt.block code.body).Fits true (hidden || code.params.contains "module") := by
  rw [Function.Fits, Stmt.Fits, Function.declares_eq, Function.misreads_eq, Bool.or_eq_false_iff,
    and_assoc, List.contains_eq_mem, decide_eq_false_iff_not]

end

end Trellis
