import Trellis.Proofs.Expr.Calls

/-!
# Scripts end

`callAt` counts down the calls that may still be nested, so it ends by its form. The machine has a
counter of its own, and that counter is what cuts calls off. `Task.Ends` are the rules by which scripts
run, with the counter alone and no count beside it: a task ends when the rules derive a result, which
they do in finitely many steps. They also tell the nesting of every function body that was run.

* Whatever ends leaves the counter as it was, and no body in it is nested deeper than the counter allows
  (`Task.Ends.keeps`, by induction on the rules).
* Everything ends (`Task.ends`): a call by recursion on the depth that is left, all else by recursion on
  its form.
* What ends is what evaluation gives, as long as its count reaches at least as far as the counter
  (`Task.Ends.eval_eq`).
-/

namespace Trellis

/-! ## 1. Tasks and their rules -/

/-- What there is to do in a script, with the type of what comes of it. -/
inductive Task : Type → Type where
  | expr (scope : Scope) (place : Place) (e : Expr) : Task Value
  | exprs (scope : Scope) (place : Place) (i : Nat) (es : List Expr) : Task (List Value)
  | fields (scope : Scope) (place : Place) (i : Nat) (fields : List (String × Expr)) :
    Task (List (String × Value))
  | stmt (place : Place) (s : Stmt) (f : Frame) : Task (Flow × Frame)
  | stmts (place : Place) (i : Nat) (body : List Stmt) (f : Frame) : Task (Flow × Frame)
  | bindings (place : Place) (i : Nat) (bindings : List (String × Expr)) (f : Frame) : Task Frame
  | call (place : Place) (module : Nat) (code : Function) (captured : Dict Value)
    (args : List Value) : Task Value

/-- A machine inside one more call. -/
def Machine.deeper (m : Machine) : Machine := { m with depth := m.depth + 1 }

/-- A machine behind a call. -/
def Machine.back (m : Machine) : Machine := { m with depth := m.depth - 1 }

@[simp] theorem Machine.depth_deeper (m : Machine) : m.deeper.depth = m.depth + 1 := rfl

@[simp] theorem Machine.depth_back (m : Machine) : m.back.depth = m.depth - 1 := rfl

@[simp] theorem Machine.back_deeper (m : Machine) : m.deeper.back = m := rfl

/-- **The rules by which scripts run.** `t.Ends n m a m' bodies`: inside of `n` function bodies the task
    `t` starts on the machine `m` and ends with `a` on the machine `m'`, and `bodies` are the nestings
    of the function bodies that are run meanwhile. -/
inductive Task.Ends : {α : Type} → Task α → Nat → Machine → α → Machine → List Nat → Prop
  -- expressions
  | literal {n scope place l m} :
    Ends (.expr scope place (.literal l)) n m (.ofLiteral l) m []
  | name {n scope place x m} :
    Ends (.expr scope place (.name x)) n m ((scope.lookup m x).getD .undefined) m []
  | array {n scope place items m vs m' bodies}
      (hitems : Ends (.exprs scope place 0 items) n m vs m' bodies) :
    Ends (.expr scope place (.array items)) n m (.array vs) m' bodies
  | object {n scope place fields m kvs m' bodies}
      (hfields : Ends (.fields scope place 0 fields) n m kvs m' bodies) :
    Ends (.expr scope place (.object fields)) n m (.object (Dict.ofPairs kvs)) m' bodies
  | function {n scope place code m} :
    Ends (.expr scope place (.function code)) n m (scope.function place code) m []
  | member {n scope place base field m v m' bodies}
      (hbase : Ends (.expr scope (0 :: place) base) n m v m' bodies) :
    Ends (.expr scope place (.member base field)) n m (v.step (.name field)) m' bodies
  | index {n scope place base key m v m₁ b₁ k m₂ b₂}
      (hbase : Ends (.expr scope (0 :: place) base) n m v m₁ b₁)
      (hkey : Ends (.expr scope (1 :: place) key) n m₁ k m₂ b₂) :
    Ends (.expr scope place (.index base key)) n m (v.step (.ofValue k)) m₂ (b₁ ++ b₂)
  | applied {n scope place callee args m origin module code captured m₁ b₁ vs m₂ b₂ v m₃ b₃}
      (hcallee : Ends (.expr scope (0 :: place) callee) n m (.function origin module code captured) m₁ b₁)
      (hargs : Ends (.exprs scope (1 :: place) 0 args) n m₁ vs m₂ b₂)
      (hcall : Ends (.call (2 :: place) module code captured vs) n m₂ v m₃ b₃) :
    Ends (.expr scope place (.call callee args)) n m v m₃ (b₁ ++ (b₂ ++ b₃))
  | notApplied {n scope place callee args m v m' bodies}
      (hcallee : Ends (.expr scope (0 :: place) callee) n m v m' bodies)
      (hother : ∀ origin module code captured, v ≠ .function origin module code captured) :
    Ends (.expr scope place (.call callee args)) n m .undefined m' bodies
  | unary {n scope place op operand m v m' bodies}
      (hoperand : Ends (.expr scope (0 :: place) operand) n m v m' bodies) :
    Ends (.expr scope place (.unary op operand)) n m (op.apply v) m' bodies
  | binary {n scope place op left right m a m₁ b₁ b m₂ b₂}
      (hleft : Ends (.expr scope (0 :: place) left) n m a m₁ b₁)
      (hright : Ends (.expr scope (1 :: place) right) n m₁ b m₂ b₂) :
    Ends (.expr scope place (.binary op left right)) n m (op.apply a b) m₂ (b₁ ++ b₂)
  | decided {n scope place op left right m a m' bodies}
      (hleft : Ends (.expr scope (0 :: place) left) n m a m' bodies) (hdecided : op.decided a = true) :
    Ends (.expr scope place (.logical op left right)) n m a m' bodies
  | undecided {n scope place op left right m a m₁ b₁ b m₂ b₂}
      (hleft : Ends (.expr scope (0 :: place) left) n m a m₁ b₁) (hdecided : op.decided a = false)
      (hright : Ends (.expr scope (1 :: place) right) n m₁ b m₂ b₂) :
    Ends (.expr scope place (.logical op left right)) n m b m₂ (b₁ ++ b₂)
  | yes {n scope place test yes no m t m₁ b₁ v m₂ b₂}
      (htest : Ends (.expr scope (0 :: place) test) n m t m₁ b₁) (htruthy : t.isTruthy = true)
      (hyes : Ends (.expr scope (1 :: place) yes) n m₁ v m₂ b₂) :
    Ends (.expr scope place (.conditional test yes no)) n m v m₂ (b₁ ++ b₂)
  | no {n scope place test yes no m t m₁ b₁ v m₂ b₂}
      (htest : Ends (.expr scope (0 :: place) test) n m t m₁ b₁) (hfalsy : t.isTruthy = false)
      (hno : Ends (.expr scope (2 :: place) no) n m₁ v m₂ b₂) :
    Ends (.expr scope place (.conditional test yes no)) n m v m₂ (b₁ ++ b₂)
  -- several expressions
  | noExpr {n scope place i m} : Ends (.exprs scope place i []) n m [] m []
  | moreExprs {n scope place i e es m v m₁ b₁ vs m₂ b₂}
      (hhead : Ends (.expr scope (i :: place) e) n m v m₁ b₁)
      (htail : Ends (.exprs scope place (i + 1) es) n m₁ vs m₂ b₂) :
    Ends (.exprs scope place i (e :: es)) n m (v :: vs) m₂ (b₁ ++ b₂)
  | noField {n scope place i m} : Ends (.fields scope place i []) n m [] m []
  | moreFields {n scope place i k e es m v m₁ b₁ kvs m₂ b₂}
      (hhead : Ends (.expr scope (i :: place) e) n m v m₁ b₁)
      (htail : Ends (.fields scope place (i + 1) es) n m₁ kvs m₂ b₂) :
    Ends (.fields scope place i ((k, e) :: es)) n m ((k, v) :: kvs) m₂ (b₁ ++ b₂)
  -- statements
  | declare {n place bindings f m f' m' bodies}
      (hbindings : Ends (.bindings place 0 bindings f) n m f' m' bodies) :
    Ends (.stmt place (.declare bindings) f) n m (.next, f') m' bodies
  | assign {n place root keys op value f m v m₁ b₁ ks m₂ b₂}
      (hvalue : Ends (.expr (.frame f) (0 :: place) value) n m v m₁ b₁)
      (hkeys : Ends (.exprs (.frame f) (1 :: place) 0 keys) n m₁ ks m₂ b₂) :
    Ends (.stmt place (.assign root keys op value) f) n m
      (.next, (f.store m₂ root (ks.map Key.ofValue) op v).1)
      (f.store m₂ root (ks.map Key.ofValue) op v).2 (b₁ ++ b₂)
  | declared {n place code f m} : Ends (.stmt place (.function code) f) n m (.next, f) m []
  | leave {n place value f m v m' bodies}
      (hvalue : Ends (.expr (.frame f) place value) n m v m' bodies) :
    Ends (.stmt place (.leave value) f) n m (.left v, f) m' bodies
  | branchYes {n place test yes no f m t m₁ b₁ r m₂ b₂}
      (htest : Ends (.expr (.frame f) (0 :: place) test) n m t m₁ b₁) (htruthy : t.isTruthy = true)
      (hyes : Ends (.stmt (1 :: place) yes f) n m₁ r m₂ b₂) :
    Ends (.stmt place (.branch test yes no) f) n m r m₂ (b₁ ++ b₂)
  | branchNo {n place test yes no f m t m₁ b₁ r m₂ b₂}
      (htest : Ends (.expr (.frame f) (0 :: place) test) n m t m₁ b₁) (hfalsy : t.isTruthy = false)
      (hno : Ends (.stmt (2 :: place) no f) n m₁ r m₂ b₂) :
    Ends (.stmt place (.branch test yes no) f) n m r m₂ (b₁ ++ b₂)
  | block {n place body f m r m' bodies}
      (hbody : Ends (.stmts (1 :: place) 0 body (hoist (0 :: place) 0 body f m).1) n
        (hoist (0 :: place) 0 body f m).2 r m' bodies) :
    Ends (.stmt place (.block body) f) n m r m' bodies
  | run {n place e f m v m' bodies} (he : Ends (.expr (.frame f) place e) n m v m' bodies) :
    Ends (.stmt place (.run e) f) n m (.next, f) m' bodies
  | empty {n place f m} : Ends (.stmt place .empty f) n m (.next, f) m []
  -- several statements
  | noStmt {n place i f m} : Ends (.stmts place i [] f) n m (.next, f) m []
  | moreStmts {n place i s rest f m f₁ m₁ b₁ r m₂ b₂}
      (hhead : Ends (.stmt (i :: place) s f) n m (.next, f₁) m₁ b₁)
      (htail : Ends (.stmts place (i + 1) rest f₁) n m₁ r m₂ b₂) :
    Ends (.stmts place i (s :: rest) f) n m r m₂ (b₁ ++ b₂)
  | leftStmts {n place i s rest f m v f' m' bodies}
      (hhead : Ends (.stmt (i :: place) s f) n m (.left v, f') m' bodies) :
    Ends (.stmts place i (s :: rest) f) n m (.left v, f') m' bodies
  | noBinding {n place i f m} : Ends (.bindings place i [] f) n m f m []
  | moreBindings {n place i name e rest f m v m₁ b₁ f' m' b₂}
      (hhead : Ends (.expr (.frame f) (i :: place) e) n m v m₁ b₁)
      (htail : Ends (.bindings place (i + 1) rest (f.write m₁ name v).1) n (f.write m₁ name v).2 f' m' b₂) :
    Ends (.bindings place i ((name, e) :: rest) f) n m f' m' (b₁ ++ b₂)
  -- calls: the counter alone decides whether the body is run, and `n` has no part in it
  | cutOff {n place module code captured args m} (hdeep : maxDepth < m.deeper.depth) :
    Ends (.call place module code captured args) n m .undefined m.deeper.back []
  | entered {n place module code captured args m flow f' m' bodies} (hfits : m.deeper.depth ≤ maxDepth)
      (hbody : Ends (.stmt place (.block code.body) ⟨bindParams code.params args captured, module, false⟩)
        (n + 1) m.deeper (flow, f') m' bodies) :
    Ends (.call place module code captured args) n m flow.value m'.back ((n + 1) :: bodies)

/-! ## 2. The counter -/

theorem Frame.depth_write (f : Frame) (m : Machine) (name : String) (v : Value) :
    (f.write m name v).2.depth = m.depth := by
  obtain ⟨f', m', hrun, h⟩ := f.write_writes m name v
  rw [hrun]
  exact h.depth

theorem Frame.depth_store (f : Frame) (m : Machine) (root : String) (keys : List Key) (op : AssignOp)
    (v : Value) : (f.store m root keys op v).2.depth = m.depth := by
  obtain ⟨f', m', hrun, h⟩ := f.store_writes m root keys op v
  rw [hrun]
  exact h.depth

theorem depth_hoist (place : Place) (i : Nat) (body : List Stmt) (f : Frame) (m : Machine) :
    (hoist place i body f m).2.depth = m.depth := by
  obtain ⟨f', m', hrun, h⟩ := hoist_writes place body i f m
  rw [hrun]
  exact h.depth

namespace Task

variable {α : Type} {t : Task α} {n : Nat} {m m' m₁ m₂ : Machine} {a : α} {bodies b₁ b₂ : List Nat}

/-- The counter is where it was, and no body is nested deeper than the counter allows. -/
structure Keeps (n : Nat) (m m' : Machine) (bodies : List Nat) : Prop where
  depth : m'.depth = m.depth
  bound : ∀ k ∈ bodies, n < k ∧ k + m.depth ≤ n + maxDepth

theorem Keeps.same (h : m'.depth = m.depth) : Keeps n m m' [] := ⟨h, nofun⟩

theorem Keeps.trans (h₁ : Keeps n m m₁ b₁) (h₂ : Keeps n m₁ m₂ b₂) : Keeps n m m₂ (b₁ ++ b₂) where
  depth := h₂.depth.trans h₁.depth
  bound k hk := by
    rcases List.mem_append.mp hk with hk | hk
    · exact h₁.bound k hk
    · rw [← h₁.depth]
      exact h₂.bound k hk

/-- One body more around what is run. -/
theorem Keeps.entered (fits : m.deeper.depth ≤ maxDepth) (h : Keeps (n + 1) m.deeper m' bodies) :
    Keeps n m m'.back ((n + 1) :: bodies) := by
  have hdepth := h.depth
  rw [Machine.depth_deeper] at fits hdepth
  refine ⟨?_, fun k hk => ?_⟩
  · rw [Machine.depth_back, hdepth, Nat.add_sub_cancel]
  · rcases List.mem_cons.mp hk with rfl | hk
    · omega
    · have hbound := h.bound k hk
      rw [Machine.depth_deeper] at hbound
      omega

/-- **What ends leaves the counter as it was and keeps to its bound.** -/
theorem Ends.keeps (h : t.Ends n m a m' bodies) : Keeps n m m' bodies := by
  induction h with
  | literal | name | function | noExpr | noField | declared | empty | noStmt | noBinding =>
    exact .same rfl
  | array _ ih | object _ ih | member _ ih | notApplied _ _ ih | unary _ ih | decided _ _ ih
  | declare _ ih | leave _ ih | run _ ih | leftStmts _ ih => exact ih
  | index _ _ ih₁ ih₂ | binary _ _ ih₁ ih₂ | undecided _ _ _ ih₁ ih₂ | yes _ _ _ ih₁ ih₂
  | no _ _ _ ih₁ ih₂ | moreExprs _ _ ih₁ ih₂ | moreFields _ _ ih₁ ih₂ | branchYes _ _ _ ih₁ ih₂
  | branchNo _ _ _ ih₁ ih₂ | moreStmts _ _ ih₁ ih₂ => exact ih₁.trans ih₂
  | applied _ _ _ ih₁ ih₂ ih₃ => exact ih₁.trans (ih₂.trans ih₃)
  | assign _ _ ih₁ ih₂ =>
    obtain ⟨hdepth, hbound⟩ := ih₁.trans ih₂
    exact ⟨(Frame.depth_store _ _ _ _ _ _).trans hdepth, hbound⟩
  | block _ ih => exact (Keeps.same (depth_hoist _ _ _ _ _)).trans ih
  | moreBindings _ _ ih₁ ih₂ =>
    exact ih₁.trans ((Keeps.same (Frame.depth_write _ _ _ _)).trans ih₂)
  | cutOff => exact .same (congrArg Machine.depth (Machine.back_deeper _))
  | entered fits _ ih => exact .entered fits ih

/-! ## 3. Everything ends -/

/-- The task ends wherever it starts at a depth. -/
def EndsFrom (t : Task α) (d : Nat) : Prop :=
  ∀ (n : Nat) (m : Machine), m.depth = d → ∃ a m' bodies, t.Ends n m a m' bodies

end Task

/-- Calls end at a depth. -/
def CallsEnd (d : Nat) : Prop :=
  ∀ place module code captured args, (Task.call place module code captured args).EndsFrom d

section

variable {d : Nat}

mutual

/-- An expression ends where the calls in it do. -/
theorem Expr.ends (hcalls : CallsEnd d) (scope : Scope) :
    ∀ (e : Expr) (place : Place), (Task.expr scope place e).EndsFrom d
  | .literal _, _ => fun n m _ => ⟨_, m, [], .literal⟩
  | .name _, _ => fun n m _ => ⟨_, m, [], .name⟩
  | .array items, place => by
    intro n m hm
    obtain ⟨vs, m', b, h⟩ := exprs_end hcalls scope items place 0 n m hm
    exact ⟨_, m', b, .array h⟩
  | .object fields, place => by
    intro n m hm
    obtain ⟨kvs, m', b, h⟩ := fields_end hcalls scope fields place 0 n m hm
    exact ⟨_, m', b, .object h⟩
  | .function _, _ => fun n m _ => ⟨_, m, [], .function⟩
  | .member base _, place => by
    intro n m hm
    obtain ⟨v, m', b, h⟩ := Expr.ends hcalls scope base (0 :: place) n m hm
    exact ⟨_, m', b, .member h⟩
  | .index base key, place => by
    intro n m hm
    obtain ⟨v, m₁, b₁, h₁⟩ := Expr.ends hcalls scope base (0 :: place) n m hm
    obtain ⟨k, m₂, b₂, h₂⟩ := Expr.ends hcalls scope key (1 :: place) n m₁ (h₁.keeps.depth.trans hm)
    exact ⟨_, m₂, b₁ ++ b₂, .index h₁ h₂⟩
  | .call callee args, place => by
    intro n m hm
    obtain ⟨v, m₁, b₁, h₁⟩ := Expr.ends hcalls scope callee (0 :: place) n m hm
    cases v with
    | function origin module code captured =>
      have hm₁ := h₁.keeps.depth.trans hm
      obtain ⟨vs, m₂, b₂, h₂⟩ := exprs_end hcalls scope args (1 :: place) 0 n m₁ hm₁
      have hm₂ := h₂.keeps.depth.trans hm₁
      obtain ⟨w, m₃, b₃, h₃⟩ := hcalls (2 :: place) module code captured vs n m₂ hm₂
      exact ⟨w, m₃, b₁ ++ (b₂ ++ b₃), .applied h₁ h₂ h₃⟩
    | _ => exact ⟨.undefined, m₁, b₁, .notApplied h₁ nofun⟩
  | .unary op operand, place => by
    intro n m hm
    obtain ⟨v, m', b, h⟩ := Expr.ends hcalls scope operand (0 :: place) n m hm
    exact ⟨_, m', b, .unary h⟩
  | .binary op left right, place => by
    intro n m hm
    obtain ⟨v, m₁, b₁, h₁⟩ := Expr.ends hcalls scope left (0 :: place) n m hm
    obtain ⟨w, m₂, b₂, h₂⟩ := Expr.ends hcalls scope right (1 :: place) n m₁ (h₁.keeps.depth.trans hm)
    exact ⟨_, m₂, b₁ ++ b₂, .binary h₁ h₂⟩
  | .logical op left right, place => by
    intro n m hm
    obtain ⟨v, m₁, b₁, h₁⟩ := Expr.ends hcalls scope left (0 :: place) n m hm
    cases hdecided : op.decided v with
    | true => exact ⟨v, m₁, b₁, .decided h₁ hdecided⟩
    | false =>
      obtain ⟨w, m₂, b₂, h₂⟩ := Expr.ends hcalls scope right (1 :: place) n m₁ (h₁.keeps.depth.trans hm)
      exact ⟨w, m₂, b₁ ++ b₂, .undecided h₁ hdecided h₂⟩
  | .conditional test yes no, place => by
    intro n m hm
    obtain ⟨t, m₁, b₁, h₁⟩ := Expr.ends hcalls scope test (0 :: place) n m hm
    have hm₁ := h₁.keeps.depth.trans hm
    cases htest : t.isTruthy with
    | true =>
      obtain ⟨v, m₂, b₂, h₂⟩ := Expr.ends hcalls scope yes (1 :: place) n m₁ hm₁
      exact ⟨v, m₂, b₁ ++ b₂, .yes h₁ htest h₂⟩
    | false =>
      obtain ⟨v, m₂, b₂, h₂⟩ := Expr.ends hcalls scope no (2 :: place) n m₁ hm₁
      exact ⟨v, m₂, b₁ ++ b₂, .no h₁ htest h₂⟩

theorem exprs_end (hcalls : CallsEnd d) (scope : Scope) :
    ∀ (es : List Expr) (place : Place) (i : Nat), (Task.exprs scope place i es).EndsFrom d
  | [], _, _ => fun n m _ => ⟨[], m, [], .noExpr⟩
  | e :: es, place, i => by
    intro n m hm
    obtain ⟨v, m₁, b₁, h₁⟩ := Expr.ends hcalls scope e (i :: place) n m hm
    obtain ⟨vs, m₂, b₂, h₂⟩ := exprs_end hcalls scope es place (i + 1) n m₁ (h₁.keeps.depth.trans hm)
    exact ⟨v :: vs, m₂, b₁ ++ b₂, .moreExprs h₁ h₂⟩

theorem fields_end (hcalls : CallsEnd d) (scope : Scope) :
    ∀ (fields : List (String × Expr)) (place : Place) (i : Nat),
      (Task.fields scope place i fields).EndsFrom d
  | [], _, _ => fun n m _ => ⟨[], m, [], .noField⟩
  | (k, e) :: fields, place, i => by
    intro n m hm
    obtain ⟨v, m₁, b₁, h₁⟩ := Expr.ends hcalls scope e (i :: place) n m hm
    obtain ⟨kvs, m₂, b₂, h₂⟩ :=
      fields_end hcalls scope fields place (i + 1) n m₁ (h₁.keeps.depth.trans hm)
    exact ⟨(k, v) :: kvs, m₂, b₁ ++ b₂, .moreFields h₁ h₂⟩

end

theorem bindings_end (hcalls : CallsEnd d) (place : Place) (bindings : List (String × Expr)) :
    ∀ (i : Nat) (f : Frame), (Task.bindings place i bindings f).EndsFrom d := by
  induction bindings with
  | nil => exact fun i f n m _ => ⟨f, m, [], .noBinding⟩
  | cons binding rest ih =>
    intro i f n m hm
    obtain ⟨name, e⟩ := binding
    obtain ⟨v, m₁, b₁, h₁⟩ := Expr.ends hcalls (.frame f) e (i :: place) n m hm
    have hwritten : (f.write m₁ name v).2.depth = d :=
      (f.depth_write m₁ name v).trans (h₁.keeps.depth.trans hm)
    obtain ⟨f', m', b₂, h₂⟩ := ih (i + 1) (f.write m₁ name v).1 n _ hwritten
    exact ⟨f', m', b₁ ++ b₂, .moreBindings h₁ h₂⟩

mutual

/-- A statement ends where the calls in it do. -/
theorem Stmt.ends (hcalls : CallsEnd d) :
    ∀ (s : Stmt) (place : Place) (f : Frame), (Task.stmt place s f).EndsFrom d
  | .declare bindings, place, f => by
    intro n m hm
    obtain ⟨f', m', b, h⟩ := bindings_end hcalls place bindings 0 f n m hm
    exact ⟨_, m', b, .declare h⟩
  | .assign root keys op value, place, f => by
    intro n m hm
    obtain ⟨v, m₁, b₁, h₁⟩ := Expr.ends hcalls (.frame f) value (0 :: place) n m hm
    obtain ⟨ks, m₂, b₂, h₂⟩ :=
      exprs_end hcalls (.frame f) keys (1 :: place) 0 n m₁ (h₁.keeps.depth.trans hm)
    exact ⟨_, _, b₁ ++ b₂, .assign h₁ h₂⟩
  | .function _, _, _ => fun n m _ => ⟨_, m, [], .declared⟩
  | .leave value, place, f => by
    intro n m hm
    obtain ⟨v, m', b, h⟩ := Expr.ends hcalls (.frame f) value place n m hm
    exact ⟨_, m', b, .leave h⟩
  | .branch test yes no, place, f => by
    intro n m hm
    obtain ⟨t, m₁, b₁, h₁⟩ := Expr.ends hcalls (.frame f) test (0 :: place) n m hm
    have hm₁ := h₁.keeps.depth.trans hm
    cases htest : t.isTruthy with
    | true =>
      obtain ⟨r, m₂, b₂, h₂⟩ := Stmt.ends hcalls yes (1 :: place) f n m₁ hm₁
      exact ⟨r, m₂, b₁ ++ b₂, .branchYes h₁ htest h₂⟩
    | false =>
      obtain ⟨r, m₂, b₂, h₂⟩ := Stmt.ends hcalls no (2 :: place) f n m₁ hm₁
      exact ⟨r, m₂, b₁ ++ b₂, .branchNo h₁ htest h₂⟩
  | .block body, place, f => by
    intro n m hm
    have hhoist : (hoist (0 :: place) 0 body f m).2.depth = d :=
      (depth_hoist (0 :: place) 0 body f m).trans hm
    obtain ⟨r, m', b, h⟩ := stmts_end hcalls body (1 :: place) 0 _ n _ hhoist
    exact ⟨r, m', b, .block h⟩
  | .run e, place, f => by
    intro n m hm
    obtain ⟨v, m', b, h⟩ := Expr.ends hcalls (.frame f) e place n m hm
    exact ⟨_, m', b, .run h⟩
  | .empty, _, _ => fun n m _ => ⟨_, m, [], .empty⟩

theorem stmts_end (hcalls : CallsEnd d) :
    ∀ (body : List Stmt) (place : Place) (i : Nat) (f : Frame),
      (Task.stmts place i body f).EndsFrom d
  | [], _, _, _ => fun n m _ => ⟨_, m, [], .noStmt⟩
  | s :: rest, place, i, f => by
    intro n m hm
    obtain ⟨⟨flow, f₁⟩, m₁, b₁, h₁⟩ := Stmt.ends hcalls s (i :: place) f n m hm
    cases flow with
    | next =>
      obtain ⟨r, m₂, b₂, h₂⟩ := stmts_end hcalls rest place (i + 1) f₁ n m₁ (h₁.keeps.depth.trans hm)
      exact ⟨r, m₂, b₁ ++ b₂, .moreStmts h₁ h₂⟩
    | left v => exact ⟨(.left v, f₁), m₁, b₁, .leftStmts h₁⟩

end

end

/-- A call ends where those that are nested one deeper do, and past the bound in any case. -/
theorem CallsEnd.outward {d : Nat} (hinner : d < maxDepth → CallsEnd (d + 1)) : CallsEnd d := by
  intro place module code captured args n m hm
  by_cases hfits : m.deeper.depth ≤ maxDepth
  · have hdeeper : m.deeper.depth = d + 1 := by
      rw [Machine.depth_deeper, hm]
    obtain ⟨⟨flow, f'⟩, m', bodies, h⟩ :=
      Stmt.ends (hinner (by omega)) (.block code.body) place
        ⟨bindParams code.params args captured, module, false⟩ (n + 1) m.deeper hdeeper
    exact ⟨flow.value, m'.back, (n + 1) :: bodies, .entered hfits h⟩
  · exact ⟨.undefined, m.deeper.back, [], .cutOff (by omega)⟩

/-- **All calls end**, by recursion on the levels that are left. -/
theorem callsEnd (d : Nat) : CallsEnd d :=
  .outward fun _ => callsEnd (d + 1)
termination_by maxDepth - d

/-- **Everything ends**, on any machine. -/
theorem Task.ends {α : Type} (t : Task α) (n : Nat) (m : Machine) :
    ∃ a m' bodies, t.Ends n m a m' bodies := by
  have hcalls := callsEnd m.depth
  cases t with
  | expr scope place e => exact e.ends hcalls scope place n m rfl
  | exprs scope place i es => exact exprs_end hcalls scope es place i n m rfl
  | fields scope place i fields => exact fields_end hcalls scope fields place i n m rfl
  | stmt place s f => exact s.ends hcalls place f n m rfl
  | stmts place i body f => exact stmts_end hcalls body place i f n m rfl
  | bindings place i bindings f => exact bindings_end hcalls place bindings i f n m rfl
  | call place module code captured args => exact hcalls place module code captured args n m rfl

/-! ## 4. What ends is what evaluation gives -/

/-- What evaluation makes of a task. -/
def Task.eval {α : Type} (call : Caller) (t : Task α) (m : Machine) : α × Machine :=
  match t with
  | .expr scope place e => e.eval call scope place m
  | .exprs scope place i es => evalAll call scope place i es m
  | .fields scope place i kes => evalFields call scope place i kes m
  | .stmt place s f =>
    let (flow, f, m) := s.exec call place f m
    ((flow, f), m)
  | .stmts place i body f =>
    let (flow, f, m) := execAll call place i body f m
    ((flow, f), m)
  | .bindings place i rest f => execBindings call place i rest f m
  | .call place module code captured args => call place module code captured args m

section

variable {fuel : Nat} {m m' : Machine} {place : Place} {module : Nat} {code : Function}
  {captured : Dict Value} {args : List Value}

/-- A call past the bound runs nothing. -/
theorem callAt_cutOff (hdeep : maxDepth < m.deeper.depth) :
    callAt fuel place module code captured args m = (.undefined, m.deeper.back) := by
  cases fuel with
  | zero => rfl
  | succ fuel =>
    unfold Machine.deeper at hdeep
    simp only [callAt, if_pos hdeep]
    rfl

/-- A call that fits runs its body, and takes the level back that it added. -/
theorem callAt_entered {flow : Flow} {f' : Frame} (hfits : m.deeper.depth ≤ maxDepth)
    (hbody : Stmt.exec (callAt fuel) place (.block code.body)
      ⟨bindParams code.params args captured, module, false⟩ m.deeper = (flow, f', m')) :
    callAt (fuel + 1) place module code captured args m = (flow.value, m'.back) := by
  unfold Machine.deeper at hfits hbody
  simp only [callAt, if_neg (Nat.not_lt.mpr hfits), hbody]
  rfl

end

namespace Task

variable {α : Type} {t : Task α} {n fuel : Nat} {m m' : Machine} {a : α} {bodies : List Nat}
  {call : Caller}

theorem exec_eq_of_eval_eq {place : Place} {s : Stmt} {f : Frame} {flow : Flow} {f' : Frame}
    (h : (Task.stmt place s f).eval call m = ((flow, f'), m')) :
    s.exec call place f m = (flow, f', m') := by
  simp only [Task.eval] at h
  cases h
  rfl

/-- **What ends is what evaluation gives**, for a count of nested calls that reaches past what the
    counter allows: no result depends on the count. -/
theorem Ends.eval_eq (h : t.Ends n m a m' bodies) (hfuel : maxDepth < fuel + m.depth) :
    t.eval (callAt fuel) m = (a, m') := by
  induction h generalizing fuel with
  | literal | name | function => simp only [Task.eval, Expr.eval]
  | noExpr | noField => simp only [Task.eval, evalAll, evalFields]
  | declared | empty => simp only [Task.eval, Stmt.exec]
  | noStmt | noBinding => simp only [Task.eval, execAll, execBindings]
  | array _ ih | object _ ih | member _ ih | unary _ ih | declare _ ih | leave _ ih | run _ ih =>
    have h := ih hfuel
    simp only [Task.eval] at h
    simp only [Task.eval, Expr.eval, Stmt.exec, h]
  -- what comes later starts with the counter where it was, so the count still reaches past it
  | index h₁ _ ih₁ ih₂ | binary h₁ _ ih₁ ih₂ =>
    have hfirst := ih₁ hfuel
    have hsecond := ih₂ (h₁.keeps.depth ▸ hfuel)
    simp only [Task.eval] at hfirst hsecond
    simp only [Task.eval, Expr.eval, hfirst, hsecond]
  | moreExprs h₁ _ ih₁ ih₂ | moreFields h₁ _ ih₁ ih₂ =>
    have hhead := ih₁ hfuel
    have htail := ih₂ (h₁.keeps.depth ▸ hfuel)
    simp only [Task.eval] at hhead htail
    simp only [Task.eval, evalAll, evalFields, hhead, htail]
  | moreBindings h₁ _ ih₁ ih₂ =>
    have hhead := ih₁ hfuel
    have htail := ih₂ ((Frame.depth_write _ _ _ _).trans h₁.keeps.depth ▸ hfuel)
    simp only [Task.eval] at hhead htail
    simp only [Task.eval, execBindings, hhead, htail]
  | applied h₁ h₂ _ ih₁ ih₂ ih₃ =>
    have hcallee := ih₁ hfuel
    have hargs := ih₂ (h₁.keeps.depth ▸ hfuel)
    have hcall := ih₃ ((h₂.keeps.depth.trans h₁.keeps.depth) ▸ hfuel)
    simp only [Task.eval] at hcallee hargs hcall
    simp only [Task.eval, Expr.eval, hcallee, hargs, hcall]
  | @notApplied _ _ _ _ _ _ v _ _ _ hother ih =>
    have hcallee := ih hfuel
    simp only [Task.eval] at hcallee
    cases v with
    | function origin module code captured => exact absurd rfl (hother origin module code captured)
    | _ => simp only [Task.eval, Expr.eval, hcallee]
  | decided _ hdecided ih =>
    have hleft := ih hfuel
    simp only [Task.eval] at hleft
    simp only [Task.eval, Expr.eval, hleft, hdecided, if_true]
  | undecided h₁ hdecided _ ih₁ ih₂ =>
    have hleft := ih₁ hfuel
    have hright := ih₂ (h₁.keeps.depth ▸ hfuel)
    simp only [Task.eval] at hleft hright
    simp only [Task.eval, Expr.eval, hleft, hdecided, hright, Bool.false_eq_true, if_false]
  | yes h₁ htest _ ih₁ ih₂ | branchYes h₁ htest _ ih₁ ih₂ =>
    have ht := ih₁ hfuel
    have hyes := ih₂ (h₁.keeps.depth ▸ hfuel)
    simp only [Task.eval] at ht hyes
    simp only [Task.eval, Expr.eval, Stmt.exec, ht, htest, hyes, if_true]
  | no h₁ htest _ ih₁ ih₂ | branchNo h₁ htest _ ih₁ ih₂ =>
    have ht := ih₁ hfuel
    have hno := ih₂ (h₁.keeps.depth ▸ hfuel)
    simp only [Task.eval] at ht hno
    simp only [Task.eval, Expr.eval, Stmt.exec, ht, htest, hno, Bool.false_eq_true, if_false]
  | assign h₁ _ ih₁ ih₂ =>
    have hvalue := ih₁ hfuel
    have hkeys := ih₂ (h₁.keeps.depth ▸ hfuel)
    simp only [Task.eval] at hvalue hkeys
    simp only [Task.eval, Stmt.exec, hvalue, hkeys]
  | block _ ih =>
    have hbody := ih ((depth_hoist _ _ _ _ _) ▸ hfuel)
    simp only [Task.eval] at hbody
    simp only [Task.eval, Stmt.exec, hbody]
  | moreStmts h₁ _ ih₁ ih₂ =>
    have hhead := exec_eq_of_eval_eq (ih₁ hfuel)
    have htail := ih₂ (h₁.keeps.depth ▸ hfuel)
    simp only [Task.eval] at htail
    simp only [Task.eval, execAll, hhead, htail]
  | leftStmts _ ih =>
    have hhead := exec_eq_of_eval_eq (ih hfuel)
    simp only [Task.eval, execAll, hhead]
  | cutOff hdeep =>
    simp only [Task.eval]
    exact callAt_cutOff hdeep
  | @entered _ _ _ _ _ _ m _ _ _ _ hfits _ ih =>
    rw [Machine.depth_deeper] at hfits
    obtain ⟨inner, rfl⟩ : ∃ inner, fuel = inner + 1 := ⟨fuel - 1, by omega⟩
    have hinner : maxDepth < inner + m.deeper.depth := by
      rw [Machine.depth_deeper]
      omega
    have hbody := exec_eq_of_eval_eq (ih hinner)
    simp only [Task.eval]
    exact callAt_entered hfits hbody

end Task

/-- The tasks that write no variables. -/
def Task.Reads : {α : Type} → Task α → Prop
  | _, .expr .. | _, .exprs .. | _, .fields .. | _, .call .. => True
  | _, .stmt .. | _, .stmts .. | _, .bindings .. => False

/-- A task that writes no variables leaves the machine as it is. -/
theorem Task.Ends.leaves {α : Type} {t : Task α} {n : Nat} {m m' : Machine} {a : α} {bodies : List Nat}
    (h : t.Ends n m a m' bodies) (ht : t.Reads) : m' = m := by
  have hcall := callAt_leaves (maxDepth + 1)
  have hfuel : maxDepth < (maxDepth + 1) + m.depth := by omega
  have heval := h.eval_eq hfuel
  cases t with
  | expr scope place e =>
    obtain ⟨_, hsame⟩ := e.eval_leaves hcall scope place m
    exact congrArg Prod.snd (heval.symm.trans hsame)
  | exprs scope place i es =>
    obtain ⟨_, hsame⟩ := evalAll_leaves hcall scope es place i m
    exact congrArg Prod.snd (heval.symm.trans hsame)
  | fields scope place i kes =>
    obtain ⟨_, hsame⟩ := evalFields_leaves hcall scope kes place i m
    exact congrArg Prod.snd (heval.symm.trans hsame)
  | call place module code captured args =>
    obtain ⟨_, hsame⟩ := hcall place module code captured args m
    exact congrArg Prod.snd (heval.symm.trans hsame)
  | stmt | stmts | bindings => exact ht.elim

/-! ## 5. Modules and calls from outside -/

/-- What a call does, inside of `n` bodies, is what `callFunction` gives. It restores the counter, runs
    bodies only as far as the counter allows, and none if the counter is already there. -/
theorem Task.Ends.of_call {place : Place} {module : Nat} {code : Function} {captured : Dict Value}
    {args : List Value} {n : Nat} {m m' : Machine} {v : Value} {bodies : List Nat}
    (h : (Task.call place module code captured args).Ends n m v m' bodies) :
    callFunction place module code captured args m = (v, m') ∧ m'.depth = m.depth ∧
      (∀ k ∈ bodies, n < k ∧ k + m.depth ≤ n + maxDepth) ∧
      (maxDepth ≤ m.depth → v = .undefined ∧ m' = m ∧ bodies = []) := by
  have hthere : maxDepth < (maxDepth + 1) + m.depth := by omega
  have hcall : callFunction place module code captured args m = (v, m') := h.eval_eq hthere
  obtain ⟨hdepth, hbound⟩ := h.keeps
  refine ⟨hcall, hdepth, hbound, fun hdeep => ?_⟩
  have hpast : maxDepth < m.deeper.depth := by
    rw [Machine.depth_deeper]
    omega
  have hcut : callFunction place module code captured args m = (.undefined, m.deeper.back) :=
    callAt_cutOff hpast
  obtain ⟨rfl, rfl⟩ := Prod.mk.inj (hcall.symm.trans hcut)
  refine ⟨rfl, rfl, List.eq_nil_iff_forall_not_mem.mpr fun k hk => ?_⟩
  have hk := hbound k hk
  omega

/-- **Scripts end.** The body of every module that can be read ends, with what `evaluateModule` gives, and
    so does every call of a function with any arguments, on any machine and inside of any number `n` of
    bodies. What is run keeps to the bound: no body in the module is nested deeper than `maxDepth`, none
    in a call deeper than `maxDepth` allows to those inside of which the call is made. Each call leaves
    the counter as it found it, and where the counter is at the bound it runs nothing and yields
    `undefined`. -/
theorem scripts_end {globals : List (Dict Value)} {name source : String} {body : List Stmt}
    (hread : Grammar.parseModule? source = some body) :
    (∃ flow frame m bodies,
      (Task.stmt (modulePlace globals.length) (.block body) ⟨[], globals.length, true⟩).Ends 0
        ⟨globals ++ [initialGlobals], 0⟩ (flow, frame) m bodies ∧
      evaluateModule globals name source =
        .ok ⟨m.globals, (frame.lookup m "exports").getD .undefined⟩ ∧
      m.depth = 0 ∧ ∀ k ∈ bodies, k ≤ maxDepth) ∧
    ∀ (place : Place) (module : Nat) (code : Function) (captured : Dict Value) (args : List Value)
      (n : Nat) (m : Machine),
      (∃ v m' bodies, (Task.call place module code captured args).Ends n m v m' bodies) ∧
      ∀ v m' bodies, (Task.call place module code captured args).Ends n m v m' bodies →
        callFunction place module code captured args m = (v, m') ∧ m'.depth = m.depth ∧
        (∀ k ∈ bodies, n < k ∧ k + m.depth ≤ n + maxDepth) ∧
        (maxDepth ≤ m.depth → v = .undefined ∧ m' = m ∧ bodies = []) := by
  refine ⟨?_, fun place module code captured args n m =>
    ⟨(Task.call place module code captured args).ends n m, fun v m' bodies h => h.of_call⟩⟩
  obtain ⟨⟨flow, frame⟩, m, bodies, h⟩ :=
    (Task.stmt (modulePlace globals.length) (.block body) ⟨[], globals.length, true⟩).ends 0
      ⟨globals ++ [initialGlobals], 0⟩
  obtain ⟨hdepth, hbound⟩ := h.keeps
  have hrun := Task.exec_eq_of_eval_eq (h.eval_eq (Nat.lt_succ_self maxDepth))
  refine ⟨flow, frame, m, bodies, h, ?_, hdepth, fun k hk => ?_⟩
  · simp only [evaluateModule, hread, runModule, callFunction, hrun]
  · simpa using (hbound k hk).2

/-- A module with a function that calls itself in any case. -/
def runaway : String := "function f(n) { return f(n); } exports.f = f;"

/-- Calls the function that a module exports as `f`; whether it is one and gives `undefined`. -/
def ModuleRun.callsNothing (run : ModuleRun) : Bool :=
  match run.exports.getPath [.name "f"] with
  | .function _ module code captured =>
    match callFunction (callPlace 0) module code captured [.null] ⟨run.globals, 0⟩ with
    | (.undefined, _) => true
    | _ => false
  | _ => false

/-- The function ends all the same, and gives nothing. -/
theorem runaway_ends :
    ∃ body run place module code captured bodies, Grammar.parseModule? runaway = some body ∧
      evaluateModule [] "runaway" runaway = .ok run ∧
      run.exports.getPath [.name "f"] = .function place module code captured ∧
      (Task.call (callPlace 0) module code captured [.null]).Ends 0 ⟨run.globals, 0⟩ .undefined
        ⟨run.globals, 0⟩ bodies ∧ ∀ k ∈ bodies, 0 < k ∧ k ≤ maxDepth := by
  have hnothing : (evaluateModule [] "runaway" runaway).toOption.any ModuleRun.callsNothing = true := by
    decide +kernel
  cases hread : Grammar.parseModule? runaway with
  | none =>
    rw [evaluateModule, hread] at hnothing
    cases hnothing
  | some body =>
    obtain ⟨⟨flow, frame, m, -, -, hrun, -⟩, hcalls⟩ := @scripts_end [] "runaway" runaway body hread
    rw [hrun] at hnothing
    simp only [Except.toOption, Option.any_some, ModuleRun.callsNothing] at hnothing
    split at hnothing
    · rename_i place module code captured hf
      obtain ⟨⟨v, m', bodies, h⟩, hall⟩ :=
        hcalls (callPlace 0) module code captured [.null] 0 ⟨m.globals, 0⟩
      obtain ⟨hcall, -, hbound, -⟩ := hall v m' bodies h
      obtain ⟨w, hleaves⟩ :=
        callAt_leaves (maxDepth + 1) (callPlace 0) module code captured [.null] ⟨m.globals, 0⟩
      obtain ⟨rfl, rfl⟩ := Prod.mk.inj (hcall.symm.trans hleaves)
      rw [hcall] at hnothing
      split at hnothing
      · rename_i heq
        cases heq
        exact ⟨body, _, place, module, code, captured, bodies, rfl, hrun, hf, h,
          fun k hk => by simpa using hbound k hk⟩
      · cases hnothing
    · cases hnothing

end Trellis
