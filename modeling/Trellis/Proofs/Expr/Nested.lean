import Trellis.Proofs.Expr.Exports

/-!
# Functions declared in functions

A body that declares variables, then functions, and then runs statements that assign none of these
names and declare no more functions (`Nest`). Each function can be declared as such, or as a variable
whose value is the function. Both ways it captures the variables of the body as they are when it is
made, but it is made at different times:
- a declared function at the start of the body, when the parameters and the functions declared before it
  are there,
- the value of a variable where it stands, when the declared variables are there as well.

So inside of the function a name that is there when it is made is the name of the body, and any other
one is what it is around the body, even where the body has a variable or a function of that name, itself
included (`Nest.sees`).
-/

namespace Trellis

/-! ## 1. Runs that go on -/

/-- The run of the body of a function, as a call starts it. -/
def Task.body (place : Place) (module : Nat) (code : Function) (captured : Dict Value)
    (args : List Value) : Task (Flow × Frame) :=
  .stmt place (.block code.body) ⟨bindParams code.params args captured, module, false⟩

/-- The run of a task goes on as that of another one: it ends with what that one ends with, and comes
    where that one comes. -/
structure Task.LeadsTo {α : Type} (t : Task α) (n : Nat) (m : Machine) (t' : Task α) (m' : Machine) :
    Prop where
  ends : ∀ a m'' bodies, t'.Ends n m' a m'' bodies → ∃ all, t.Ends n m a m'' all
  meets : ∀ f m'', t'.Meets n m' f m'' → t.Meets n m f m''

namespace Task.LeadsTo

section

variable {α : Type} {t t₁ t' : Task α} {n : Nat} {m m₁ m' : Machine}

theorem refl (t : Task α) (n : Nat) (m : Machine) : t.LeadsTo n m t m where
  ends _ _ bodies h := ⟨bodies, h⟩
  meets _ _ h := h

theorem trans (h₁ : t.LeadsTo n m t₁ m₁) (h₂ : t₁.LeadsTo n m₁ t' m') : t.LeadsTo n m t' m' where
  ends a m'' bodies h := by
    obtain ⟨bodies, h⟩ := h₂.ends a m'' bodies h
    exact h₁.ends a m'' bodies h
  meets f m'' h := h₁.meets f m'' (h₂.meets f m'' h)

end

variable {n : Nat} {m m₁ : Machine} {place : Place} {i : Nat} {f f₁ : Frame} {s : Stmt} {b : List Nat}

theorem tail (h : (Task.stmt (i :: place) s f).Ends n m (.next, f₁) m₁ b) (rest : List Stmt) :
    (Task.stmts place i (s :: rest) f).LeadsTo n m (.stmts place (i + 1) rest f₁) m₁ where
  ends _ _ _ hrest := ⟨_, .moreStmts h hrest⟩
  meets _ _ hrest := .tail h hrest

theorem block {body : List Stmt} (hhoist : hoist (0 :: place) 0 body f m = (f₁, m)) :
    (Task.stmt place (.block body) f).LeadsTo n m (.stmts (1 :: place) 0 body f₁) m where
  ends a m'' bodies h := by
    refine ⟨bodies, .block ?_⟩
    rw [hhoist]
    exact h
  meets f' m'' h := by
    refine .block ?_
    rw [hhoist]
    exact h

end Task.LeadsTo

/-! ## 2. Variables that a body declares -/

/-- The names that declarations declare. -/
def declaredNames (vars : List (List (String × Expr))) : List String := vars.flatten.map Prod.fst

theorem Frame.write_of_body {f : Frame} (hbody : f.atTop = false) (m : Machine) (name : String)
    (v : Value) : f.write m name v = ({ f with locals := Dict.insert f.locals name v }, m) := by
  rw [Frame.write, hbody, if_neg Bool.false_ne_true]

section

variable {f : Frame} (hbody : f.atTop = false) (place : Place) (i n : Nat) (m : Machine)

include hbody

/-- Declarations end, and what they declare is there. -/
theorem bindings_declare (bindings : List (String × Expr)) :
    ∃ f' m' b, (Task.bindings place i bindings f).Ends n m f' m' b ∧
      ∀ x ∈ bindings.map Prod.fst, Dict.has f'.locals x = true := by
  induction bindings generalizing i f m with
  | nil => exact ⟨f, m, [], .noBinding, nofun⟩
  | cons binding rest ih =>
    obtain ⟨name, e⟩ := binding
    obtain ⟨v, m₁, b₁, hhead⟩ := (Task.expr (.frame f) (i :: place) e).ends n m
    have hlocal : (f.write m₁ name v).1.atTop = false := (Frame.atTop_write f m₁ name v).trans hbody
    obtain ⟨f', m', b₂, htail, hhas⟩ := ih hlocal (i + 1) (f.write m₁ name v).2
    refine ⟨f', m', b₁ ++ b₂, .moreBindings hhead htail, fun x hx => ?_⟩
    rcases List.mem_cons.mp hx with rfl | hx
    · refine (htail.onward f' rfl).has ?_
      rw [Frame.write_of_body hbody, Dict.has_insert, beq_self_eq_true, Bool.true_or]
    · exact hhas x hx

/-- **Variable declarations lead to what follows them**, in a frame where what they declare is there and
    all else is as it was. -/
theorem vars_lead (vars : List (List (String × Expr))) (rest : List Stmt) :
    ∃ f' m',
      (Task.stmts place i (vars.map .declare ++ rest) f).LeadsTo n m
        (.stmts place (i + vars.length) rest f') m' ∧
      f'.module = f.module ∧ f'.atTop = false ∧
      (∀ x ∉ declaredNames vars, Dict.get? f'.locals x = Dict.get? f.locals x) ∧
      (∀ x, Dict.has f.locals x = true ∨ x ∈ declaredNames vars → Dict.has f'.locals x = true) := by
  induction vars generalizing i f m with
  | nil => exact ⟨f, m, .refl _ n m, rfl, hbody, fun _ _ => rfl, fun x h => h.resolve_right nofun⟩
  | cons bindings vars ih =>
    obtain ⟨f₁, m₁, b, hbindings, hdeclared⟩ := bindings_declare hbody (i :: place) 0 n m bindings
    have honward := fun x => (hbindings.onward (x := x) f₁ rfl : f.Onward x _ f₁)
    obtain ⟨f', m', hlead, hmodule, htop, hkeeps, hhas⟩ :=
      ih ((honward "").atTop.trans hbody) (i + 1) m₁
    refine ⟨f', m', ?_, hmodule.trans (honward "").module, htop, fun x hx => ?_, fun x hx => ?_⟩
    · rw [List.length_cons, ← Nat.succ_add_eq_add_succ]
      exact (Task.LeadsTo.tail (.declare hbindings) _).trans hlead
    · rw [declaredNames, List.flatten_cons, List.map_append, List.mem_append, not_or] at hx
      refine (hkeeps x hx.2).trans ((honward x).keeps ?_)
      refine Bool.eq_false_iff.mpr fun h => hx.1 ?_
      obtain ⟨binding, hbinding, hname⟩ := List.any_eq_true.mp h
      exact List.mem_map.mpr ⟨binding, hbinding, beq_iff_eq.mp hname⟩
    · rw [declaredNames, List.flatten_cons, List.map_append, List.mem_append] at hx
      rcases hx with hx | hx | hx
      · exact hhas x (.inl ((honward x).has hx))
      · exact hhas x (.inl (hdeclared x hx))
      · exact hhas x (.inr hx)

end

/-- Where no function is declared, none is made. -/
theorem hoist_none {body : List Stmt} (hnone : ∀ x, hoists x body = false) (place : Place) (i : Nat)
    (f : Frame) (m : Machine) : hoist place i body f m = (f, m) := by
  induction body generalizing i with
  | nil => rfl
  | cons s rest ih =>
    cases s with
    | function code =>
      have hrest : ∀ x, hoists x rest = false := fun x => (Bool.or_eq_false_iff.mp (hnone x)).2
      rw [hoist]
      cases hname : code.name with
      | none => exact ih hrest (i + 1)
      | some name =>
        have h := (Bool.or_eq_false_iff.mp (hnone name)).1
        rw [hname, beq_self_eq_true] at h
        cases h
    | _ => exact ih hnone (i + 1)

theorem hoist_vars (place : Place) (i : Nat) (vars : List (List (String × Expr))) (rest : List Stmt)
    (f : Frame) (m : Machine) :
    hoist place i (vars.map .declare ++ rest) f m = hoist place (i + vars.length) rest f m := by
  induction vars generalizing i with
  | nil => rfl
  | cons bindings vars ih =>
    rw [List.length_cons, ← Nat.succ_add_eq_add_succ]
    exact ih (i + 1)

/-! ## 3. Functions that a body makes -/

/-- A function that a body declares. -/
structure Local where
  name : String
  params : List String
  body : List Stmt

namespace Local

/-- The function as written: the value of a variable has no name of its own. -/
def code (g : Local) (asVariable : Bool) : Function :=
  .mk (if asVariable then none else some g.name) g.params g.body

/-- The statement that declares it. -/
def stmt (g : Local) (asVariable : Bool) : Stmt :=
  if asVariable then .declare [(g.name, .function (g.code true))] else .function (g.code false)

/-- Makes functions one after the other, each with what is there by then; the first one at position
    `i`. -/
def make (asVariable : Bool) (origin : Nat → Place) : Nat → List Local → Frame → Frame
  | _, [], f => f
  | i, g :: rest, f =>
    make asVariable origin (i + 1) rest
      { f with locals :=
          Dict.insert f.locals g.name (.function (origin i) f.module (g.code asVariable) f.locals) }

section

variable (v : Bool) (o : Nat → Place) (i : Nat)

@[simp] theorem module_make (gs : List Local) (f : Frame) : (make v o i gs f).module = f.module := by
  induction gs generalizing i f with
  | nil => rfl
  | cons g gs ih => exact ih ..

@[simp] theorem atTop_make (gs : List Local) (f : Frame) : (make v o i gs f).atTop = f.atTop := by
  induction gs generalizing i f with
  | nil => rfl
  | cons g gs ih => exact ih ..

theorem make_append (gs gs' : List Local) (f : Frame) :
    make v o i (gs ++ gs') f = make v o (i + gs.length) gs' (make v o i gs f) := by
  induction gs generalizing i f with
  | nil => rfl
  | cons g gs ih =>
    rw [List.cons_append, make, make, ih, List.length_cons, Nat.add_right_comm, Nat.add_assoc]

variable {x : String}

theorem get?_make_of_not_mem {gs : List Local} (hx : x ∉ gs.map name) (f : Frame) :
    Dict.get? (make v o i gs f).locals x = Dict.get? f.locals x := by
  induction gs generalizing i f with
  | nil => rfl
  | cons g gs ih =>
    obtain ⟨hg, hgs⟩ := not_or.mp (mt List.mem_cons.mpr hx)
    rw [make, ih _ hgs, Dict.get?_insert_of_ne f.locals _ (Ne.symm hg)]

theorem has_make {gs : List Local} (f : Frame) (hx : Dict.has f.locals x = true ∨ x ∈ gs.map name) :
    Dict.has (make v o i gs f).locals x = true := by
  induction gs generalizing i f with
  | nil => exact hx.resolve_right nofun
  | cons g gs ih =>
    refine ih (i + 1) _ ?_
    rw [Dict.has_insert, Bool.or_eq_true, beq_iff_eq]
    rcases hx with hx | hx
    · exact .inl (.inr hx)
    · exact (List.mem_cons.mp hx).imp_left fun h => .inl h.symm

/-- A function is there with what was there when it was made, if no later one has its name. -/
theorem get?_make_self {before after : List Local} {g : Local} (hg : g.name ∉ after.map name)
    (f : Frame) :
    Dict.get? (make v o i (before ++ g :: after) f).locals g.name =
      some (.function (o (i + before.length)) f.module (g.code v) (make v o i before f).locals) := by
  rw [make_append, make, get?_make_of_not_mem _ _ _ hg, Dict.get?_insert_self, module_make]

/-- What a function captures is what is there in the end, later functions apart. -/
theorem get?_make_before {before after : List Local} (hx : x ∉ after.map name) (f : Frame) :
    Dict.get? (make v o i before f).locals x = Dict.get? (make v o i (before ++ after) f).locals x := by
  rw [make_append, get?_make_of_not_mem _ _ _ hx]

end

section

variable (place : Place) (i n : Nat) (rest : List Stmt) (f : Frame) (m : Machine)

/-- Declared functions are made before the first statement runs. -/
theorem hoist_declared (gs : List Local) (hbody : f.atTop = false) :
    hoist place i (gs.map (stmt · false) ++ rest) f m =
      hoist place (i + gs.length) rest (make false (· :: place) i gs f) m := by
  induction gs generalizing i f with
  | nil => rfl
  | cons g gs ih =>
    rw [List.length_cons, ← Nat.succ_add_eq_add_succ]
    exact (congrArg (fun r : Frame × Machine =>
      hoist place (i + 1) (gs.map (stmt · false) ++ rest) r.1 r.2)
        (Frame.write_of_body hbody m g.name _)).trans (ih (i + 1) _ hbody)

/-- Functions that are values of variables are not. -/
theorem hoist_variables (gs : List Local) :
    hoist place i (gs.map (stmt · true) ++ rest) f m = hoist place (i + gs.length) rest f m := by
  have hvars := hoist_vars place i (gs.map fun g => [(g.name, .function (g.code true))]) rest f m
  rw [List.map_map, List.length_map] at hvars
  exact hvars

/-- The statements that declare them do nothing by then. -/
theorem declared_lead (gs : List Local) :
    (Task.stmts place i (gs.map (stmt · false) ++ rest) f).LeadsTo n m
      (.stmts place (i + gs.length) rest f) m := by
  induction gs generalizing i with
  | nil => exact .refl _ n m
  | cons g gs ih =>
    rw [List.length_cons, ← Nat.succ_add_eq_add_succ]
    exact (Task.LeadsTo.tail .declared _).trans (ih (i + 1))

/-- Functions that are values of variables are made where they stand. -/
theorem variables_lead (gs : List Local) (hbody : f.atTop = false) :
    (Task.stmts place i (gs.map (stmt · true) ++ rest) f).LeadsTo n m
      (.stmts place (i + gs.length) rest (make true (0 :: · :: place) i gs f)) m := by
  induction gs generalizing i f with
  | nil => exact .refl _ n m
  | cons g gs ih =>
    rw [List.length_cons, ← Nat.succ_add_eq_add_succ]
    have hdeclare : (Task.stmt (i :: place) (g.stmt true) f).Ends n m (.next, _) _ _ :=
      .declare (.moreBindings .function .noBinding)
    rw [Frame.write_of_body hbody] at hdeclare
    exact (Task.LeadsTo.tail hdeclare _).trans (ih (i + 1) _ hbody)

end

end Local

/-! ## 4. What a function sees of what is around it -/

/-- **Where a name means what is around a function.** `code.Encloses x module captured f m`: the frame `f`
    comes up on the machine `m` in a call of the function, or in a call of a function that has captured
    `x` there, and so on; none of these functions has an `x` of its own. -/
inductive Function.Encloses (x : String) (module : Nat) :
    Function → Dict Value → Frame → Machine → Prop
  | call {code captured place args n m₁ f m} (hparams : x ∉ code.params)
      (hwrites : (Stmt.block code.body).writes x = false)
      (h : (Task.body place module code captured args).Meets n m₁ f m) :
    Encloses x module code captured f m
  | inner {code captured f m made captured' f' m'} (h : Encloses x module code captured f m)
      (hsame : Dict.get? captured' x = Dict.get? f.locals x)
      (h' : Encloses x module made captured' f' m') :
    Encloses x module code captured f' m'

namespace Function.Encloses

variable {x : String} {module : Nat} {code : Function} {captured : Dict Value} {f : Frame} {m : Machine}

theorem start (hparams : x ∉ code.params) (hwrites : (Stmt.block code.body).writes x = false)
    (args : List Value) (m : Machine) :
    code.Encloses x module captured ⟨bindParams code.params args captured, module, false⟩ m :=
  @call x module code captured [] args 0 m _ m hparams hwrites .stmt

theorem module_eq (h : code.Encloses x module captured f m) : f.module = module := by
  induction h with
  | call _ _ h => exact (h.onward (x := x) : Frame.Onward x _ _ _).module
  | inner _ _ _ _ ih' => exact ih'

theorem get?_eq (h : code.Encloses x module captured f m) :
    Dict.get? f.locals x = Dict.get? captured x := by
  induction h with
  | call hparams hwrites h =>
    exact ((h.onward (x := x) : Frame.Onward x _ _ _).keeps hwrites).trans (get?_bindParams hparams _ _)
  | inner _ hsame _ ih ih' => exact ih'.trans (hsame.trans ih)

/-- What the function has captured decides. -/
theorem lookup_eq {d : Dict Value} (h : code.Encloses x module captured f m)
    (hd : Dict.get? captured x = Dict.get? d x) :
    f.lookup m x = (Frame.mk d module false).lookup m x := by
  rw [Frame.lookup, Frame.lookup, h.get?_eq, h.module_eq, hd]

end Function.Encloses

/-! ## 5. Bodies that declare functions -/

/-- A function whose body declares variables, then functions, and then runs statements that declare no
    more functions. No name is a parameter, a variable and a function at once, no two functions have the
    same name, and the statements write none of the names. -/
structure Nest where
  name : Option String
  params : List String
  vars : List (List (String × Expr))
  functions : List Local
  rest : List Stmt
  params_apart : ∀ x ∈ params, x ∉ declaredNames vars
  functions_apart : ∀ x ∈ functions.map Local.name, x ∉ params ++ declaredNames vars
  functions_nodup : (functions.map Local.name).Nodup
  rest_hoists : ∀ x, hoists x rest = false
  rest_writes : ∀ x ∈ params ++ declaredNames vars ++ functions.map Local.name,
    writesBody x rest = false

namespace Nest

/-- The names that are bound in the body. -/
def names (s : Nest) : List String :=
  s.params ++ declaredNames s.vars ++ s.functions.map Local.name

/-- The names that are there when a function is made, those functions coming `before` it. -/
def namesBefore (s : Nest) (asVariable : Bool) (before : List Local) : List String :=
  s.params ++ (if asVariable then declaredNames s.vars else []) ++ before.map Local.name

/-- The statements of the body, the functions declared in one of two ways. -/
def body (s : Nest) (asVariable : Bool) : List Stmt :=
  s.vars.map .declare ++ (s.functions.map (Local.stmt · asVariable) ++ s.rest)

/-- The function as written. -/
def code (s : Nest) (asVariable : Bool) : Function := .mk s.name s.params (s.body asVariable)

/-- The run of the statements behind the declarations. -/
def restFrom (s : Nest) (place : Place) (f : Frame) : Task (Flow × Frame) :=
  .stmts (1 :: place) (s.vars.length + s.functions.length) s.rest f

/-- The frame `f` is what the declarations make of the frame `start`: what they declare is there, and each
    function has captured what was there before it. -/
structure Declared (s : Nest) (asVariable : Bool) (start f : Frame) : Prop where
  module : f.module = start.module
  has : ∀ x ∈ s.names, Dict.has f.locals x = true
  params : ∀ x ∈ s.params, Dict.get? f.locals x = Dict.get? start.locals x
  functions : ∀ before g after, s.functions = before ++ g :: after → ∃ origin captured,
    Dict.get? f.locals g.name = some (.function origin start.module (g.code asVariable) captured) ∧
    ∀ x, Dict.get? captured x =
      if x ∈ s.namesBefore asVariable before then Dict.get? f.locals x else Dict.get? start.locals x

section

variable (s : Nest) {before after : List Local} {g : Local}

theorem param_not_mem {x : String} (hx : x ∈ s.params) : x ∉ s.functions.map Local.name :=
  fun h => s.functions_apart x h (List.mem_append_left _ hx)

theorem name_not_mem (h : s.functions = before ++ g :: after) :
    g.name ∉ after.map Local.name ∧ g.name ∉ declaredNames s.vars := by
  have hnodup := s.functions_nodup
  rw [h, List.map_append, List.map_cons] at hnodup
  have hg : g.name ∈ s.functions.map Local.name := by
    rw [h, List.map_append, List.map_cons]
    exact List.mem_append_right _ List.mem_cons_self
  exact ⟨(List.nodup_cons.mp (List.nodup_append.mp hnodup).2.1).1, fun hd =>
    s.functions_apart g.name hg (List.mem_append_right _ hd)⟩

/-- What is there when a function is made has not the name of that function or of a later one. -/
theorem not_mem_of_namesBefore {v : Bool} (h : s.functions = before ++ g :: after) {x : String}
    (hx : x ∈ s.namesBefore v before) : x ∉ (g :: after).map Local.name := by
  intro hlater
  have hnodup := s.functions_nodup
  rw [h, List.map_append] at hnodup
  rw [namesBefore, List.mem_append] at hx
  rcases hx with hx | hx
  · refine s.functions_apart x ?_ ?_
    · rw [h, List.map_append]
      exact List.mem_append_right _ hlater
    · rw [List.mem_append] at hx ⊢
      refine hx.imp_right fun hx => ?_
      cases v with
      | false => cases hx
      | true => exact hx
  · exact (List.nodup_append.mp hnodup).2.2 x hx x hlater rfl

/-- A declared variable is not there yet when a declared function is made. -/
theorem not_mem_declaredNames (h : s.functions = before ++ g :: after) {x : String}
    (hx : x ∈ s.namesBefore false before) : x ∉ declaredNames s.vars := by
  intro hvar
  rw [namesBefore, if_neg Bool.false_ne_true, List.append_nil, List.mem_append] at hx
  rcases hx with hx | hx
  · exact s.params_apart x hx hvar
  · refine s.functions_apart x ?_ (List.mem_append_right _ hvar)
    rw [h, List.map_append]
    exact List.mem_append_left _ hx

variable (place : Place) (module : Nat) (captured : Dict Value) (args : List Value) (n : Nat)
  (m : Machine)

/-- Functions declared as such: they are made first, and then the variables are declared. -/
theorem leads_declared :
    ∃ f₁ m₁, (Task.body place module (s.code false) captured args).LeadsTo n m (s.restFrom place f₁) m₁ ∧
      s.Declared false ⟨bindParams s.params args captured, module, false⟩ f₁ := by
  set start : Frame := ⟨bindParams s.params args captured, module, false⟩
  set made := Local.make false (· :: 0 :: place) s.vars.length s.functions start with hmade
  have hbody : made.atTop = false := Local.atTop_make ..
  have hhoist : hoist (0 :: place) 0 (s.body false) start m = (made, m) := by
    rw [body, hoist_vars, Local.hoist_declared _ _ _ _ _ _ rfl, hoist_none s.rest_hoists, Nat.zero_add]
  obtain ⟨f₁, m₁, hvars, hmodule, -, hkeeps, hhas⟩ := vars_lead hbody (1 :: place) 0 n m s.vars
    (s.functions.map (Local.stmt · false) ++ s.rest)
  rw [Nat.zero_add] at hvars
  refine ⟨f₁, m₁, ?_, hmodule.trans (Local.module_make ..), fun x hx => ?_, fun x hx => ?_,
    fun before g after h => ?_⟩
  · exact (Task.LeadsTo.block hhoist).trans (hvars.trans (Local.declared_lead _ _ _ _ _ _ _))
  · rw [names, List.mem_append, List.mem_append, or_right_comm] at hx
    exact hhas x (hx.imp_left fun hx =>
      Local.has_make _ _ _ _ (hx.imp_left fun hx => has_bindParams_of_mem hx args captured))
  · rw [hkeeps x (s.params_apart x hx)]
    exact Local.get?_make_of_not_mem _ _ _ (s.param_not_mem hx) start
  · obtain ⟨hlast, hvar⟩ := s.name_not_mem h
    refine ⟨(s.vars.length + before.length) :: 0 :: place,
      (Local.make false (· :: 0 :: place) s.vars.length before start).locals, ?_, fun x => ?_⟩
    · rw [hkeeps _ hvar, hmade, h]
      exact Local.get?_make_self _ _ _ hlast start
    · split
      · rename_i hx
        rw [hkeeps x (s.not_mem_declaredNames h hx), hmade, h]
        exact Local.get?_make_before _ _ _ (s.not_mem_of_namesBefore h hx) start
      · rename_i hx
        exact Local.get?_make_of_not_mem _ _ _ (fun hb => hx (List.mem_append_right _ hb)) start

/-- Functions that are values of variables: the other variables are declared first. -/
theorem leads_variables :
    ∃ f₁ m₁, (Task.body place module (s.code true) captured args).LeadsTo n m (s.restFrom place f₁) m₁ ∧
      s.Declared true ⟨bindParams s.params args captured, module, false⟩ f₁ := by
  set start : Frame := ⟨bindParams s.params args captured, module, false⟩
  have hhoist : hoist (0 :: place) 0 (s.body true) start m = (start, m) := by
    rw [body, hoist_vars, Local.hoist_variables, hoist_none s.rest_hoists]
  obtain ⟨f₁, m₁, hvars, hmodule, hbody, hkeeps, hhas⟩ := @vars_lead start rfl (1 :: place) 0 n m s.vars
    (s.functions.map (Local.stmt · true) ++ s.rest)
  rw [Nat.zero_add] at hvars
  refine ⟨Local.make true (0 :: · :: 1 :: place) s.vars.length s.functions f₁, m₁, ?_,
    (Local.module_make ..).trans hmodule, fun x hx => ?_, fun x hx => ?_, fun before g after h => ?_⟩
  · exact (Task.LeadsTo.block hhoist).trans (hvars.trans (Local.variables_lead _ _ _ _ _ _ _ hbody))
  · rw [names, List.mem_append, List.mem_append] at hx
    exact Local.has_make _ _ _ _ (hx.imp_left fun hx =>
      hhas x (hx.imp_left fun hx => has_bindParams_of_mem hx args captured))
  · rw [Local.get?_make_of_not_mem _ _ _ (s.param_not_mem hx)]
    exact hkeeps x (s.params_apart x hx)
  · obtain ⟨hlast, -⟩ := s.name_not_mem h
    refine ⟨0 :: (s.vars.length + before.length) :: 1 :: place,
      (Local.make true (0 :: · :: 1 :: place) s.vars.length before f₁).locals, ?_, fun x => ?_⟩
    · rw [h, ← hmodule]
      exact Local.get?_make_self _ _ _ hlast f₁
    · split
      · rename_i hx
        rw [h]
        exact Local.get?_make_before _ _ _ (s.not_mem_of_namesBefore h hx) f₁
      · rename_i hx
        rw [namesBefore, List.mem_append, List.mem_append, not_or, not_or] at hx
        exact (Local.get?_make_of_not_mem _ _ _ hx.2 f₁).trans (hkeeps x hx.1.2)

theorem leads (v : Bool) :
    ∃ f₁ m₁, (Task.body place module (s.code v) captured args).LeadsTo n m (s.restFrom place f₁) m₁ ∧
      s.Declared v ⟨bindParams s.params args captured, module, false⟩ f₁ := by
  cases v with
  | false => exact s.leads_declared place module captured args n m
  | true => exact s.leads_variables place module captured args n m

/-- What is there when a function is made is there in the end. -/
theorem mem_names_of_namesBefore {v : Bool} (h : s.functions = before ++ g :: after) {x : String}
    (hx : x ∈ s.namesBefore v before) : x ∈ s.names := by
  rw [namesBefore, List.mem_append, List.mem_append] at hx
  rw [names, List.mem_append, List.mem_append, h, List.map_append]
  refine hx.imp (Or.imp_right fun hx => ?_) (List.mem_append_left _)
  cases v with
  | false => cases hx
  | true => exact hx

end

/-- **Functions that a body declares see what is bound when they are made.** In any call of a function
    with such a body, each parameter, declared variable and declared function stands for one value as long
    as the statements behind the declarations run. A function `g` that the body declares holds on to those
    of them that are bound before it: whenever it is called, and in functions made in it, such a name
    stands for its value in the body, unless something in between has the same name. All other names stand
    for what they stand for around the body, those of variables and later functions of the body among
    them. Bound before a declared function are the parameters and the functions declared before it; bound
    before a function that is the value of a variable are also the variables declared before it. -/
theorem sees (s : Nest) (asVariable : Bool) (place : Place) (module : Nat) (captured : Dict Value)
    (args : List Value) (n : Nat) (m : Machine) :
    ∃ f₁ m₁, ∃ value : String → Value,
      (Task.body place module (s.code asVariable) captured args).LeadsTo n m (s.restFrom place f₁) m₁ ∧
      (∀ x ∈ s.names, ∀ f m', (s.restFrom place f₁).Meets n m₁ f m' → f.lookup m' x = some (value x)) ∧
      (∀ x ∈ s.params, Dict.get? (bindParams s.params args captured) x = some (value x)) ∧
      ∀ before g after, s.functions = before ++ g :: after → ∃ origin held,
        value g.name = .function origin module (g.code asVariable) held ∧
        ∀ x f m', (g.code asVariable).Encloses x module held f m' →
          f.lookup m' x =
            if x ∈ s.namesBefore asVariable before then some (value x)
            else (Frame.mk captured module false).lookup m' x := by
  obtain ⟨f₁, m₁, hlead, hdeclared⟩ := s.leads place module captured args n m asVariable
  refine ⟨f₁, m₁, fun x => (Dict.get? f₁.locals x).getD .undefined, hlead, fun x hx f m' h => ?_,
    fun x hx => ?_, fun before g after hg => ?_⟩
  · have honward : f₁.Onward x (writesBody x s.rest) f := h.onward
    rw [s.rest_writes x hx] at honward
    rw [honward.lookup_eq, Frame.lookup_of_has (hdeclared.has x hx)]
  · obtain ⟨v, hv⟩ := Option.isSome_iff_exists.mp (has_bindParams_of_mem hx args captured)
    have hthere : Dict.get? f₁.locals x = some v := (hdeclared.params x hx).trans hv
    exact hv.trans (congrArg (fun o => some (o.getD .undefined)) hthere).symm
  · obtain ⟨origin, held, hvalue, hheld⟩ := hdeclared.functions before g after hg
    refine ⟨origin, held, congrArg (Option.getD · .undefined) hvalue, fun x f m' h => ?_⟩
    have hheld := hheld x
    split
    · rename_i hx
      rw [if_pos hx] at hheld
      have hhas := hdeclared.has x (s.mem_names_of_namesBefore hg hx)
      rw [h.lookup_eq hheld]
      exact Frame.lookup_of_has (f := ⟨f₁.locals, module, false⟩) hhas m'
    · rename_i hx
      rw [if_neg hx] at hheld
      have hparam : x ∉ s.params := fun hp =>
        hx (List.mem_append_left _ (List.mem_append_left _ hp))
      exact h.lookup_eq (hheld.trans (get?_bindParams hparam args captured))

/-- A function whose body declares a variable and a function that returns it. -/
def doubling : Nest where
  name := some "f"
  params := ["x"]
  vars := [[("y", .binary .add (.name "x") (.name "x"))]]
  functions := [⟨"g", [], [.leave (.name "y")]⟩]
  rest := [.leave (.call (.name "g") [])]
  params_apart := by decide
  functions_apart := by decide
  functions_nodup := by decide
  rest_hoists _ := rfl
  rest_writes := by decide

/-- A module that exports it. -/
def doublingSource : String :=
  "function f(x) { var y = x + x; function g() { return y; } return g(); } exports.f = f;"

theorem parse_doubling :
    Grammar.parseModule? doublingSource = some [.function (doubling.code false),
      .assign "exports" [.literal (.string "f")] .set (.name "f")] := by
  decide +kernel

/-- When `f` is called, the variable is there in its body, and not in the function that it declares. -/
theorem doubling_sees :
    Grammar.parseModule? doublingSource = some [.function (doubling.code false),
      .assign "exports" [.literal (.string "f")] .set (.name "f")] ∧
    ∃ f₁ m₁ v origin held,
      (Task.body (callPlace 0) 0 (doubling.code false) [] [.string "hey"]).LeadsTo 0
        ⟨[initialGlobals], 0⟩ (doubling.restFrom (callPlace 0) f₁) m₁ ∧
      f₁.lookup m₁ "x" = some (.string "hey") ∧
      f₁.lookup m₁ "y" = some v ∧
      f₁.lookup m₁ "g" = some (.function origin 0 (.mk (some "g") [] [.leave (.name "y")]) held) ∧
      (Frame.mk held 0 false).lookup ⟨[initialGlobals], 0⟩ "x" = some (.string "hey") ∧
      (Frame.mk held 0 false).lookup ⟨[initialGlobals], 0⟩ "y" = none := by
  obtain ⟨f₁, m₁, value, hlead, hbody, hparams, hfunctions⟩ :=
    doubling.sees false (callPlace 0) 0 [] [.string "hey"] 0 ⟨[initialGlobals], 0⟩
  obtain ⟨origin, held, hg, hcalls⟩ := hfunctions [] _ [] rfl
  have hmeets : (doubling.restFrom (callPlace 0) f₁).Meets 0 m₁ f₁ m₁ := .head .stmt
  have hx : some (Value.string "hey") = some (value "x") := hparams "x" (by decide)
  refine ⟨parse_doubling, f₁, m₁, value "y", origin, held, hlead, ?_,
    hbody "y" (by decide) f₁ m₁ hmeets, ?_, ?_, ?_⟩
  · rw [hbody "x" (by decide) f₁ m₁ hmeets, hx]
  · rw [hbody "g" (by decide) f₁ m₁ hmeets, hg]
    rfl
  · rw [hcalls "x" ⟨held, 0, false⟩ ⟨[initialGlobals], 0⟩ (.start (by decide) (by decide) [] _),
      if_pos (by decide), hx]
  · rw [hcalls "y" ⟨held, 0, false⟩ ⟨[initialGlobals], 0⟩ (.start (by decide) (by decide) [] _),
      if_neg (by decide)]
    rfl

-- as the value of a variable the same function finds the variable
example :
    textOfF "function f(x) { var y = x + x; function g() { return y; } return g(); } exports.f = f;" =
        some [none] ∧
      textOfF
          "function f(x) { var y = x + x; var g = function () { return y; }; return g(); } exports.f = f;" =
        some [some "xx"] := by
  decide +kernel

end Nest

end Trellis
