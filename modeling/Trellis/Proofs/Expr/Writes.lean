import Trellis.Proofs.Expr.Ending

/-!
# What statements write

`Stmt.writes x`: a statement may write the variable `x` of the body in which it stands, by declaring it
or by assigning to it. Bodies of functions that are made in it have variables of their own. What no
statement of a body writes stays what it was at the start of the body: when the body has ended
(`Task.Ends.onward`), and wherever the run of the body is meanwhile (`Task.Meets.onward`).
-/

namespace Trellis

/-! ## 1. Variables that code writes -/

/-- Whether a body declares a function of that name. -/
def hoists (x : String) : List Stmt → Bool
  | [] => false
  | .function code :: rest => code.name == some x || hoists x rest
  | _ :: rest => hoists x rest

mutual

/-- Whether a statement may write the variable `x`; `exports` may stand for `module.exports`. -/
def Stmt.writes (x : String) : Stmt → Bool
  | .declare bindings => bindings.any fun b => b.1 == x
  | .assign root _ _ _ => root == x || root == "exports" && x == "module"
  | .branch _ yes no => yes.writes x || no.writes x
  | .block body => hoists x body || writesBody x body
  | .function _ | .leave _ | .run _ | .empty => false

/-- Whether one of the statements may write the variable. -/
def writesBody (x : String) : List Stmt → Bool
  | [] => false
  | s :: rest => s.writes x || writesBody x rest

end

/-! ## 2. Frames -/

theorem Dict.has_insert (d : Dict Value) (name : String) (v : Value) (x : String) :
    Dict.has (Dict.insert d name v) x = (name == x || Dict.has d x) := by
  rw [Dict.has, Dict.has]
  by_cases hx : name = x
  · rw [hx, Dict.get?_insert_self, beq_self_eq_true, Bool.true_or, Option.isSome_some]
  · rw [Dict.get?_insert_of_ne d v hx, beq_eq_false_iff_ne.mpr hx, Bool.false_or]

theorem has_bindParams (ps : List String) (vs : List Value) (d : Dict Value) (x : String) :
    Dict.has (bindParams ps vs d) x = (ps.contains x || Dict.has d x) := by
  induction ps generalizing vs d with
  | nil => rfl
  | cons p ps ih =>
    have hsame : (p == x) = (x == p) := Bool.beq_comm
    cases vs with
    | nil =>
      rw [bindParams, ih, Dict.has_insert, List.contains_cons, hsame, Bool.or_left_comm, Bool.or_assoc]
    | cons v vs =>
      rw [bindParams, ih, Dict.has_insert, List.contains_cons, hsame, Bool.or_left_comm, Bool.or_assoc]

/-- A call binds its parameters, also those without an argument. -/
theorem has_bindParams_of_mem {ps : List String} {x : String} (hx : x ∈ ps) (vs : List Value)
    (d : Dict Value) : Dict.has (bindParams ps vs d) x = true := by
  rw [has_bindParams, List.contains_eq_mem, decide_eq_true hx, Bool.true_or]

/-- A call leaves alone what is no parameter. -/
theorem get?_bindParams {ps : List String} {x : String} (hx : x ∉ ps) (vs : List Value) (d : Dict Value) :
    Dict.get? (bindParams ps vs d) x = Dict.get? d x := by
  induction ps generalizing vs d with
  | nil => rfl
  | cons p ps ih =>
    obtain ⟨hp, hps⟩ := not_or.mp (mt List.mem_cons.mpr hx)
    cases vs with
    | nil => rw [bindParams, ih hps, Dict.get?_insert_of_ne d _ (Ne.symm hp)]
    | cons v vs => rw [bindParams, ih hps, Dict.get?_insert_of_ne d _ (Ne.symm hp)]

@[simp] theorem Frame.module_write (f : Frame) (m : Machine) (name : String) (v : Value) :
    (f.write m name v).1.module = f.module := by
  rw [Frame.write]
  split <;> rfl

@[simp] theorem Frame.atTop_write (f : Frame) (m : Machine) (name : String) (v : Value) :
    (f.write m name v).1.atTop = f.atTop := by
  rw [Frame.write]
  split <;> rfl

@[simp] theorem Frame.module_store (f : Frame) (m : Machine) (root : String) (keys : List Key)
    (op : AssignOp) (v : Value) : (f.store m root keys op v).1.module = f.module := by
  rw [Frame.store]
  exact Frame.module_write _ _ _ _

@[simp] theorem Frame.atTop_store (f : Frame) (m : Machine) (root : String) (keys : List Key)
    (op : AssignOp) (v : Value) : (f.store m root keys op v).1.atTop = f.atTop := by
  rw [Frame.store]
  exact Frame.atTop_write _ _ _ _

/-- A name with a local variable stands for the value of that variable. -/
theorem Frame.lookup_of_has {f : Frame} {x : String} (hx : Dict.has f.locals x = true) (m : Machine) :
    f.lookup m x = some ((Dict.get? f.locals x).getD .undefined) := by
  obtain ⟨v, hv⟩ := Option.isSome_iff_exists.mp hx
  rw [Frame.lookup, hv]
  rfl

/-- A frame comes of another one: the variable `x` stays as it is unless it is `written`, and it is there
    if it was. -/
structure Frame.Onward (x : String) (written : Bool) (f f' : Frame) : Prop where
  module : f'.module = f.module
  atTop : f'.atTop = f.atTop
  keeps : written = false → Dict.get? f'.locals x = Dict.get? f.locals x
  has : Dict.has f.locals x = true → Dict.has f'.locals x = true

namespace Frame.Onward

variable {x : String} {w w' : Bool} {f f₁ f' : Frame} {m : Machine}

theorem refl (w : Bool) (f : Frame) : f.Onward x w f := ⟨rfl, rfl, fun _ => rfl, id⟩

theorem trans (h₁ : f.Onward x w f₁) (h₂ : f₁.Onward x w' f') : f.Onward x (w || w') f' where
  module := h₂.module.trans h₁.module
  atTop := h₂.atTop.trans h₁.atTop
  keeps h := by
    rw [Bool.or_eq_false_iff] at h
    exact (h₂.keeps h.2).trans (h₁.keeps h.1)
  has h := h₂.has (h₁.has h)

theorem widen (h : f.Onward x w f') (hw : w = true → w' = true) : f.Onward x w' f' where
  module := h.module
  atTop := h.atTop
  keeps hw' :=
    h.keeps (Bool.eq_false_iff.mpr fun hwritten => Bool.false_ne_true (hw'.symm.trans (hw hwritten)))
  has := h.has

/-- What a name stands for goes on with the frame. -/
theorem lookup_eq (h : f.Onward x false f') (m : Machine) : f'.lookup m x = f.lookup m x := by
  rw [Frame.lookup, Frame.lookup, h.keeps rfl, h.module]

theorem write (f : Frame) (m : Machine) (name : String) (v : Value) :
    f.Onward x (name == x) (f.write m name v).1 := by
  refine ⟨Frame.module_write .., Frame.atTop_write .., fun h => ?_, fun h => ?_⟩
  · rw [Frame.write]
    split
    · rfl
    · exact Dict.get?_insert_of_ne f.locals v (beq_eq_false_iff_ne.mp h)
  · rw [Frame.write]
    split
    · exact h
    · rw [Dict.has_insert, h, Bool.or_true]

theorem store (f : Frame) (m : Machine) (root : String) (keys : List Key) (op : AssignOp) (v : Value) :
    f.Onward x (root == x || root == "exports" && x == "module") (f.store m root keys op v).1 := by
  rw [Frame.store, Frame.target]
  by_cases hexports : root = "exports" ∧ f.declares m "exports" = false
  · rw [if_pos hexports]
    refine (Frame.Onward.write f m "module" _).widen fun h => ?_
    rw [hexports.1, ← beq_iff_eq.mp h]
    rfl
  · rw [if_neg hexports]
    exact (Frame.Onward.write f m root _).widen fun h => by rw [h, Bool.true_or]

theorem hoist (place : Place) (i : Nat) (body : List Stmt) (f : Frame) (m : Machine) :
    f.Onward x (hoists x body) (hoist place i body f m).1 := by
  induction body generalizing i f m with
  | nil => exact refl _ f
  | cons s rest ih =>
    cases s with
    | function code =>
      rw [Trellis.hoist]
      cases hname : code.name with
      | none =>
        refine (ih (i + 1) f m).widen fun h => ?_
        rw [hoists, h, Bool.or_true]
      | some name =>
        refine ((Frame.Onward.write f m name _).trans (ih (i + 1) _ _)).widen fun h => ?_
        rw [Bool.or_eq_true, beq_iff_eq] at h
        rw [hoists, hname, Bool.or_eq_true, beq_iff_eq]
        exact h.imp_left (congrArg some)
    | _ => exact ih (i + 1) f m

end Frame.Onward

/-! ## 3. Runs -/

/-- What comes of the frame of a task. -/
def Task.Onward (x : String) : {α : Type} → Task α → Frame → Prop
  | _, .stmt _ s f, f' => f.Onward x (s.writes x) f'
  | _, .stmts _ _ body f, f' => f.Onward x (writesBody x body) f'
  | _, .bindings _ _ bs f, f' => f.Onward x (bs.any fun b => b.1 == x) f'
  | _, .expr .., _ | _, .exprs .., _ | _, .fields .., _ | _, .call .., _ => True

/-- The frame with which a task ends, if it has one. -/
def Task.last : {α : Type} → Task α → α → Option Frame
  | _, .stmt .., r | _, .stmts .., r => some r.2
  | _, .bindings .., f => some f
  | _, .expr .., _ | _, .exprs .., _ | _, .fields .., _ | _, .call .., _ => none

section

variable {x : String} {α : Type} {t : Task α} {n : Nat} {m m' : Machine} {a : α} {bodies : List Nat}

/-- **What a task does not write is as it was when the task has ended.** -/
theorem Task.Ends.onward (h : t.Ends n m a m' bodies) : ∀ f' ∈ t.last a, t.Onward x f' := by
  induction h with
  | literal | name | array | object | function | member | index | applied | notApplied | unary | binary
  | decided | undecided | yes | no | noExpr | moreExprs | noField | moreFields | cutOff | entered =>
    exact fun f' h => nomatch h
  | declared | leave | run | empty | noStmt | noBinding =>
    rintro _ ⟨⟩
    exact .refl _ _
  | declare _ ih =>
    rintro _ ⟨⟩
    exact ih _ rfl
  | assign =>
    rintro _ ⟨⟩
    exact .store _ _ _ _ _ _
  | branchYes _ _ _ _ ih =>
    rintro _ ⟨⟩
    exact (ih _ rfl).widen fun h => by rw [Stmt.writes, h, Bool.true_or]
  | branchNo _ _ _ _ ih =>
    rintro _ ⟨⟩
    exact (ih _ rfl).widen fun h => by rw [Stmt.writes, h, Bool.or_true]
  | block _ ih =>
    rintro _ ⟨⟩
    exact (Frame.Onward.hoist _ _ _ _ _).trans (ih _ rfl)
  | moreStmts _ _ ih₁ ih₂ =>
    rintro _ ⟨⟩
    exact (ih₁ _ rfl).trans (ih₂ _ rfl)
  | leftStmts _ ih =>
    rintro _ ⟨⟩
    exact (ih _ rfl).widen fun h => by rw [writesBody, h, Bool.true_or]
  | moreBindings _ _ _ ih =>
    rintro _ ⟨⟩
    exact (Frame.Onward.write _ _ _ _).trans (ih _ rfl)

end

/-- **Where a run is.** `t.Meets n m f m'`: in the run of a body, the task `t`, inside of `n` function
    bodies and on the machine `m`, comes to a statement or to a declared variable with the frame `f` on
    the machine `m'`; what it evaluates there is evaluated in that frame. -/
inductive Task.Meets : {α : Type} → Task α → Nat → Machine → Frame → Machine → Prop
  | stmt {n place s f m} : Meets (.stmt place s f) n m f m
  | declare {n place bindings f m f' m'} (h : Meets (.bindings place 0 bindings f) n m f' m') :
    Meets (.stmt place (.declare bindings) f) n m f' m'
  | branchYes {n place test yes no f m t m₁ b f' m'}
      (htest : Ends (.expr (.frame f) (0 :: place) test) n m t m₁ b) (htruthy : t.isTruthy = true)
      (h : Meets (.stmt (1 :: place) yes f) n m₁ f' m') :
    Meets (.stmt place (.branch test yes no) f) n m f' m'
  | branchNo {n place test yes no f m t m₁ b f' m'}
      (htest : Ends (.expr (.frame f) (0 :: place) test) n m t m₁ b) (hfalsy : t.isTruthy = false)
      (h : Meets (.stmt (2 :: place) no f) n m₁ f' m') :
    Meets (.stmt place (.branch test yes no) f) n m f' m'
  | block {n place body f m f' m'}
      (h : Meets (.stmts (1 :: place) 0 body (hoist (0 :: place) 0 body f m).1) n
        (hoist (0 :: place) 0 body f m).2 f' m') :
    Meets (.stmt place (.block body) f) n m f' m'
  | head {n place i s rest f m f' m'} (h : Meets (.stmt (i :: place) s f) n m f' m') :
    Meets (.stmts place i (s :: rest) f) n m f' m'
  | tail {n place i s rest f m f₁ m₁ b f' m'} (hhead : Ends (.stmt (i :: place) s f) n m (.next, f₁) m₁ b)
      (h : Meets (.stmts place (i + 1) rest f₁) n m₁ f' m') :
    Meets (.stmts place i (s :: rest) f) n m f' m'
  | binding {n place i bindings f m} : Meets (.bindings place i bindings f) n m f m
  | moreBindings {n place i name e rest f m v m₁ b f' m'}
      (hhead : Ends (.expr (.frame f) (i :: place) e) n m v m₁ b)
      (h : Meets (.bindings place (i + 1) rest (f.write m₁ name v).1) n (f.write m₁ name v).2 f' m') :
    Meets (.bindings place i ((name, e) :: rest) f) n m f' m'

/-- **What a body does not write is as it was wherever its run is.** -/
theorem Task.Meets.onward {x : String} {α : Type} {t : Task α} {n : Nat} {m m' : Machine} {f' : Frame}
    (h : t.Meets n m f' m') : t.Onward x f' := by
  induction h with
  | stmt | binding => exact .refl _ _
  | declare _ ih => exact ih
  | branchYes _ _ _ ih => exact ih.widen fun h => by rw [Stmt.writes, h, Bool.true_or]
  | branchNo _ _ _ ih => exact ih.widen fun h => by rw [Stmt.writes, h, Bool.or_true]
  | block _ ih => exact (Frame.Onward.hoist _ _ _ _ _).trans ih
  | head _ ih => exact ih.widen fun h => by rw [writesBody, h, Bool.true_or]
  | tail hhead _ ih => exact (hhead.onward _ rfl).trans ih
  | moreBindings _ _ ih => exact (Frame.Onward.write _ _ _ _).trans ih

end Trellis
