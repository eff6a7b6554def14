import Trellis.Proofs.Expr.Revise
import Trellis.Proofs.Value.Relocate

/-!
# Runs that take place elsewhere

A run at a place makes functions at places that begin with it, outwards. When a map of places keeps
places apart and goes along with this growth (`GrowsFrom`), then a run that starts with what it
makes of values, globals and the place ends with what it makes of the result: `eval_relocate` for
expressions, `exec_relocate` for statements and `callAt_relocate` for calls. A `Relocation` goes along
with every run.
-/

namespace Trellis

open Value

/-! ## 1. Places -/

/-- A map of places goes along with a run that starts at a place. -/
def GrowsFrom (f : Place → Place) (p : Place) : Prop := ∀ i q, p <:+ q → f (i :: q) = i :: f q

namespace GrowsFrom

variable {f : Place → Place} {p : Place}

theorem step (h : GrowsFrom f p) (i : Nat) : f (i :: p) = i :: f p := h i p (List.suffix_refl p)

theorem cons (h : GrowsFrom f p) (i : Nat) : GrowsFrom f (i :: p) := fun j q hq =>
  h j q ((List.suffix_cons i p).trans hq)

end GrowsFrom

/-- A map of places that keeps them apart and goes along with runs, the places of which have two
    positions at least. -/
structure Relocation (f : Place → Place) : Prop where
  apart : ∀ p q, f p = f q → p = q
  cons : ∀ i p, 2 ≤ p.length → f (i :: p) = i :: f p

theorem Relocation.growsFrom {f : Place → Place} (hf : Relocation f) {p : Place}
    (hp : 2 ≤ p.length) : GrowsFrom f p := fun i q hq => hf.cons i q (Nat.le_trans hp hq.length_le)

theorem two_le_cons {p : Place} (hp : 2 ≤ p.length) (i : Nat) : 2 ≤ (i :: p).length := by
  rw [List.length_cons]
  omega

/-! ## 2. States -/

/-- A machine with functions made elsewhere. -/
def Machine.relocate (f : Place → Place) (m : Machine) : Machine :=
  { m with globals := m.globals.map (relocateFields f) }

/-- The names of a page with functions made elsewhere. -/
def Layers.relocate (f : Place → Place) (l : Layers) : Layers :=
  ⟨relocateFields f l.bindings, relocateFields f l.data, relocateFields f l.exports⟩

/-- A frame with functions made elsewhere. -/
def Frame.relocate (f : Place → Place) (r : Frame) : Frame :=
  { r with locals := relocateFields f r.locals }

/-- A scope with functions made elsewhere. -/
def Scope.relocate (f : Place → Place) : Scope → Scope
  | .page layers => .page (layers.relocate f)
  | .frame r => .frame (r.relocate f)

/-- An end with functions made elsewhere. -/
def Flow.relocate (f : Place → Place) : Flow → Flow
  | .next => .next
  | .left v => .left (v.relocate f)

section

variable {f : Place → Place}

/-! A relocation is a revision of states, too. -/

theorem machine_relocate_eq : Machine.relocate f = Machine.revise (.places f) := by
  funext m
  rw [Machine.relocate, Machine.revise, relocateFields_eq]

theorem layers_relocate_eq : Layers.relocate f = Layers.revise (.places f) := by
  funext l
  rw [Layers.relocate, Layers.revise, relocateFields_eq]

theorem frame_relocate_eq : Frame.relocate f = Frame.revise (.places f) := by
  funext r
  rw [Frame.relocate, Frame.revise, relocateFields_eq]

theorem layers_lookup_relocate (l : Layers) (name : String) :
    (l.relocate f).lookup name = (l.lookup name).map (Value.relocate f) := by
  rw [layers_relocate_eq, layers_lookup_revise, relocate_eq]

theorem frame_lookup_relocate (r : Frame) (m : Machine) (name : String) :
    (r.relocate f).lookup (m.relocate f) name = (r.lookup m name).map (Value.relocate f) := by
  rw [frame_relocate_eq, machine_relocate_eq, frame_lookup_revise, relocate_eq]

theorem lookup_relocate (s : Scope) (m : Machine) (name : String) :
    (s.relocate f).lookup (m.relocate f) name = (s.lookup m name).map (Value.relocate f) := by
  cases s with
  | page layers => exact layers_lookup_relocate layers name
  | frame r => exact frame_lookup_relocate r m name

theorem function_relocate (s : Scope) (place : Place) (code : Function) :
    (s.relocate f).function (f place) code = (s.function place code).relocate f := by
  cases s with
  | page layers => rfl
  | frame r => rfl

/-! ## 3. Expressions -/

/-- A caller that goes along with a map of places. -/
def Caller.Along (call : Caller) (f : Place → Place) : Prop :=
  ∀ (place : Place) (module : Nat) (code : Function) (captured : Dict Value) (args : List Value)
    (m : Machine), GrowsFrom f place →
    call (f place) module code (relocateFields f captured) (args.map (Value.relocate f)) (m.relocate f) =
      Prod.map (Value.relocate f) (Machine.relocate f) (call place module code captured args m)

variable {call : Caller}

mutual

/-- **The value of an expression elsewhere**: its value, with functions made there. -/
theorem eval_relocate (hf : ∀ p q, f p = f q → p = q) (hcall : call.Along f) (s : Scope) :
    ∀ (e : Expr) (place : Place) (m : Machine), GrowsFrom f place →
    Expr.eval call (s.relocate f) (f place) e (m.relocate f) =
      Prod.map (Value.relocate f) (Machine.relocate f) (Expr.eval call s place e m)
  | .literal l, place, m, hp => by
    cases l <;> rfl
  | .name x, place, m, hp => by
    rw [Expr.eval, Expr.eval, lookup_relocate]
    cases s.lookup m x <;> rfl
  | .array items, place, m, hp => by
    rw [Expr.eval, Expr.eval, evalAll_relocate hf hcall s items place 0 m hp]
    rcases evalAll call s place 0 items m with ⟨vs, m'⟩
    exact congrArg (·, m'.relocate f) (relocate_array f vs).symm
  | .object fields, place, m, hp => by
    rw [Expr.eval, Expr.eval, evalFields_relocate hf hcall s fields place 0 m hp]
    rcases evalFields call s place 0 fields m with ⟨kvs, m'⟩
    refine congrArg (·, m'.relocate f) ?_
    rw [relocate, ← ofPairs_relocate]
  | .function code, place, m, hp => by
    rw [Expr.eval, Expr.eval, function_relocate]
    rfl
  | .member base field, place, m, hp => by
    rw [Expr.eval, Expr.eval, ← hp.step 0,
      eval_relocate hf hcall s base (0 :: place) m (hp.cons 0)]
    rcases Expr.eval call s (0 :: place) base m with ⟨v, m'⟩
    exact congrArg (·, m'.relocate f) (step_relocate v _)
  | .index base key, place, m, hp => by
    rw [Expr.eval, Expr.eval, ← hp.step 0, ← hp.step 1,
      eval_relocate hf hcall s base (0 :: place) m (hp.cons 0)]
    rcases Expr.eval call s (0 :: place) base m with ⟨v, m'⟩
    dsimp only [Prod.map]
    rw [eval_relocate hf hcall s key (1 :: place) m' (hp.cons 1)]
    rcases Expr.eval call s (1 :: place) key m' with ⟨k, m''⟩
    refine congrArg (·, m''.relocate f) ?_
    dsimp only [Prod.map]
    rw [ofValue_relocate, step_relocate]
  | .call callee args, place, m, hp => by
    rw [Expr.eval, Expr.eval, ← hp.step 0, ← hp.step 1, ← hp.step 2,
      eval_relocate hf hcall s callee (0 :: place) m (hp.cons 0)]
    rcases Expr.eval call s (0 :: place) callee m with ⟨v, m'⟩
    cases v with
    | function origin module code captured =>
      dsimp only [Prod.map]
      rw [relocate]
      dsimp only
      rw [evalAll_relocate hf hcall s args (1 :: place) 0 m' (hp.cons 1)]
      rcases evalAll call s (1 :: place) 0 args m' with ⟨vs, m''⟩
      exact hcall (2 :: place) module code captured vs m'' (hp.cons 2)
    | _ => rfl
  | .unary op operand, place, m, hp => by
    rw [Expr.eval, Expr.eval, ← hp.step 0,
      eval_relocate hf hcall s operand (0 :: place) m (hp.cons 0)]
    rcases Expr.eval call s (0 :: place) operand m with ⟨v, m'⟩
    exact congrArg (·, m'.relocate f) (unary_relocate op v)
  | .binary op left right, place, m, hp => by
    rw [Expr.eval, Expr.eval, ← hp.step 0, ← hp.step 1,
      eval_relocate hf hcall s left (0 :: place) m (hp.cons 0)]
    rcases Expr.eval call s (0 :: place) left m with ⟨a, m'⟩
    dsimp only [Prod.map]
    rw [eval_relocate hf hcall s right (1 :: place) m' (hp.cons 1)]
    rcases Expr.eval call s (1 :: place) right m' with ⟨b, m''⟩
    exact congrArg (·, m''.relocate f) (binary_relocate hf op a b)
  | .logical op left right, place, m, hp => by
    rw [Expr.eval, Expr.eval, ← hp.step 0, ← hp.step 1,
      eval_relocate hf hcall s left (0 :: place) m (hp.cons 0)]
    rcases Expr.eval call s (0 :: place) left m with ⟨a, m'⟩
    dsimp only [Prod.map]
    rw [decided_relocate, eval_relocate hf hcall s right (1 :: place) m' (hp.cons 1)]
    split <;> rfl
  | .conditional test yes no, place, m, hp => by
    rw [Expr.eval, Expr.eval, ← hp.step 0, ← hp.step 1, ← hp.step 2,
      eval_relocate hf hcall s test (0 :: place) m (hp.cons 0)]
    rcases Expr.eval call s (0 :: place) test m with ⟨t, m'⟩
    dsimp only [Prod.map]
    rw [isTruthy_relocate, eval_relocate hf hcall s yes (1 :: place) m' (hp.cons 1),
      eval_relocate hf hcall s no (2 :: place) m' (hp.cons 2)]
    split <;> rfl

theorem evalAll_relocate (hf : ∀ p q, f p = f q → p = q) (hcall : call.Along f) (s : Scope) :
    ∀ (es : List Expr) (place : Place) (i : Nat) (m : Machine), GrowsFrom f place →
    evalAll call (s.relocate f) (f place) i es (m.relocate f) =
      Prod.map (List.map (Value.relocate f)) (Machine.relocate f) (evalAll call s place i es m)
  | [], _, _, _, _ => rfl
  | e :: es, place, i, m, hp => by
    rw [evalAll, evalAll, ← hp.step i,
      eval_relocate hf hcall s e (i :: place) m (hp.cons i)]
    rcases Expr.eval call s (i :: place) e m with ⟨v, m'⟩
    dsimp only [Prod.map]
    rw [evalAll_relocate hf hcall s es place (i + 1) m' hp]
    rfl

theorem evalFields_relocate (hf : ∀ p q, f p = f q → p = q) (hcall : call.Along f) (s : Scope) :
    ∀ (es : List (String × Expr)) (place : Place) (i : Nat) (m : Machine), GrowsFrom f place →
    evalFields call (s.relocate f) (f place) i es (m.relocate f) =
      Prod.map (relocateFields f) (Machine.relocate f) (evalFields call s place i es m)
  | [], _, _, _, _ => rfl
  | (k, e) :: es, place, i, m, hp => by
    rw [evalFields, evalFields, ← hp.step i,
      eval_relocate hf hcall s e (i :: place) m (hp.cons i)]
    rcases Expr.eval call s (i :: place) e m with ⟨v, m'⟩
    dsimp only [Prod.map]
    rw [evalFields_relocate hf hcall s es place (i + 1) m' hp]
    rfl

end

theorem eval_frame_relocate (hf : ∀ p q, f p = f q → p = q) (hcall : call.Along f) (r : Frame) (e : Expr)
    {place : Place} (m : Machine) (hp : GrowsFrom f place) :
    Expr.eval call (.frame (r.relocate f)) (f place) e (m.relocate f) =
      Prod.map (Value.relocate f) (Machine.relocate f) (Expr.eval call (.frame r) place e m) :=
  eval_relocate hf hcall (.frame r) e place m hp

/-! ## 4. Variables -/

theorem frame_write_relocate (r : Frame) (m : Machine) (name : String) (v : Value) :
    (r.relocate f).write (m.relocate f) name (v.relocate f) =
      Prod.map (Frame.relocate f) (Machine.relocate f) (r.write m name v) := by
  rw [frame_relocate_eq, machine_relocate_eq, relocate_eq, frame_write_revise]

theorem store_relocate (hf : ∀ p q, f p = f q → p = q) (r : Frame) (m : Machine) (root : String)
    (keys : List Key) (op : AssignOp) (v : Value) :
    (r.relocate f).store (m.relocate f) root keys op (v.relocate f) =
      Prod.map (Frame.relocate f) (Machine.relocate f) (r.store m root keys op v) := by
  have hplaces : (Revision.places f).Apart := hf
  rw [frame_relocate_eq, machine_relocate_eq, relocate_eq, store_revise hplaces]

/-! ## 5. Statements -/

theorem hoist_relocate (body : List Stmt) {place : Place} (hp : GrowsFrom f place)
    (i : Nat) (r : Frame) (m : Machine) :
    hoist (f place) i body (r.relocate f) (m.relocate f) =
      Prod.map (Frame.relocate f) (Machine.relocate f) (hoist place i body r m) := by
  induction body generalizing i r m with
  | nil => rfl
  | cons s rest ih =>
    cases s with
    | function code =>
      cases hname : code.name with
      | none =>
        rw [hoist, hoist, hname]
        exact ih (i + 1) r m
      | some name =>
        rw [hoist, hoist, hname]
        dsimp only
        rw [← hp.step i]
        have hfun := function_relocate (f := f) (.frame r) (i :: place) code
        rw [Scope.relocate] at hfun
        rw [hfun, frame_write_relocate]
        rcases r.write m name ((Scope.frame r).function (i :: place) code) with ⟨r', m'⟩
        exact ih (i + 1) r' m'
    | _ => exact ih (i + 1) r m

/-- What a run of a statement leaves, with functions made elsewhere. -/
def relocateEnd (f : Place → Place) : Flow × Frame × Machine → Flow × Frame × Machine
  | (flow, r, m) => (flow.relocate f, r.relocate f, m.relocate f)

mutual

/-- **A statement that runs elsewhere** ends as it does, with functions made there. -/
theorem exec_relocate (hf : ∀ p q, f p = f q → p = q) (hcall : call.Along f) :
    ∀ (s : Stmt) (place : Place) (r : Frame) (m : Machine), GrowsFrom f place →
    Stmt.exec call (f place) s (r.relocate f) (m.relocate f) =
      relocateEnd f (Stmt.exec call place s r m)
  | .declare bindings, place, r, m, hp => by
    rw [Stmt.exec, Stmt.exec, execBindings_relocate hf hcall bindings place 0 r m hp]
    rfl
  | .assign root keys op value, place, r, m, hp => by
    rw [Stmt.exec, Stmt.exec, ← hp.step 0, ← hp.step 1]
    rw [eval_frame_relocate hf hcall r value m (hp.cons 0)]
    rcases Expr.eval call (.frame r) (0 :: place) value m with ⟨v, m'⟩
    dsimp only [Prod.map]
    have hkeys := evalAll_relocate hf hcall (.frame r) keys (1 :: place) 0 m' (hp.cons 1)
    rw [Scope.relocate] at hkeys
    rw [hkeys]
    rcases evalAll call (.frame r) (1 :: place) 0 keys m' with ⟨ks, m''⟩
    have hofValue : (ks.map (Value.relocate f)).map Key.ofValue = ks.map Key.ofValue := by
      rw [List.map_map]
      exact List.map_congr_left fun k _ => ofValue_relocate k
    dsimp only [Prod.map]
    rw [hofValue, store_relocate hf]
    rfl
  | .function _, _, _, _, _ => rfl
  | .leave value, place, r, m, hp => by
    rw [Stmt.exec, Stmt.exec]
    rw [eval_frame_relocate hf hcall r value m hp]
    rfl
  | .branch test yes no, place, r, m, hp => by
    rw [Stmt.exec, Stmt.exec, ← hp.step 0, ← hp.step 1, ← hp.step 2]
    rw [eval_frame_relocate hf hcall r test m (hp.cons 0)]
    rcases Expr.eval call (.frame r) (0 :: place) test m with ⟨t, m'⟩
    dsimp only [Prod.map]
    rw [isTruthy_relocate, exec_relocate hf hcall yes (1 :: place) r m' (hp.cons 1),
      exec_relocate hf hcall no (2 :: place) r m' (hp.cons 2)]
    split <;> rfl
  | .block body, place, r, m, hp => by
    rw [Stmt.exec, Stmt.exec, ← hp.step 0, ← hp.step 1,
      hoist_relocate body (hp.cons 0)]
    rcases hoist (0 :: place) 0 body r m with ⟨r', m'⟩
    exact execAll_relocate hf hcall body (1 :: place) 0 r' m' (hp.cons 1)
  | .run e, place, r, m, hp => by
    rw [Stmt.exec, Stmt.exec]
    rw [eval_frame_relocate hf hcall r e m hp]
    rfl
  | .empty, _, _, _, _ => rfl

theorem execAll_relocate (hf : ∀ p q, f p = f q → p = q) (hcall : call.Along f) :
    ∀ (ss : List Stmt) (place : Place) (i : Nat) (r : Frame) (m : Machine), GrowsFrom f place →
    execAll call (f place) i ss (r.relocate f) (m.relocate f) =
      relocateEnd f (execAll call place i ss r m)
  | [], _, _, _, _, _ => rfl
  | s :: rest, place, i, r, m, hp => by
    rw [execAll, execAll, ← hp.step i,
      exec_relocate hf hcall s (i :: place) r m (hp.cons i)]
    rcases Stmt.exec call (i :: place) s r m with ⟨flow, r', m'⟩
    cases flow with
    | next => exact execAll_relocate hf hcall rest place (i + 1) r' m' hp
    | left v => rfl

theorem execBindings_relocate (hf : ∀ p q, f p = f q → p = q) (hcall : call.Along f) :
    ∀ (bs : List (String × Expr)) (place : Place) (i : Nat) (r : Frame) (m : Machine),
    GrowsFrom f place →
    execBindings call (f place) i bs (r.relocate f) (m.relocate f) =
      Prod.map (Frame.relocate f) (Machine.relocate f) (execBindings call place i bs r m)
  | [], _, _, _, _, _ => rfl
  | (name, e) :: rest, place, i, r, m, hp => by
    rw [execBindings, execBindings, ← hp.step i]
    rw [eval_frame_relocate hf hcall r e m (hp.cons i)]
    rcases Expr.eval call (.frame r) (i :: place) e m with ⟨v, m'⟩
    dsimp only [Prod.map]
    rw [frame_write_relocate]
    rcases r.write m' name v with ⟨r', m''⟩
    exact execBindings_relocate hf hcall rest place (i + 1) r' m'' hp

end

/-! ## 6. Calls -/

theorem bindParams_relocate (ps : List String) (vs : List Value) (locals : Dict Value) :
    bindParams ps (vs.map (Value.relocate f)) (relocateFields f locals) =
      relocateFields f (bindParams ps vs locals) := by
  rw [relocate_eq, relocateFields_eq, bindParams_revise]

/-- **Calls go along with every relocation.** -/
theorem callAt_relocate (hf : ∀ p q, f p = f q → p = q) (fuel : Nat) : (callAt fuel).Along f := by
  induction fuel with
  | zero => exact fun _ _ _ _ _ _ _ => rfl
  | succ fuel ih =>
    intro place module code captured args m hp
    have hdepth : (m.relocate f).depth = m.depth := rfl
    rw [callAt]
    dsimp only
    rw [hdepth]
    by_cases h : maxDepth < m.depth + 1
    · rw [if_pos h, if_pos h]
      rfl
    · have hbody := exec_relocate hf ih (.block code.body) place
        ⟨bindParams code.params args captured, module, false⟩ { m with depth := m.depth + 1 } hp
      rw [if_neg h, if_neg h, bindParams_relocate]
      rw [Frame.relocate, Machine.relocate] at hbody
      rw [Machine.relocate, hbody]
      rcases Stmt.exec (callAt fuel) place (.block code.body)
        ⟨bindParams code.params args captured, module, false⟩ { m with depth := m.depth + 1 }
        with ⟨flow, r, m'⟩
      cases flow <;> rfl

end

end Trellis
