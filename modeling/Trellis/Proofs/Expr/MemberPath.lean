import Trellis.Proofs.Expr.Calls

/-!
# Member paths

An expression such as `a.b[i].c` can be evaluated step by step, each member being taken from the value
of what stands before it. It can also be lowered as a whole: the steps are collected from the outside
in, the value of `a` is found once, all keys are computed, and the walk goes down the values that are
stored, without copying any of them, until a member is one that is not stored but answered.
- `Value.walk`: the walk, which starts anew behind each answered member; `walk_eq_getPath`,
- `Expr.lower`: expressions with their member paths lowered, those in the computed keys as well;
  `Expr.lower_eq_eval` is by recursion on the expression, with the steps that were collected outside
  of it as a parameter,
- `lowered_path_stepwise`: both ways agree, for every chain of steps behind every expression.
-/

namespace Trellis

/-! ## 1. Walking down stored values -/

namespace Value

/-- Goes down as long as something is stored under the next key: where that ends, and the keys that
    are left. -/
def reach : Value → List Key → Value × List Key
  | v, [] => (v, [])
  | v, k :: ks =>
    match v.child? k with
    | some next => reach next ks
    | none => (v, k :: ks)

theorem length_reach_le (v : Value) (ks : List Key) : (v.reach ks).2.length ≤ ks.length := by
  fun_induction reach v ks with
  | case1 => exact Nat.le_refl 0
  | case2 v k ks next _ ih => exact Nat.le_succ_of_le ih
  | case3 => exact Nat.le_refl _

/-- The value at the end of the keys: where nothing is stored under a key, what the value answers for
    it is walked down in the same way. -/
def walk (v : Value) (ks : List Key) : Value :=
  match _h : v.reach ks with
  | (w, []) => w
  | (w, k :: rest) => (w.derived k).walk rest
termination_by ks.length
decreasing_by
  have hle := length_reach_le v ks
  rw [_h] at hle
  exact hle

/-- Where the way down ends, reading step by step goes on. -/
theorem getPath_reach (v : Value) (ks : List Key) :
    v.getPath ks = (v.reach ks).1.getPath (v.reach ks).2 := by
  fun_induction reach v ks with
  | case1 => rfl
  | case2 v k ks next hnext ih => rw [getPath, step, hnext, ← ih]; rfl
  | case3 => rfl

/-- The way down ends where nothing is stored. -/
theorem child?_reach {v w : Value} {k : Key} {ks rest : List Key} (h : v.reach ks = (w, k :: rest)) :
    w.child? k = none := by
  fun_induction reach v ks with
  | case1 => cases h
  | case2 v k' ks next _ ih => exact ih h
  | case3 v k' ks hnone => cases h; exact hnone

/-- **The walk gives what reading step by step gives.** -/
theorem walk_eq_getPath (v : Value) (ks : List Key) : v.walk ks = v.getPath ks := by
  fun_induction walk v ks with
  | case1 v ks w h => rw [getPath_reach, h]; rfl
  | case2 v ks w k rest h ih =>
    have hnone := child?_reach h
    rw [getPath_reach, h, ih, getPath, step, hnone]
    rfl

end Value

/-! ## 2. Lowering -/

/-- What an expression is lowered to. -/
abbrev Lowered := Machine → Value × Machine

/-- A step of a member path: a name, or a key that is computed. -/
inductive PathStep where
  | name (n : String)
  | computed (key : Lowered)

/-- The keys of the steps, computed from left to right. -/
def pathKeys : List PathStep → Machine → List Key × Machine
  | [], m => ([], m)
  | .name n :: steps, m =>
    let (ks, m) := pathKeys steps m
    (.name n :: ks, m)
  | .computed key :: steps, m =>
    let (v, m) := key m
    let (ks, m) := pathKeys steps m
    (.ofValue v :: ks, m)

mutual

/-- Lowers an expression. -/
def Expr.lower (call : Caller) (scope : Scope) (place : Place) : Expr → Lowered
  | .literal l => fun m => (.ofLiteral l, m)
  | .name x => fun m => ((scope.lookup m x).getD .undefined, m)
  | .array items => fun m =>
    let (vs, m) := lowerAll call scope place 0 items m
    (.array vs, m)
  | .object fields => fun m =>
    let (kvs, m) := lowerFields call scope place 0 fields m
    (.object (Dict.ofPairs kvs), m)
  | .function code => fun m => (scope.function place code, m)
  | .member base field => Expr.lowerPath call scope (0 :: place) base [.name field]
  | .index base key =>
    Expr.lowerPath call scope (0 :: place) base [.computed (Expr.lower call scope (1 :: place) key)]
  | .call callee args => fun m =>
    match Expr.lower call scope (0 :: place) callee m with
    | (.function _ module code captured, m) =>
      let (vs, m) := lowerAll call scope (1 :: place) 0 args m
      call (2 :: place) module code captured vs m
    | (_, m) => (.undefined, m)
  | .unary op operand => fun m =>
    let (v, m) := Expr.lower call scope (0 :: place) operand m
    (op.apply v, m)
  | .binary op left right => fun m =>
    let (a, m) := Expr.lower call scope (0 :: place) left m
    let (b, m) := Expr.lower call scope (1 :: place) right m
    (op.apply a b, m)
  | .logical op left right => fun m =>
    let (a, m) := Expr.lower call scope (0 :: place) left m
    if op.decided a then (a, m) else Expr.lower call scope (1 :: place) right m
  | .conditional test yes no => fun m =>
    let (t, m) := Expr.lower call scope (0 :: place) test m
    if t.isTruthy then Expr.lower call scope (1 :: place) yes m
    else Expr.lower call scope (2 :: place) no m
termination_by e => (sizeOf e, 0)

/-- Lowers what stands before the steps of a member path: more steps, a name whose value is walked
    down where it is, or any other expression. Behind a name that stands for nothing no key is
    computed. -/
def Expr.lowerPath (call : Caller) (scope : Scope) (place : Place) (e : Expr)
    (steps : List PathStep) : Lowered :=
  match e with
  | .member base field => Expr.lowerPath call scope (0 :: place) base (.name field :: steps)
  | .index base key =>
    Expr.lowerPath call scope (0 :: place) base
      (.computed (Expr.lower call scope (1 :: place) key) :: steps)
  | .name x => fun m =>
    match scope.lookup m x with
    | some v =>
      let (ks, m) := pathKeys steps m
      (v.walk ks, m)
    | none => (.undefined, m)
  | root => fun m =>
    let (v, m) := Expr.lower call scope place root m
    let (ks, m) := pathKeys steps m
    (v.walk ks, m)
termination_by (sizeOf e, 1)

/-- Lowers expressions that are evaluated from left to right. -/
def lowerAll (call : Caller) (scope : Scope) (place : Place) (i : Nat) :
    List Expr → Machine → List Value × Machine
  | [] => fun m => ([], m)
  | e :: es => fun m =>
    let (v, m) := Expr.lower call scope (i :: place) e m
    let (vs, m) := lowerAll call scope place (i + 1) es m
    (v :: vs, m)
termination_by es => (sizeOf es, 0)

/-- Lowers the fields of an object literal. -/
def lowerFields (call : Caller) (scope : Scope) (place : Place) (i : Nat) :
    List (String × Expr) → Machine → List (String × Value) × Machine
  | [] => fun m => ([], m)
  | (k, e) :: es => fun m =>
    let (v, m) := Expr.lower call scope (i :: place) e m
    let (kvs, m) := lowerFields call scope place (i + 1) es m
    ((k, v) :: kvs, m)
termination_by es => (sizeOf es, 0)

end

/-! ## 3. Lowering keeps the value -/

theorem Value.getPath_undefined (ks : List Key) : Value.undefined.getPath ks = .undefined := by
  induction ks with
  | nil => rfl
  | cons k ks ih => exact ih

section

variable {call : Caller} {scope : Scope}

/-- Alone and in front of steps, a lowered expression gives the value of the expression. -/
structure Expr.Lowers (call : Caller) (scope : Scope) (e : Expr) (place : Place) : Prop where
  alone : ∀ m, e.lower call scope place m = e.eval call scope place m
  before : ∀ (ks) {steps m}, pathKeys steps m = (ks, m) →
    e.lowerPath call scope place steps m = ((e.eval call scope place m).1.getPath ks, m)

/-- What is neither a member nor a name is lowered for itself, and its value is walked down. -/
theorem Expr.Lowers.of_root (hcall : call.Leaves) {e : Expr} {place : Place}
    (halone : ∀ m, e.lower call scope place m = e.eval call scope place m)
    (hpath : ∀ steps m, e.lowerPath call scope place steps m =
      ((e.lower call scope place m).1.walk (pathKeys steps (e.lower call scope place m).2).1,
        (pathKeys steps (e.lower call scope place m).2).2)) :
    e.Lowers call scope place where
  alone := halone
  before := by
    intro ks steps m hks
    obtain ⟨v, hv⟩ := e.eval_leaves hcall scope place m
    rw [hpath, halone, hv, hks, Value.walk_eq_getPath]

mutual

/-- **Lowering keeps the value**, by recursion on the expression: the base of a member path takes over
    the step behind it. -/
theorem Expr.lowers (hcall : call.Leaves) (scope : Scope) :
    ∀ (e : Expr) (place : Place), e.Lowers call scope place
  | .member base field, place => by
    have hbase := Expr.lowers hcall scope base (0 :: place)
    refine ⟨fun m => ?_, fun ks {steps m} hks => ?_⟩
    · obtain ⟨v, hv⟩ := base.eval_leaves hcall scope (0 :: place) m
      rw [Expr.lower, hbase.before [.name field] rfl, Expr.eval, hv]
      rfl
    · rw [Expr.lowerPath, hbase.before (.name field :: ks) (by rw [pathKeys, hks]), Expr.eval]
      rfl
  | .index base key, place => by
    have hbase := Expr.lowers hcall scope base (0 :: place)
    have hkey := Expr.lowers hcall scope key (1 :: place)
    refine ⟨fun m => ?_, fun ks {steps m} hks => ?_⟩
    all_goals
      obtain ⟨v, hv⟩ := base.eval_leaves hcall scope (0 :: place) m
      obtain ⟨k, hk⟩ := key.eval_leaves hcall scope (1 :: place) m
    · rw [Expr.lower, hbase.before [.ofValue k] (by rw [pathKeys, hkey.alone, hk]; rfl),
        Expr.eval, hv]
      dsimp only
      rw [hk]
      rfl
    · rw [Expr.lowerPath,
        hbase.before (.ofValue k :: ks) (by rw [pathKeys, hkey.alone, hk]; dsimp only; rw [hks]),
        Expr.eval, hv]
      dsimp only
      rw [hk]
      rfl
  | .name x, place => by
    refine ⟨fun m => by rw [Expr.lower, Expr.eval], fun ks {steps m} hks => ?_⟩
    rw [Expr.lowerPath, Expr.eval]
    cases hx : scope.lookup m x with
    | none =>
      dsimp only
      rw [hx, Option.getD_none, Value.getPath_undefined]
    | some v =>
      dsimp only
      rw [hx, hks, Option.getD_some, ← Value.walk_eq_getPath]
  | .literal l, place =>
    .of_root hcall (fun m => by rw [Expr.lower, Expr.eval])
      (fun steps m => by rw [Expr.lowerPath.eq_def])
  | .function code, place =>
    .of_root hcall (fun m => by rw [Expr.lower, Expr.eval])
      (fun steps m => by rw [Expr.lowerPath.eq_def])
  | .array items, place =>
    .of_root hcall
      (fun m => by rw [Expr.lower, Expr.eval]; dsimp only; rw [lowerAll_eq hcall scope items])
      (fun steps m => by rw [Expr.lowerPath.eq_def])
  | .object fields, place =>
    .of_root hcall
      (fun m => by rw [Expr.lower, Expr.eval]; dsimp only; rw [lowerFields_eq hcall scope fields])
      (fun steps m => by rw [Expr.lowerPath.eq_def])
  | .call callee args, place => by
    have hcallee := Expr.lowers hcall scope callee (0 :: place)
    refine .of_root hcall (fun m => ?_) (fun steps m => by rw [Expr.lowerPath.eq_def])
    rw [Expr.lower, Expr.eval]
    dsimp only
    rw [hcallee.alone]
    obtain ⟨v, hv⟩ := callee.eval_leaves hcall scope (0 :: place) m
    rw [hv]
    cases v with
    | function origin module code captured =>
      dsimp only
      rw [lowerAll_eq hcall scope args]
    | _ => rfl
  | .unary op operand, place => by
    have hoperand := Expr.lowers hcall scope operand (0 :: place)
    refine .of_root hcall (fun m => ?_) (fun steps m => by rw [Expr.lowerPath.eq_def])
    rw [Expr.lower, Expr.eval]
    dsimp only
    rw [hoperand.alone]
  | .binary op left right, place => by
    have hleft := Expr.lowers hcall scope left (0 :: place)
    have hright := Expr.lowers hcall scope right (1 :: place)
    refine .of_root hcall (fun m => ?_) (fun steps m => by rw [Expr.lowerPath.eq_def])
    rw [Expr.lower, Expr.eval]
    dsimp only
    rw [hleft.alone, hright.alone]
  | .logical op left right, place => by
    have hleft := Expr.lowers hcall scope left (0 :: place)
    have hright := Expr.lowers hcall scope right (1 :: place)
    refine .of_root hcall (fun m => ?_) (fun steps m => by rw [Expr.lowerPath.eq_def])
    rw [Expr.lower, Expr.eval]
    dsimp only
    rw [hleft.alone, hright.alone]
  | .conditional test yes no, place => by
    have htest := Expr.lowers hcall scope test (0 :: place)
    have hyes := Expr.lowers hcall scope yes (1 :: place)
    have hno := Expr.lowers hcall scope no (2 :: place)
    refine .of_root hcall (fun m => ?_) (fun steps m => by rw [Expr.lowerPath.eq_def])
    rw [Expr.lower, Expr.eval]
    dsimp only
    rw [htest.alone, hyes.alone, hno.alone]

theorem lowerAll_eq (hcall : call.Leaves) (scope : Scope) :
    ∀ (es : List Expr) (place : Place) (i : Nat) (m : Machine),
      lowerAll call scope place i es m = evalAll call scope place i es m
  | [], place, i, m => by rw [lowerAll, evalAll]
  | e :: es, place, i, m => by
    rw [lowerAll, evalAll]
    dsimp only
    rw [(Expr.lowers hcall scope e (i :: place)).alone, lowerAll_eq hcall scope es]

theorem lowerFields_eq (hcall : call.Leaves) (scope : Scope) :
    ∀ (fields : List (String × Expr)) (place : Place) (i : Nat) (m : Machine),
      lowerFields call scope place i fields m = evalFields call scope place i fields m
  | [], place, i, m => by rw [lowerFields, evalFields]
  | (k, e) :: fields, place, i, m => by
    rw [lowerFields, evalFields]
    dsimp only
    rw [(Expr.lowers hcall scope e (i :: place)).alone, lowerFields_eq hcall scope fields]

end

end

/-! ## 4. Chains of accesses -/

/-- What is asked of the value before it: a member by its name, or by a key that is computed. -/
inductive Access where
  | member (field : String)
  | index (key : Expr)

/-- An expression with an access behind it. -/
def Access.behind (base : Expr) : Access → Expr
  | .member field => .member base field
  | .index key => .index base key

/-- An expression with accesses behind it, one after the other. -/
def Expr.followedBy (base : Expr) (accesses : List Access) : Expr :=
  accesses.foldl Access.behind base

section

variable (call : Caller) (scope : Scope) (m : Machine)

/-- The key of an access that ends an expression at `place`. -/
def Access.key (place : Place) : Access → Key
  | .member field => .name field
  | .index key => .ofValue (key.lower call scope (1 :: place) m).1

/-- What accesses make of a value, one at a time. Each of them ends an expression that the accesses
    behind it have as their base, and its place lies as far inside of `place` as there are such
    accesses. -/
def resolve (place : Place) : Value → List Access → Value
  | v, [] => v
  | v, a :: rest =>
    resolve place (v.getPath [a.key call scope m (List.replicate rest.length 0 ++ place)]) rest

end

/-- One access: the value of the base, read at one key. -/
theorem Access.lower_behind {call : Caller} (hcall : call.Leaves) (scope : Scope) (base : Expr)
    (a : Access) (place : Place) (m : Machine) :
    (a.behind base).lower call scope place m =
      ((base.lower call scope (0 :: place) m).1.getPath [a.key call scope m place], m) := by
  obtain ⟨v, hv⟩ := base.eval_leaves hcall scope (0 :: place) m
  rw [(base.lowers hcall scope (0 :: place)).alone, hv]
  cases a with
  | member field =>
    rw [behind, ((Expr.member base field).lowers hcall scope place).alone, Expr.eval, hv]
    rfl
  | index key =>
    obtain ⟨k, hk⟩ := key.eval_leaves hcall scope (1 :: place) m
    rw [behind, ((Expr.index base key).lowers hcall scope place).alone, Expr.eval, hv, Access.key,
      (key.lowers hcall scope (1 :: place)).alone]
    dsimp only
    rw [hk]
    rfl

/-- A chain of accesses, by induction on the chain: its first access goes over to the base. -/
theorem Expr.lower_followedBy {call : Caller} (hcall : call.Leaves) (scope : Scope) (base : Expr)
    (accesses : List Access) (place : Place) (m : Machine) :
    (base.followedBy accesses).lower call scope place m =
      (resolve call scope m place
        (base.lower call scope (List.replicate accesses.length 0 ++ place) m).1 accesses, m) := by
  induction accesses generalizing base with
  | nil =>
    obtain ⟨v, hv⟩ := base.eval_leaves hcall scope place m
    have hbase : base.lower call scope place m = (v, m) := by
      rw [(base.lowers hcall scope place).alone, hv]
    exact hbase.trans (by rw [List.length_nil, List.replicate_zero, List.nil_append, hbase, resolve])
  | cons a rest ih =>
    rw [followedBy, List.foldl_cons, ← followedBy, ih, a.lower_behind hcall, resolve]
    rfl

/-- **The member path agrees with access step by step.** In every scope, for calls nested as deep as
    may be:
    1. a chain of accesses behind any expression is lowered to the value of that expression, of which
       one access after the other reads one key,
    2. where it begins with a name, that is the value of the name, or `undefined` where the name stands
       for nothing,
    3. a lowered expression has the value that the evaluation of the expression gives, whatever chains
       stand in it or in its keys,
    4. walking down stored values is reading one key after the other, and a longer walk is one walk
       after the other. -/
theorem lowered_path_stepwise (fuel : Nat) (scope : Scope) (m : Machine) :
    (∀ (base : Expr) (accesses : List Access) (place : Place),
      (base.followedBy accesses).lower (callAt fuel) scope place m =
        (resolve (callAt fuel) scope m place
          (base.lower (callAt fuel) scope (List.replicate accesses.length 0 ++ place) m).1 accesses, m)) ∧
    (∀ (x : String) (place : Place),
      (Expr.name x).lower (callAt fuel) scope place m = ((scope.lookup m x).getD .undefined, m)) ∧
    (∀ (e : Expr) (place : Place),
      e.lower (callAt fuel) scope place m = e.eval (callAt fuel) scope place m) ∧
    ∀ (v : Value) (ks js : List Key),
      v.walk ks = v.getPath ks ∧ v.walk (ks ++ js) = (v.walk ks).walk js := by
  have hcall := callAt_leaves fuel
  refine ⟨fun base accesses place => base.lower_followedBy hcall scope accesses place m,
    fun x place => by rw [Expr.lower], fun e place => (e.lowers hcall scope place).alone m,
    fun v ks js => ⟨v.walk_eq_getPath ks, ?_⟩⟩
  rw [v.walk_eq_getPath, v.walk_eq_getPath, Value.walk_eq_getPath, Value.getPath_append]

end Trellis
