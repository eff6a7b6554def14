import Trellis.Expr.Script

/-!
# Calls leave the machine as it is

Only module-level code writes globals, and every call takes back the level of nesting that it adds.
So whatever a body does to variables ends in its own frame: an expression and a body that is not at
module level leave the machine that they found (`Expr.eval_leaves`, `Stmt.exec_writes`), given that
the calls in them do, and by recursion on the calls that may still be nested all calls do
(`callAt_leaves`).

`serve` makes calls from outside one after the other, each chosen from the results of those before
it. Each of them finds the machine that the modules left (`serve_independent`).
-/

namespace Trellis

/-! ## 1. Expressions -/

/-- Every call leaves the machine that it found. -/
def Caller.Leaves (call : Caller) : Prop :=
  ∀ place module code captured args m, ∃ v, call place module code captured args m = (v, m)

section

variable {call : Caller}

mutual

/-- **Evaluating an expression leaves the machine as it is**, in a page and in a frame. -/
theorem Expr.eval_leaves (hcall : call.Leaves) (scope : Scope) :
    ∀ (e : Expr) (place : Place) (m : Machine), ∃ v, e.eval call scope place m = (v, m)
  | .literal l, _, _ => ⟨_, by rw [Expr.eval]⟩
  | .name x, _, _ => ⟨_, by rw [Expr.eval]⟩
  | .array items, place, m => by
    obtain ⟨vs, hvs⟩ := evalAll_leaves hcall scope items place 0 m
    exact ⟨_, by rw [Expr.eval, hvs]⟩
  | .object fields, place, m => by
    obtain ⟨kvs, hkvs⟩ := evalFields_leaves hcall scope fields place 0 m
    exact ⟨_, by rw [Expr.eval, hkvs]⟩
  | .function code, _, _ => ⟨_, by rw [Expr.eval]⟩
  | .member base field, place, m => by
    obtain ⟨v, hv⟩ := Expr.eval_leaves hcall scope base (0 :: place) m
    exact ⟨_, by rw [Expr.eval, hv]⟩
  | .index base key, place, m => by
    obtain ⟨v, hv⟩ := Expr.eval_leaves hcall scope base (0 :: place) m
    obtain ⟨k, hk⟩ := Expr.eval_leaves hcall scope key (1 :: place) m
    refine ⟨v.step (.ofValue k), ?_⟩
    rw [Expr.eval, hv]
    dsimp only
    rw [hk]
  | .call callee args, place, m => by
    obtain ⟨v, hv⟩ := Expr.eval_leaves hcall scope callee (0 :: place) m
    obtain ⟨vs, hvs⟩ := evalAll_leaves hcall scope args (1 :: place) 0 m
    rw [Expr.eval, hv]
    cases v with
    | function origin module code captured =>
      dsimp only
      rw [hvs]
      exact hcall (2 :: place) module code captured vs m
    | _ => exact ⟨.undefined, rfl⟩
  | .unary op operand, place, m => by
    obtain ⟨v, hv⟩ := Expr.eval_leaves hcall scope operand (0 :: place) m
    exact ⟨_, by rw [Expr.eval, hv]⟩
  | .binary op left right, place, m => by
    obtain ⟨a, ha⟩ := Expr.eval_leaves hcall scope left (0 :: place) m
    obtain ⟨b, hb⟩ := Expr.eval_leaves hcall scope right (1 :: place) m
    refine ⟨op.apply a b, ?_⟩
    rw [Expr.eval, ha]
    dsimp only
    rw [hb]
  | .logical op left right, place, m => by
    obtain ⟨a, ha⟩ := Expr.eval_leaves hcall scope left (0 :: place) m
    rw [Expr.eval, ha]
    dsimp only
    split
    · exact ⟨a, rfl⟩
    · exact Expr.eval_leaves hcall scope right (1 :: place) m
  | .conditional test yes no, place, m => by
    obtain ⟨t, ht⟩ := Expr.eval_leaves hcall scope test (0 :: place) m
    rw [Expr.eval, ht]
    dsimp only
    split
    · exact Expr.eval_leaves hcall scope yes (1 :: place) m
    · exact Expr.eval_leaves hcall scope no (2 :: place) m

theorem evalAll_leaves (hcall : call.Leaves) (scope : Scope) :
    ∀ (es : List Expr) (place : Place) (i : Nat) (m : Machine),
      ∃ vs, evalAll call scope place i es m = (vs, m)
  | [], _, _, _ => ⟨[], rfl⟩
  | e :: es, place, i, m => by
    obtain ⟨v, hv⟩ := Expr.eval_leaves hcall scope e (i :: place) m
    obtain ⟨vs, hvs⟩ := evalAll_leaves hcall scope es place (i + 1) m
    refine ⟨v :: vs, ?_⟩
    rw [evalAll, hv]
    dsimp only
    rw [hvs]

theorem evalFields_leaves (hcall : call.Leaves) (scope : Scope) :
    ∀ (fields : List (String × Expr)) (place : Place) (i : Nat) (m : Machine),
      ∃ kvs, evalFields call scope place i fields m = (kvs, m)
  | [], _, _, _ => ⟨[], rfl⟩
  | (k, e) :: fields, place, i, m => by
    obtain ⟨v, hv⟩ := Expr.eval_leaves hcall scope e (i :: place) m
    obtain ⟨kvs, hkvs⟩ := evalFields_leaves hcall scope fields place (i + 1) m
    refine ⟨(k, v) :: kvs, ?_⟩
    rw [evalFields, hv]
    dsimp only
    rw [hkvs]

end

/-! ## 2. Writing -/

/-- What running statements in a frame may do: module-level code changes the globals of its module,
    any other body changes only its own variables. -/
structure Frame.Writes (f : Frame) (m : Machine) (f' : Frame) (m' : Machine) : Prop where
  module : f'.module = f.module
  atTop : f'.atTop = f.atTop
  depth : m'.depth = m.depth
  count : m'.globals.length = m.globals.length
  others : ∀ k, f.atTop = false ∨ k ≠ f.module → m'.module? k = m.module? k

namespace Frame.Writes

variable {f f' f'' : Frame} {m m' m'' : Machine}

theorem refl (f : Frame) (m : Machine) : f.Writes m f m := ⟨rfl, rfl, rfl, rfl, fun _ _ => rfl⟩

theorem trans (a : f.Writes m f' m') (b : f'.Writes m' f'' m'') : f.Writes m f'' m'' where
  module := b.module.trans a.module
  atTop := b.atTop.trans a.atTop
  depth := b.depth.trans a.depth
  count := b.count.trans a.count
  others k hk := by
    have hk' : f'.atTop = false ∨ k ≠ f'.module := by rwa [a.atTop, a.module]
    exact (b.others k hk').trans (a.others k hk)

/-- A body that is not at module level leaves the machine as it is. -/
theorem eq_of_inner (h : f.Writes m f' m') (hf : f.atTop = false) : m' = m := by
  have hglobals : m'.globals = m.globals := List.ext_getElem? fun k => h.others k (.inl hf)
  rcases m with ⟨globals, depth⟩
  rcases m' with ⟨globals', depth'⟩
  obtain rfl : globals' = globals := hglobals
  obtain rfl : depth' = depth := h.depth
  rfl

end Frame.Writes

/-- A variable that is written is a global of the module or one of the body's own, whatever the name
    stands for elsewhere. -/
theorem Frame.write_writes (f : Frame) (m : Machine) (name : String) (v : Value) :
    ∃ f' m', f.write m name v = (f', m') ∧ f.Writes m f' m' := by
  rw [Frame.write]
  split
  · rename_i htop
    refine ⟨f, _, rfl, rfl, rfl, rfl, List.length_modify _ _ _, fun k hk => ?_⟩
    have hne : k ≠ f.module := hk.resolve_left fun h => by rw [h] at htop; cases htop
    exact List.getElem?_modify_ne _ _ (Ne.symm hne)
  · exact ⟨_, m, rfl, rfl, rfl, rfl, rfl, fun _ _ => rfl⟩

/-- The same for an assignment below `module.exports`, below its alias or below a global. -/
theorem Frame.store_writes (f : Frame) (m : Machine) (root : String) (keys : List Key)
    (op : AssignOp) (v : Value) :
    ∃ f' m', f.store m root keys op v = (f', m') ∧ f.Writes m f' m' := by
  rw [Frame.store]
  rcases f.target m root keys with ⟨root, keys⟩
  exact f.write_writes m root _

theorem hoist_writes (place : Place) (body : List Stmt) (i : Nat) (f : Frame) (m : Machine) :
    ∃ f' m', hoist place i body f m = (f', m') ∧ f.Writes m f' m' := by
  induction body generalizing i f m with
  | nil => exact ⟨f, m, rfl, .refl f m⟩
  | cons s rest ih =>
    cases s with
    | function code =>
      cases hname : code.name with
      | none =>
        rw [hoist, hname]
        exact ih (i + 1) f m
      | some name =>
        obtain ⟨f₁, m₁, hw, h₁⟩ :=
          f.write_writes m name ((Scope.frame f).function (i :: place) code)
        obtain ⟨f', m', hrun, h⟩ := ih (i + 1) f₁ m₁
        rw [hoist, hname]
        dsimp only
        rw [hw]
        exact ⟨f', m', hrun, h₁.trans h⟩
    | _ => exact ih (i + 1) f m

/-! ## 3. Statements -/

mutual

/-- **A statement writes nothing but what its frame may write.** -/
theorem Stmt.exec_writes (hcall : call.Leaves) :
    ∀ (s : Stmt) (place : Place) (f : Frame) (m : Machine),
      ∃ flow f' m', s.exec call place f m = (flow, f', m') ∧ f.Writes m f' m'
  | .declare bindings, place, f, m => by
    obtain ⟨f', m', hrun, h⟩ := execBindings_writes hcall bindings place 0 f m
    exact ⟨.next, f', m', by rw [Stmt.exec, hrun], h⟩
  | .assign root keys op value, place, f, m => by
    obtain ⟨v, hv⟩ := Expr.eval_leaves hcall (.frame f) value (0 :: place) m
    obtain ⟨ks, hks⟩ := evalAll_leaves hcall (.frame f) keys (1 :: place) 0 m
    obtain ⟨f', m', hstore, h⟩ := f.store_writes m root (ks.map Key.ofValue) op v
    refine ⟨.next, f', m', ?_, h⟩
    rw [Stmt.exec, hv]
    dsimp only
    rw [hks]
    dsimp only
    rw [hstore]
  | .function _, _, f, m => ⟨.next, f, m, by rw [Stmt.exec], .refl f m⟩
  | .leave value, place, f, m => by
    obtain ⟨v, hv⟩ := Expr.eval_leaves hcall (.frame f) value place m
    exact ⟨.left v, f, m, by rw [Stmt.exec, hv], .refl f m⟩
  | .branch test yes no, place, f, m => by
    obtain ⟨t, ht⟩ := Expr.eval_leaves hcall (.frame f) test (0 :: place) m
    rw [Stmt.exec, ht]
    dsimp only
    split
    · exact Stmt.exec_writes hcall yes (1 :: place) f m
    · exact Stmt.exec_writes hcall no (2 :: place) f m
  | .block body, place, f, m => by
    obtain ⟨f₁, m₁, hhoist, h₁⟩ := hoist_writes (0 :: place) body 0 f m
    obtain ⟨flow, f', m', hrun, h⟩ := execAll_writes hcall body (1 :: place) 0 f₁ m₁
    rw [Stmt.exec, hhoist]
    exact ⟨flow, f', m', hrun, h₁.trans h⟩
  | .run e, place, f, m => by
    obtain ⟨v, hv⟩ := Expr.eval_leaves hcall (.frame f) e place m
    exact ⟨.next, f, m, by rw [Stmt.exec, hv], .refl f m⟩
  | .empty, _, f, m => ⟨.next, f, m, by rw [Stmt.exec], .refl f m⟩

theorem execAll_writes (hcall : call.Leaves) :
    ∀ (ss : List Stmt) (place : Place) (i : Nat) (f : Frame) (m : Machine),
      ∃ flow f' m', execAll call place i ss f m = (flow, f', m') ∧ f.Writes m f' m'
  | [], _, _, f, m => ⟨.next, f, m, by rw [execAll], .refl f m⟩
  | s :: rest, place, i, f, m => by
    obtain ⟨flow, f₁, m₁, hrun₁, h₁⟩ := Stmt.exec_writes hcall s (i :: place) f m
    rw [execAll, hrun₁]
    cases flow with
    | next =>
      obtain ⟨flow, f', m', hrun, h⟩ := execAll_writes hcall rest place (i + 1) f₁ m₁
      exact ⟨flow, f', m', hrun, h₁.trans h⟩
    | left v => exact ⟨.left v, f₁, m₁, rfl, h₁⟩

theorem execBindings_writes (hcall : call.Leaves) :
    ∀ (bs : List (String × Expr)) (place : Place) (i : Nat) (f : Frame) (m : Machine),
      ∃ f' m', execBindings call place i bs f m = (f', m') ∧ f.Writes m f' m'
  | [], _, _, f, m => ⟨f, m, by rw [execBindings], .refl f m⟩
  | (name, e) :: rest, place, i, f, m => by
    obtain ⟨v, hv⟩ := Expr.eval_leaves hcall (.frame f) e (i :: place) m
    obtain ⟨f₁, m₁, hw, h₁⟩ := f.write_writes m name v
    obtain ⟨f', m', hrun, h⟩ := execBindings_writes hcall rest place (i + 1) f₁ m₁
    rw [execBindings, hv]
    dsimp only
    rw [hw]
    exact ⟨f', m', hrun, h₁.trans h⟩

end

end

/-! ## 4. Calls -/

/-- **Calls leave the machine as it is**, also those that are cut off. -/
theorem callAt_leaves (fuel : Nat) : (callAt fuel).Leaves := by
  induction fuel with
  | zero => exact fun _ _ _ _ _ m => ⟨.undefined, rfl⟩
  | succ fuel ih =>
    intro place module code captured args m
    rw [callAt]
    dsimp only
    by_cases h : maxDepth < m.depth + 1
    · rw [if_pos h]
      exact ⟨.undefined, rfl⟩
    · obtain ⟨flow, f', m', hrun, hwrites⟩ := Stmt.exec_writes ih (.block code.body) place
        ⟨bindParams code.params args captured, module, false⟩ { m with depth := m.depth + 1 }
      rw [if_neg h, hrun, hwrites.eq_of_inner rfl]
      exact ⟨flow.value, rfl⟩

/-- **A module that is run writes no globals but its own**, the last ones it leaves. -/
theorem runModule_globals (globals : List (Dict Value)) (body : List Stmt) :
    ∃ own, (runModule globals body).globals = globals ++ [own] := by
  obtain ⟨flow, f', m', hrun, h⟩ := Stmt.exec_writes (callAt_leaves (maxDepth + 1)) (.block body)
    (modulePlace globals.length) ⟨[], globals.length, true⟩ ⟨globals ++ [initialGlobals], 0⟩
  have hglobals : (runModule globals body).globals = m'.globals := by
    rw [runModule]
    dsimp only
    rw [callFunction, hrun]
  have hcount : m'.globals.length = globals.length + 1 := by
    rw [h.count, List.length_append, List.length_singleton]
  refine ⟨m'.globals[globals.length], ?_⟩
  rw [hglobals]
  refine List.ext_getElem? fun k => ?_
  rcases Nat.lt_trichotomy k globals.length with hk | rfl | hk
  · have hother := h.others k (.inr (Nat.ne_of_lt hk))
    rw [Machine.module?, Machine.module?, List.getElem?_append_left hk] at hother
    rw [hother, List.getElem?_append_left hk]
  · rw [List.getElem?_append_right (Nat.le_refl _), Nat.sub_self, List.getElem?_cons_zero,
      List.getElem?_eq_getElem]
  · rw [List.getElem?_eq_none (by omega), List.getElem?_eq_none]
    rw [List.length_append, List.length_singleton]
    exact hk

/-! ## 5. Clients -/

/-- A call from outside: what is called, its arguments, and the place where the functions that it
    makes come into being. -/
structure Call where
  place : Place
  callee : Value
  args : List Value

/-- Makes a call on a machine. -/
def Call.make (c : Call) (m : Machine) : Option (Value × Machine) := c.callee.call? m c.place c.args

/-- What a call gives. -/
def Call.answer (c : Call) (m : Machine) : Option Value := (c.make m).map Prod.fst

theorem Call.make_eq (c : Call) (m : Machine) : c.make m = (c.answer m).map (·, m) := by
  obtain ⟨place, callee, args⟩ := c
  cases callee with
  | function origin module code captured =>
    obtain ⟨v, hv⟩ := callAt_leaves (maxDepth + 1) place module code captured args m
    rw [Call.answer, Call.make, Value.call?, callFunction, hv]
    rfl
  | _ => rfl

/-- The next call of a client, chosen from what the calls before it gave. -/
abbrev NextCall := List (Option Value) → Call

/-- Makes calls one after the other, each on the machine that the one before it left; `results` is
    what the calls before them gave. -/
def serve : List NextCall → List (Option Value) → Machine → List (Option Value) × Machine
  | [], results, m => (results, m)
  | next :: rest, results, m =>
    match (next results).make m with
    | some (v, m) => serve rest (results ++ [some v]) m
    | none => serve rest (results ++ [none]) m

theorem serve_cons (next : NextCall) (rest : List NextCall) (results : List (Option Value))
    (m : Machine) :
    serve (next :: rest) results m =
      serve rest (results ++ [(next results).answer m]) m := by
  rw [serve, Call.make_eq]
  cases (next results).answer m <;> rfl

/-- One call after the other: the machine stays, and each call gives what it gives alone. -/
theorem serve_spec (calls : List NextCall) (results : List (Option Value)) (m : Machine) :
    ∃ more, serve calls results m = (results ++ more, m) ∧ more.length = calls.length ∧
      ∀ (i : Nat) (next : NextCall), calls[i]? = some next →
        more[i]? = some ((next (results ++ more.take i)).answer m) := by
  induction calls generalizing results with
  | nil => exact ⟨[], by rw [serve, List.append_nil], rfl, fun i next hi => by simp at hi⟩
  | cons r rest ih =>
    obtain ⟨more, hrun, hlength, hmore⟩ := ih (results ++ [(r results).answer m])
    refine ⟨(r results).answer m :: more, ?_, ?_, fun i next hi => ?_⟩
    · rw [serve_cons, hrun, List.append_assoc]
      rfl
    · rw [List.length_cons, List.length_cons, hlength]
    · cases i with
      | zero =>
        obtain rfl := Option.some.inj hi
        rw [List.take_zero, List.append_nil]
        rfl
      | succ i =>
        rw [List.getElem?_cons_succ] at hi ⊢
        rw [hmore i next hi, List.take_succ_cons, List.append_assoc]
        rfl

/-- **Functions of a module cannot change what was built.** A module that is run adds its globals to
    those that are there. Calls that are made afterwards, at any depth of nesting, each of a function
    and with arguments from the exports, from the results of the calls before or from elsewhere, leave
    all globals and the depth as they are, and each of them gives what it gives as the only call. -/
theorem serve_independent {globals : List (Dict Value)} {name source : String} {run : ModuleRun}
    (hrun : evaluateModule globals name source = .ok run) (calls : List NextCall) (depth : Nat) :
    (∃ own, run.globals = globals ++ [own]) ∧
    ∃ results, serve calls [] ⟨run.globals, depth⟩ = (results, ⟨run.globals, depth⟩) ∧
      results.length = calls.length ∧
      ∀ (i : Nat) (next : NextCall), calls[i]? = some next →
        results[i]? = some ((next (results.take i)).answer ⟨run.globals, depth⟩) := by
  refine ⟨?_, serve_spec calls [] ⟨run.globals, depth⟩⟩
  rw [evaluateModule] at hrun
  split at hrun
  · rename_i body _
    cases hrun
    exact runModule_globals globals body
  · cases hrun

/-- A module with a function that seems to make one of its globals longer. -/
def words : String :=
  "var word = 'a'; function extend(x) { word = word + x; return word; } exports.extend = extend;"

/-- Extends the word of `words` by a text, and by what that gives, with the word as it was. -/
def extendTwice (exports : Value) : List NextCall :=
  let extend := exports.getPath [.name "extend"]
  [fun _ => ⟨callPlace 0, extend, [.string "b"]⟩,
    fun results => ⟨callPlace 1, extend, results.flatMap Option.toList⟩]

/-- Both calls start from the same word. -/
theorem extendTwice_independent :
    ∃ run results, evaluateModule [] "words" words = .ok run ∧
      serve (extendTwice run.exports) [] ⟨run.globals, 0⟩ = (results, ⟨run.globals, 0⟩) ∧
      results.map (Option.bind · Value.asString?) = [some "ab", some "aab"] := by
  have hwords : (evaluateModule [] "words" words).toOption.any (fun run =>
      ((serve (extendTwice run.exports) [] ⟨run.globals, 0⟩).1.map (Option.bind · Value.asString?) ==
        [some "ab", some "aab"])) = true := by decide +kernel
  cases hrun : evaluateModule [] "words" words with
  | error e =>
    rw [hrun] at hwords
    cases hwords
  | ok run =>
    rw [hrun] at hwords
    obtain ⟨-, results, hserve, -⟩ := serve_independent hrun (extendTwice run.exports) 0
    have hresults := beq_iff_eq.mp hwords
    rw [hserve] at hresults
    exact ⟨run, results, rfl, hserve, hresults⟩

end Trellis
