import Trellis.Proofs.Expr.AtHand

/-!
# Runs with `exports` spelled out

Where nothing is called `exports`, the short form writes what the long one does (`store_exports`), and
where `module` is no local variable either, it reads the same (`lookup_exports`). So a task with
`exports` spelled out ends as the task does, with `exports` spelled out in the functions that come of it
(`Task.Ends.spelled`, by induction on the rules).

The keys of an assignment stand one position further in the long form, and a function that is made in one
of them is made elsewhere. That this is not seen takes what is at hand to be made somewhere else
(`Task.Ends.shift`): nothing at hand is ever made where the task makes functions. When a part of a task
has made some, the part that runs next has them at hand, but makes its own elsewhere (`call_apart`,
`block_apart`, `moreStmts_apart`, `moreBindings_apart`).
-/

namespace Trellis

open Value

/-! ## 1. Reads and writes -/

section

variable {K : Nat → Prop} {n : Nat} {B : Place → Prop} {hidden : Bool} {f : Frame} {m : Machine}

/-- Where nothing is called `exports` and `module` is no local variable, the short form reads what the
    long one does. -/
theorem lookup_exports (hf : f.Holds K n B false) (hm : m.Holds K n B) (hk : f.module = n) :
    (f.lookup m "exports").getD .undefined =
      ((f.lookup m "module").getD .undefined).step (.name "exports") := by
  have hexports : Dict.get? f.locals "exports" = none := by
    simpa [Dict.has] using hf.undeclared hk
  have hmodule : Dict.get? f.locals "module" = none := by
    rw [← Option.not_isSome_iff_eq_none]
    exact fun h => Bool.false_ne_true (hf.hides hk h)
  rw [Frame.lookup, Frame.lookup, hexports, hmodule]
  dsimp only
  cases hglobals : m.module? f.module with
  | none => rfl
  | some g =>
    have hundeclared : Dict.get? g "exports" = none := by
      simpa [Dict.has] using hm.undeclared g (hk ▸ hglobals)
    dsimp only
    rw [hundeclared]
    cases Dict.get? g "module" <;> rfl

/-- Where nothing is called `exports`, the short form writes what the long one does. -/
theorem store_exports (hf : f.Holds K n B hidden) (hm : m.Holds K n B) (hk : f.module = n)
    (keys : List Key) (op : AssignOp) (v : Value) :
    f.store m "exports" keys op v = f.store m "module" (.name "exports" :: keys) op v := by
  have hshort : f.target m "exports" keys = ("module", .name "exports" :: keys) :=
    if_pos ⟨rfl, declares_exports hf hm hk⟩
  have hlong : f.target m "module" (.name "exports" :: keys) = ("module", .name "exports" :: keys) :=
    if_neg fun h => absurd h.1 (by decide)
  rw [Frame.store, Frame.store, hshort, hlong]

end

/-! ## 2. Tasks spelled out -/

/-- The revision by which `exports` is spelled out in the functions of the module `n`. -/
def Revision.spelling (n : Nat) : Revision :=
  ⟨id, fun module code => code.spelled (module == n), fun _ captured => captured⟩

theorem Revision.spelling_apart (n : Nat) : (Revision.spelling n).Apart := fun _ _ h => h

/-- A task with `exports` spelled out, in its code and in the functions at hand. -/
def Task.spelled (n : Nat) : {α : Type} → Task α → Task α
  | _, .expr s p e => .expr (s.revise (.spelling n)) p (e.spelled (s.own n))
  | _, .exprs s p i es => .exprs (s.revise (.spelling n)) p i (spelledAll (s.own n) es)
  | _, .fields s p i kes => .fields (s.revise (.spelling n)) p i (spelledFields (s.own n) kes)
  | _, .stmt p s f => .stmt p (s.spelled (f.module == n)) (f.revise (.spelling n))
  | _, .stmts p i body f => .stmts p i (spelledBody (f.module == n) body) (f.revise (.spelling n))
  | _, .bindings p i bs f => .bindings p i (spelledFields (f.module == n) bs) (f.revise (.spelling n))
  | _, .call p k code captured args =>
    .call p k (code.spelled (k == n)) (reviseFields (.spelling n) captured)
      (args.map (Value.revise (.spelling n)))

/-- What comes of a task, with `exports` spelled out. -/
def Task.revised (n : Nat) : {α : Type} → Task α → α → α
  | _, .expr _ _ _, v | _, .call _ _ _ _ _, v => v.revise (.spelling n)
  | _, .exprs _ _ _ _, vs => vs.map (Value.revise (.spelling n))
  | _, .fields _ _ _ _, kvs => reviseFields (.spelling n) kvs
  | _, .stmt _ _ _, r | _, .stmts _ _ _ _, r => (r.1.revise (.spelling n), r.2.revise (.spelling n))
  | _, .bindings _ _ _ _, f => f.revise (.spelling n)

section

variable {K : Nat → Prop} {n : Nat} {hidden : Bool} {α : Type} {t : Task α} {d : Nat} {m m' : Machine}
  {a : α} {bodies : List Nat}

theorem value_revise {g : Revision} (flow : Flow) : (flow.revise g).value = flow.value.revise g := by
  cases flow with
  | next =>
    rw [Flow.revise, Flow.value, revise]
  | left v => rfl

theorem eq_of_suffix {p q o : Place} (hp : p <:+ o) (hq : q <:+ o) (h : p.length = q.length) :
    p = q := by
  rcases List.suffix_or_suffix_of_suffix hp hq with hpq | hqp
  · exact hpq.eq_of_length h
  · exact (hqp.eq_of_length h.symm).symm

theorem not_suffix_of_ne {i j : Nat} (hij : i ≠ j) {p o : Place} (hi : (i :: p) <:+ o) :
    ¬ (j :: p) <:+ o := fun hj => hij (List.cons.inj (eq_of_suffix hi hj rfl)).1

theorem hoist_spelled {place : Place} (body : List Stmt) (i : Nat) (f : Frame) (m : Machine) :
    hoist place i (spelledBody (f.module == n) body) (f.revise (.spelling n)) (m.revise (.spelling n)) =
      Prod.map (Frame.revise (.spelling n)) (Machine.revise (.spelling n)) (hoist place i body f m) := by
  induction body generalizing i f m with
  | nil => rfl
  | cons s rest ih =>
    cases s with
    | function code =>
      rw [spelledBody, Stmt.spelled, hoist, hoist, Function.name_spelled]
      cases hname : code.name with
      | none => exact ih (i + 1) f m
      | some name =>
        have hmade : (Scope.frame (f.revise (.spelling n))).function (i :: place)
            (code.spelled (f.module == n)) =
            ((Scope.frame f).function (i :: place) code).revise (.spelling n) := rfl
        have hnext := ih (i + 1) (f.write m name ((Scope.frame f).function (i :: place) code)).1
          (f.write m name ((Scope.frame f).function (i :: place) code)).2
        rw [Frame.module_write] at hnext
        dsimp only
        rw [hmade, frame_write_revise]
        exact hnext
    | assign root keys op value =>
      rw [spelledBody, Stmt.spelled]
      split <;> exact ih (i + 1) f m
    | _ => exact ih (i + 1) f m

/-- A name with `exports` spelled out. -/
theorem Task.Ends.name_spelled {f : Frame} {B : Place → Prop} {p : Place} {x : String}
    (hf : f.Holds K n B hidden) (hm : m.Holds K n B) (hfits : f.module = n → (Expr.name x).Fits hidden) :
    (Task.expr (.frame (f.revise (.spelling n))) p ((Expr.name x).spelled (f.module == n))).Ends d
      (m.revise (.spelling n)) (((f.lookup m x).getD .undefined).revise (.spelling n))
      (m.revise (.spelling n)) [] := by
  rw [Expr.spelled]
  by_cases hshort : f.module = n ∧ x = "exports"
  · obtain ⟨hk, rfl⟩ := hshort
    obtain rfl : hidden = false := Expr.fits_name (hfits hk) rfl
    rw [hk, beq_self_eq_true, beq_self_eq_true, Bool.true_and, if_pos rfl, lookup_exports hf hm hk,
      ← step_revise, ← getD_lookup_revise]
    exact .member .name
  · rw [if_neg (by simpa using hshort), ← getD_lookup_revise]
    exact .name

/-- An assignment with `exports` spelled out. -/
theorem Task.Ends.assign_spelled {f : Frame} {B : Place → Prop} {p : Place} {root : String}
    {keys : List Expr} {op : AssignOp} {value : Expr} {v : Value} {ks : List Value} {b₁ b₂ : List Nat}
    (hf : f.Holds K n B hidden) (hm : m.Holds K n B) (happart : ∀ o, p <:+ o → ¬ B o)
    (hvalue : (Task.expr (.frame (f.revise (.spelling n))) (0 :: p)
      (value.spelled (f.module == n))).Ends d (m.revise (.spelling n)) (v.revise (.spelling n))
      (m.revise (.spelling n)) b₁)
    (hkeys : (Task.exprs (.frame (f.revise (.spelling n))) (1 :: p) 0
      (spelledAll (f.module == n) keys)).Ends d (m.revise (.spelling n))
      (ks.map (Value.revise (.spelling n))) (m.revise (.spelling n)) b₂) :
    ∃ b, (Task.stmt p ((Stmt.assign root keys op value).spelled (f.module == n))
      (f.revise (.spelling n))).Ends d (m.revise (.spelling n))
      (.next, (f.store m root (ks.map Key.ofValue) op v).1.revise (.spelling n))
      ((f.store m root (ks.map Key.ofValue) op v).2.revise (.spelling n)) b := by
  have hsame : (ks.map (Value.revise (.spelling n))).map Key.ofValue = ks.map Key.ofValue := by
    rw [List.map_map]
    exact List.map_congr_left fun k _ => ofValue_revise k
  have hstore := fun root keys => store_revise (Revision.spelling_apart n) f m root keys op v
  rw [Stmt.spelled]
  by_cases hshort : f.module = n ∧ root = "exports"
  · obtain ⟨hk, rfl⟩ := hshort
    -- the keys stand one position further, and nothing at hand was made there
    have hkeysApart : ∀ o k c cap, AtHand K n B o k c cap → ¬ (1 :: p) <:+ o :=
      fun o k c cap h ho => within_part happart 1 o ho h.1
    have hframe : (f.revise (.spelling n)).Each fun o _ _ _ => ¬ (1 :: p) <:+ o :=
      eachField_revise (fun _ _ => rfl) hkeysApart hf.each
    have hmachine : (m.revise (.spelling n)).Each fun o _ _ _ => ¬ (1 :: p) <:+ o := by
      intro g hg
      obtain ⟨g', hg', rfl⟩ := List.mem_map.mp hg
      exact eachField_revise (fun _ _ => rfl) hkeysApart (hm.each g' hg')
    obtain ⟨vs, b, hshifted, hvs⟩ := hkeys.shift hframe hmachine
    have hlonger : (Task.exprs (.frame (f.revise (.spelling n))) (1 :: p) 0
        (.literal (.string "exports") :: spelledAll (f.module == n) keys)).Ends d
        (m.revise (.spelling n)) (.string "exports" :: vs) (m.revise (.spelling n)) ([] ++ b) :=
      .moreExprs .literal hshifted
    have hend : (Task.stmt p (.assign "module" _ op _) _).Ends d _ _ _ _ := .assign hvalue hlonger
    rw [List.map_cons, hvs, hsame, hstore] at hend
    rw [hk, beq_self_eq_true, beq_self_eq_true, Bool.true_and, if_pos rfl, store_exports hf hm hk]
    rw [hk, beq_self_eq_true] at hend
    exact ⟨_, hend⟩
  · have hend : (Task.stmt p (.assign root _ op _) _).Ends d _ _ _ _ := .assign hvalue hkeys
    rw [hsame, hstore] at hend
    rw [if_neg (by simpa using hshort)]
    exact ⟨_, hend⟩

/-! ## 3. What is made in the course of a task -/

/-- The places that are not inside of a place. -/
def ApartFrom (p o : Place) : Prop := ¬ p <:+ o

/-- The places that are not inside of a row of parts, from the position `i` on. -/
def ApartFromRow (p : Place) (i : Nat) (o : Place) : Prop := ¬ ∃ j, i ≤ j ∧ (j :: p) <:+ o

/-- What is made in one part of a place is not made in another one, -/
theorem apartFrom_other {i j : Nat} (hij : i ≠ j) {p o : Place} (ho : (i :: p) <:+ o) :
    ApartFrom (j :: p) o := not_suffix_of_ne hij ho

/-- nor in a part of that, -/
theorem apartFromRow_other {i j : Nat} (hij : i ≠ j) {p o : Place} (ho : (i :: p) <:+ o) :
    ApartFromRow (j :: p) 0 o := fun ⟨_, _, h⟩ =>
  not_suffix_of_ne hij ho ((List.suffix_cons _ (j :: p)).trans h)

/-- nor in a later part of the same row. -/
theorem apartFromRow_later {i : Nat} {p o : Place} (ho : (i :: p) <:+ o) :
    ApartFromRow p (i + 1) o := fun ⟨_, hj, h⟩ => not_suffix_of_ne (by omega) ho h

section

variable {B : Place → Prop} {p : Place} {i : Nat} {f f₁ : Frame} {m₁ : Machine} {b₁ b₂ : List Nat}

/-- What a call gets was made apart from the place of the call: callee and arguments stand elsewhere. -/
theorem Task.Ends.call_apart {s : Scope} {callee : Expr} {args : List Expr} {origin : Place} {k : Nat}
    {code : Function} {captured : Dict Value} {vs : List Value}
    (h₁ : (Task.expr s (0 :: p) callee).Ends d m (.function origin k code captured) m b₁)
    (h₂ : (Task.exprs s (1 :: p) 0 args).Ends d m vs m b₂)
    (hfits : (Task.expr s p (.call callee args)).Fits K n B hidden) (hm : m.Holds K n B)
    (happart : ∀ o, p <:+ o → ¬ B o) :
    (Task.call (2 :: p) k code captured vs).Fits K n (ApartFrom (2 :: p)) hidden ∧
      m.Holds K n (ApartFrom (2 :: p)) := by
  have hplaces : ∀ o, B o → ApartFrom (2 :: p) o := fun o hB ho => within_part happart 2 o ho hB
  have hm' := hm.mono hplaces
  obtain ⟨hcalleeFits, hargsFits⟩ := (hfits.mono hplaces).call
  obtain ⟨hcallee, -⟩ := h₁.holds hcalleeFits hm' fun o => apartFrom_other (by decide)
  obtain ⟨hargs, -⟩ := h₂.holds hargsFits hm' (within_row (fun o => apartFrom_other (by decide)) 0)
  exact ⟨.applied hcallee hargs, hm'⟩

/-- The functions that a body declares are made apart from its statements. -/
theorem Task.Fits.block_apart {body : List Stmt}
    (hfits : (Task.stmt p (.block body) f).Fits K n B hidden) (hm : m.Holds K n B)
    (happart : ∀ o, p <:+ o → ¬ B o) :
    (Task.stmts (1 :: p) 0 body (hoist (0 :: p) 0 body f m).1).Fits K n (ApartFromRow (1 :: p) 0)
        (hidden || !f.atTop && hoists "module" body) ∧
      (hoist (0 :: p) 0 body f m).2.Holds K n (ApartFromRow (1 :: p) 0) ∧
      (hoist (0 :: p) 0 body f m).1.module = f.module := by
  have hplaces : ∀ o, B o → ApartFromRow (1 :: p) 0 o := fun o hB ho =>
    within_row (within_part happart 1) 0 o ho hB
  obtain ⟨hbody, hm₁, hf₁⟩ := (hfits.mono hplaces).block (hm.mono hplaces)
    fun i => apartFromRow_other (by decide) (List.suffix_cons i (0 :: p))
  exact ⟨hbody, hm₁, hf₁.module⟩

/-- What a statement makes is made apart from the statements behind it. -/
theorem Task.Ends.moreStmts_apart {st : Stmt} {rest : List Stmt}
    (h₁ : (Task.stmt (i :: p) st f).Ends d m (.next, f₁) m₁ b₁)
    (hfits : (Task.stmts p i (st :: rest) f).Fits K n B hidden) (hm : m.Holds K n B)
    (happart : ∀ o, (∃ j, i ≤ j ∧ (j :: p) <:+ o) → ¬ B o) :
    (Task.stmts p (i + 1) rest f₁).Fits K n (ApartFromRow p (i + 1))
        (hidden || !f.atTop && st.writes "module") ∧
      m₁.Holds K n (ApartFromRow p (i + 1)) ∧ f₁.module = f.module := by
  have hplaces : ∀ o, B o → ApartFromRow p (i + 1) o := fun o hB ho => within_tail happart o ho hB
  have hfits' := hfits.mono hplaces
  obtain ⟨⟨-, hf₁⟩, hm₁⟩ :=
    h₁.holds hfits'.firstStmt (hm.mono hplaces) fun o => apartFromRow_later
  exact ⟨hfits'.moreStmts hf₁, hm₁, hf₁.module⟩

/-- What the value of a variable makes is made apart from the bindings behind it. -/
theorem Task.Ends.moreBindings_apart {name : String} {e : Expr} {rest : List (String × Expr)}
    {v : Value}
    (h₁ : (Task.expr (.frame f) (i :: p) e).Ends d m v m₁ b₁)
    (hfits : (Task.bindings p i ((name, e) :: rest) f).Fits K n B hidden) (hm : m.Holds K n B)
    (happart : ∀ o, (∃ j, i ≤ j ∧ (j :: p) <:+ o) → ¬ B o) :
    (Task.bindings p (i + 1) rest (f.write m₁ name v).1).Fits K n (ApartFromRow p (i + 1))
        (hidden || !f.atTop && name == "module") ∧
      (f.write m₁ name v).2.Holds K n (ApartFromRow p (i + 1)) := by
  have hplaces : ∀ o, B o → ApartFromRow p (i + 1) o := fun o hB ho => within_tail happart o ho hB
  have hfits' := hfits.mono hplaces
  obtain ⟨hv, hm₁⟩ := h₁.holds hfits'.firstBinding (hm.mono hplaces) fun o => apartFromRow_later
  obtain ⟨hrest, hm₂, -⟩ := hfits'.moreBindings hm₁ hv
  exact ⟨hrest, hm₂⟩

end

/-! ## 4. Runs -/

/-- The body of a call with `exports` spelled out. -/
theorem Task.Ends.entered_spelled {p : Place} {k : Nat} {code : Function} {captured : Dict Value}
    {args : List Value} {flow : Flow} {f' : Frame} {b : List Nat} (hdepth : m.deeper.depth ≤ maxDepth)
    (hbody : ((Task.stmt p (.block code.body)
      ⟨bindParams code.params args captured, k, false⟩).spelled n).Ends (d + 1)
      (m.deeper.revise (.spelling n)) (flow.revise (.spelling n), f'.revise (.spelling n))
      (m'.revise (.spelling n)) b) :
    ((Task.call p k code captured args).spelled n).Ends d (m.revise (.spelling n))
      (flow.value.revise (.spelling n)) (m'.back.revise (.spelling n)) ((d + 1) :: b) := by
  rw [Task.spelled, Stmt.spelled, ← Function.body_spelled] at hbody
  have hdepth' : (m.revise (.spelling n)).deeper.depth ≤ maxDepth := hdepth
  have hend : (Task.call p k (code.spelled (k == n)) (reviseFields (.spelling n) captured)
      (args.map (Value.revise (.spelling n)))).Ends d _ _ (m'.revise (.spelling n)).back _ :=
    .entered hdepth' (by
      rw [Function.params_spelled, bindParams_revise]
      exact hbody)
  rw [← value_revise]
  exact hend

/-- **A task with `exports` spelled out comes to the same**, where nothing at hand was made at the places
    at which the task makes functions. -/
theorem Task.Ends.spelled {B : Place → Prop} (h : t.Ends d m a m' bodies) (hfits : t.Fits K n B hidden)
    (hm : m.Holds K n B) (happart : ∀ o, t.Makes o → ¬ B o) :
    ∃ bodies', (t.spelled n).Ends d (m.revise (.spelling n)) (t.revised n a) (m'.revise (.spelling n))
      bodies' := by
  induction h generalizing hidden B with
  | @literal _ _ _ l =>
    have hl : (Value.ofLiteral l).revise (.spelling n) = .ofLiteral l := by cases l <;> rfl
    simp only [Task.spelled, Task.revised, Expr.spelled, hl]
    exact ⟨[], .literal⟩
  | @name _ s _ x _ =>
    cases s with
    | page layers => exact hfits.1.elim
    | frame f => exact ⟨[], .name_spelled hfits.1 hm fun hk => hfits.2 (beq_iff_eq.mpr hk)⟩
  | member _ ih =>
    obtain ⟨b, hb⟩ := ih hfits.member hm (within_part happart 0)
    simp only [Task.spelled, Task.revised, Expr.spelled, ← step_revise]
    exact ⟨b, .member hb⟩
  | array _ ih =>
    obtain ⟨b, hb⟩ := ih hfits.array hm (within_row happart 0)
    simp only [Task.spelled, Task.revised, Expr.spelled, revise_array]
    exact ⟨b, .array hb⟩
  | object _ ih =>
    obtain ⟨b, hb⟩ := ih hfits.object hm (within_row happart 0)
    simp only [Task.spelled, Task.revised, Expr.spelled, revise, ← ofPairs_revise]
    exact ⟨b, .object hb⟩
  | @function _ s _ code _ =>
    cases s with
    | page layers => exact hfits.1.elim
    | frame f =>
      simp only [Task.spelled, Task.revised, Expr.spelled]
      exact ⟨[], .function⟩
  | unary _ ih =>
    obtain ⟨b, hb⟩ := ih hfits.unary hm (within_part happart 0)
    simp only [Task.spelled, Task.revised, Expr.spelled, ← unary_revise]
    exact ⟨b, .unary hb⟩
  | index h₁ _ ih₁ ih₂ =>
    obtain rfl := h₁.leaves trivial
    obtain ⟨b₁, hb₁⟩ := ih₁ hfits.index.1 hm (within_part happart 0)
    obtain ⟨b₂, hb₂⟩ := ih₂ hfits.index.2 hm (within_part happart 1)
    have hend := hb₁.index hb₂
    simp only [Task.revised, ofValue_revise, step_revise] at hend
    simp only [Task.spelled, Task.revised, Expr.spelled]
    exact ⟨_, hend⟩
  | binary h₁ _ ih₁ ih₂ =>
    obtain rfl := h₁.leaves trivial
    obtain ⟨b₁, hb₁⟩ := ih₁ hfits.binary.1 hm (within_part happart 0)
    obtain ⟨b₂, hb₂⟩ := ih₂ hfits.binary.2 hm (within_part happart 1)
    simp only [Task.spelled, Task.revised, Expr.spelled, ← binary_revise (Revision.spelling_apart n)]
    exact ⟨_, .binary hb₁ hb₂⟩
  | decided _ hdecided ih =>
    obtain ⟨b, hb⟩ := ih hfits.logical.1 hm (within_part happart 0)
    simp only [Task.spelled, Task.revised, Expr.spelled]
    exact ⟨b, .decided hb ((decided_revise _ _).trans hdecided)⟩
  | undecided h₁ hdecided _ ih₁ ih₂ =>
    obtain rfl := h₁.leaves trivial
    obtain ⟨b₁, hb₁⟩ := ih₁ hfits.logical.1 hm (within_part happart 0)
    obtain ⟨b₂, hb₂⟩ := ih₂ hfits.logical.2 hm (within_part happart 1)
    simp only [Task.spelled, Task.revised, Expr.spelled]
    exact ⟨_, .undecided hb₁ ((decided_revise _ _).trans hdecided) hb₂⟩
  | yes h₁ htest _ ih₁ ih₂ =>
    obtain rfl := h₁.leaves trivial
    obtain ⟨b₁, hb₁⟩ := ih₁ hfits.conditional.1 hm (within_part happart 0)
    obtain ⟨b₂, hb₂⟩ := ih₂ hfits.conditional.2.1 hm (within_part happart 1)
    simp only [Task.spelled, Task.revised, Expr.spelled]
    exact ⟨_, .yes hb₁ ((isTruthy_revise _).trans htest) hb₂⟩
  | no h₁ htest _ ih₁ ih₂ =>
    obtain rfl := h₁.leaves trivial
    obtain ⟨b₁, hb₁⟩ := ih₁ hfits.conditional.1 hm (within_part happart 0)
    obtain ⟨b₂, hb₂⟩ := ih₂ hfits.conditional.2.2 hm (within_part happart 2)
    simp only [Task.spelled, Task.revised, Expr.spelled]
    exact ⟨_, .no hb₁ ((isTruthy_revise _).trans htest) hb₂⟩
  | @notApplied _ _ _ _ _ _ v _ _ _ hother ih =>
    obtain ⟨b, hb⟩ := ih hfits.call.1 hm (within_part happart 0)
    simp only [Task.spelled, Task.revised, Expr.spelled, revise]
    refine ⟨b, .notApplied hb fun origin module code captured he => ?_⟩
    cases v with
    | function origin module code captured => exact hother _ _ _ _ rfl
    | _ => simp only [Task.revised, revise, reduceCtorEq] at he
  | applied h₁ h₂ _ ih₁ ih₂ ih₃ =>
    obtain rfl := h₁.leaves trivial
    obtain rfl := h₂.leaves trivial
    obtain ⟨b₁, hb₁⟩ := ih₁ hfits.call.1 hm (within_part happart 0)
    obtain ⟨b₂, hb₂⟩ := ih₂ hfits.call.2 hm (within_row (within_part happart 1) 0)
    obtain ⟨hcall, hm'⟩ := h₁.call_apart h₂ hfits hm happart
    obtain ⟨b₃, hb₃⟩ := ih₃ hcall hm' fun o ho hn => hn ho
    simp only [Task.spelled, Task.revised, Expr.spelled]
    exact ⟨_, .applied hb₁ hb₂ hb₃⟩
  | noExpr => exact ⟨[], .noExpr⟩
  | noField => exact ⟨[], .noField⟩
  | moreExprs h₁ _ ih₁ ih₂ =>
    obtain rfl := h₁.leaves trivial
    obtain ⟨b₁, hb₁⟩ := ih₁ hfits.moreExprs.1 hm (within_head happart)
    obtain ⟨b₂, hb₂⟩ := ih₂ hfits.moreExprs.2 hm (within_tail happart)
    exact ⟨_, .moreExprs hb₁ hb₂⟩
  | moreFields h₁ _ ih₁ ih₂ =>
    obtain rfl := h₁.leaves trivial
    obtain ⟨b₁, hb₁⟩ := ih₁ hfits.moreFields.1 hm (within_head happart)
    obtain ⟨b₂, hb₂⟩ := ih₂ hfits.moreFields.2 hm (within_tail happart)
    exact ⟨_, .moreFields hb₁ hb₂⟩
  | declare _ ih =>
    obtain ⟨b, hb⟩ := ih hfits.declare hm (within_row happart 0)
    simp only [Task.spelled, Task.revised, Stmt.spelled]
    exact ⟨b, .declare hb⟩
  | assign h₁ h₂ ih₁ ih₂ =>
    obtain rfl := h₁.leaves trivial
    obtain rfl := h₂.leaves trivial
    obtain ⟨b₁, hb₁⟩ := ih₁ hfits.assign.1 hm (within_part happart 0)
    obtain ⟨b₂, hb₂⟩ := ih₂ hfits.assign.2 hm (within_row (within_part happart 1) 0)
    exact Task.Ends.assign_spelled hfits.1 hm happart hb₁ hb₂
  | declared =>
    simp only [Task.spelled, Task.revised, Stmt.spelled]
    exact ⟨[], .declared⟩
  | empty =>
    simp only [Task.spelled, Task.revised, Stmt.spelled]
    exact ⟨[], .empty⟩
  | leave _ ih =>
    obtain ⟨b, hb⟩ := ih hfits.leave hm happart
    simp only [Task.spelled, Task.revised, Stmt.spelled]
    exact ⟨b, .leave hb⟩
  | run _ ih =>
    obtain ⟨b, hb⟩ := ih hfits.run hm happart
    simp only [Task.spelled, Task.revised, Stmt.spelled]
    exact ⟨b, .run hb⟩
  | branchYes h₁ htest _ ih₁ ih₂ =>
    obtain rfl := h₁.leaves trivial
    obtain ⟨b₁, hb₁⟩ := ih₁ hfits.branch.1 hm (within_part happart 0)
    obtain ⟨b₂, hb₂⟩ := ih₂ hfits.branch.2.1 hm (within_part happart 1)
    simp only [Task.spelled, Task.revised, Stmt.spelled]
    exact ⟨_, .branchYes hb₁ ((isTruthy_revise _).trans htest) hb₂⟩
  | branchNo h₁ htest _ ih₁ ih₂ =>
    obtain rfl := h₁.leaves trivial
    obtain ⟨b₁, hb₁⟩ := ih₁ hfits.branch.1 hm (within_part happart 0)
    obtain ⟨b₂, hb₂⟩ := ih₂ hfits.branch.2.2 hm (within_part happart 2)
    simp only [Task.spelled, Task.revised, Stmt.spelled]
    exact ⟨_, .branchNo hb₁ ((isTruthy_revise _).trans htest) hb₂⟩
  | block _ ih =>
    obtain ⟨hbody, hm₁, hmodule⟩ := hfits.block_apart hm happart
    obtain ⟨b, hb⟩ := ih hbody hm₁ fun o ho hn => hn ho
    rw [Task.spelled, hmodule] at hb
    simp only [Task.spelled, Task.revised, Stmt.spelled]
    refine ⟨b, .block ?_⟩
    rw [hoist_spelled]
    exact hb
  | noStmt => exact ⟨[], .noStmt⟩
  | noBinding => exact ⟨[], .noBinding⟩
  | moreStmts h₁ _ ih₁ ih₂ =>
    obtain ⟨b₁, hb₁⟩ := ih₁ hfits.firstStmt hm (within_head happart)
    obtain ⟨hrest, hm₁, hmodule⟩ := h₁.moreStmts_apart hfits hm happart
    obtain ⟨b₂, hb₂⟩ := ih₂ hrest hm₁ fun o ho hn => hn ho
    rw [Task.spelled, hmodule] at hb₂
    exact ⟨_, .moreStmts hb₁ hb₂⟩
  | leftStmts _ ih =>
    obtain ⟨b, hb⟩ := ih hfits.firstStmt hm (within_head happart)
    exact ⟨b, .leftStmts hb⟩
  | @moreBindings _ _ _ name _ _ f _ v m₁ _ _ _ _ h₁ _ ih₁ ih₂ =>
    obtain ⟨b₁, hb₁⟩ := ih₁ hfits.firstBinding hm (within_head happart)
    obtain ⟨hrest, hm₂⟩ := h₁.moreBindings_apart hfits hm happart
    obtain ⟨b₂, hb₂⟩ := ih₂ hrest hm₂ fun o ho hn => hn ho
    rw [Task.spelled, Frame.module_write] at hb₂
    refine ⟨b₁ ++ b₂, .moreBindings hb₁ ?_⟩
    rw [Task.revised, frame_write_revise (g := .spelling n) f m₁ name v]
    exact hb₂
  | cutOff hdeep => exact ⟨[], .cutOff hdeep⟩
  | entered hdepth _ ih =>
    obtain ⟨hidden', hbody⟩ := hfits.body
    obtain ⟨b, hb⟩ := ih hbody ⟨hm.each, hm.undeclared⟩ happart
    exact ⟨_, .entered_spelled hdepth hb⟩

end

end Trellis
