import Trellis.Proofs.Expr.Shift
import Trellis.Proofs.Expr.Spelling

/-!
# What scripts have at hand

A run starts with the functions in its variables and in the globals, and makes functions at its own
places (`Task.Makes`). All functions that it has at hand later are among these, and if `exports` was no
variable before, and none was captured, then it is none later (`Task.Ends.holds`, by induction on the
rules). What fits a task fits its parts (`Task.Fits`, one lemma for each rule). How `module` can have
become a local variable meanwhile is what the code tells (`Stmt.writes`).
-/

namespace Trellis

open Value

/-! ## 1. Functions at hand -/

/-- In a function that belongs to the module `n`, `exports` can be spelled out: it has not captured a
    variable of that name, and it does not read the short form where it may have captured `module`. -/
def Spellable (K : Nat → Prop) (n module : Nat) (code : Function) (captured : Dict Value) : Prop :=
  K module ∧ (module = n → Dict.has captured "exports" = false ∧
    ∃ hidden, (Dict.has captured "module" = true → hidden = true) ∧ code.Fits hidden)

/-- What is known of the functions at hand: where they were made, and that `exports` can be spelled out
    in them. -/
def AtHand (K : Nat → Prop) (n : Nat) (B : Place → Prop) (origin : Place) (module : Nat)
    (code : Function) (captured : Dict Value) : Prop := B origin ∧ Spellable K n module code captured

/-- A frame holds such functions only. In the module `n` it has no variable `exports`, and a variable
    `module` at most when that is `hidden`. -/
structure Frame.Holds (K : Nat → Prop) (n : Nat) (B : Place → Prop) (hidden : Bool) (f : Frame) :
    Prop where
  each : EachField (AtHand K n B) f.locals
  known : K f.module
  undeclared : f.module = n → Dict.has f.locals "exports" = false
  hides : f.module = n → Dict.has f.locals "module" = true → hidden = true
  top : f.atTop = true → f.locals = []

/-- A machine holds such functions only, and the module `n` has no global `exports`. -/
structure Machine.Holds (K : Nat → Prop) (n : Nat) (B : Place → Prop) (m : Machine) : Prop where
  each : m.Each (AtHand K n B)
  undeclared : ∀ g, m.module? n = some g → Dict.has g "exports" = false

/-- A scope of a script holds such functions only. -/
def Scope.Holds (K : Nat → Prop) (n : Nat) (B : Place → Prop) (hidden : Bool) : Scope → Prop
  | .page _ => False
  | .frame f => f.Holds K n B hidden

/-- Whether the scope is one of the module `n`. -/
def Scope.own (n : Nat) : Scope → Bool
  | .page _ => false
  | .frame f => f.module == n

/-- The value with which a body is left holds such functions only. -/
def Flow.Each (P : Place → Nat → Function → Dict Value → Prop) : Flow → Prop
  | .next => True
  | .left v => Value.Each P v

section

variable {K : Nat → Prop} {n : Nat} {B B' : Place → Prop} {hidden hidden' : Bool} {f : Frame}
  {m : Machine}

theorem AtHand.mono (hB : ∀ o, B o → B' o) (o : Place) (k : Nat) (c : Function) (cap : Dict Value)
    (h : AtHand K n B o k c cap) : AtHand K n B' o k c cap := ⟨hB o h.1, h.2⟩

theorem Frame.Holds.mono (hB : ∀ o, B o → B' o) (hhidden : hidden = true → hidden' = true)
    (hf : f.Holds K n B hidden) : f.Holds K n B' hidden' where
  each := hf.each.mono (AtHand.mono hB)
  known := hf.known
  undeclared := hf.undeclared
  hides hk h := hhidden (hf.hides hk h)
  top := hf.top

theorem Machine.Holds.mono (hB : ∀ o, B o → B' o) (hm : m.Holds K n B) : m.Holds K n B' where
  each := hm.each.mono (AtHand.mono hB)
  undeclared := hm.undeclared

theorem Scope.Holds.mono {s : Scope} (hB : ∀ o, B o → B' o) (hs : s.Holds K n B hidden) :
    s.Holds K n B' hidden := by
  cases s with
  | page layers => exact hs
  | frame f => exact Frame.Holds.mono hB id hs

/-! ## 2. Variables -/

theorem each_lookup (hf : f.Holds K n B hidden) (hm : m.Holds K n B) (x : String) :
    Each (AtHand K n B) ((f.lookup m x).getD .undefined) := by
  refine each_getD fun w hw => ?_
  rw [Frame.lookup] at hw
  split at hw
  · rename_i v hv
    cases hw
    exact each_get? hf.each hv
  · split at hw
    · cases hw
    · rename_i g hg
      have hglobals : EachField (AtHand K n B) g := hm.each g (List.mem_of_getElem? hg)
      split at hw
      · rename_i v hv
        cases hw
        exact each_get? hglobals hv
      · split at hw
        · obtain ⟨v, hv, rfl⟩ := Option.map_eq_some_iff.mp hw
          exact each_getPath (each_get? hglobals hv) _
        · cases hw

/-- Nothing has the name `exports` in the module. -/
theorem declares_exports (hf : f.Holds K n B hidden) (hm : m.Holds K n B) (hk : f.module = n) :
    f.declares m "exports" = false := by
  rw [Frame.declares, hf.undeclared hk, Bool.false_or, hk]
  split
  · rename_i g hg
    exact hm.undeclared g hg
  · rfl

/-- A function that is made in a frame holds what the frame does. -/
theorem each_function (hf : f.Holds K n B hidden) {place : Place} (hplace : B place) {code : Function}
    (hcode : f.module = n → code.Fits hidden) :
    Each (AtHand K n B) ((Scope.frame f).function place code) :=
  ⟨⟨hplace, hf.known, fun hk => ⟨hf.undeclared hk, hidden, hf.hides hk, hcode hk⟩⟩, hf.each⟩

theorem each_combine {P : Place → Nat → Function → Dict Value → Prop} (op : AssignOp) (current : Value)
    {v : Value} (hv : Each P v) : Each P (op.combine current v) := by
  cases op with
  | set => exact hv
  | add => exact each_binary .add current v
  | sub => exact each_binary .sub current v

theorem Machine.Holds.write (hm : m.Holds K n B) {k : Nat} {name : String}
    (hname : k = n → name ≠ "exports") {v : Value} (hv : Value.Each (AtHand K n B) v) :
    (m.write k name v).Holds K n B where
  each := by
    intro g hg
    obtain ⟨j, hj⟩ := List.mem_iff_getElem?.mp hg
    rw [Machine.write, List.getElem?_modify] at hj
    obtain ⟨g', hg', rfl⟩ := Option.map_eq_some_iff.mp hj
    have hglobals : EachField (AtHand K n B) g' := hm.each g' (List.mem_of_getElem? hg')
    split
    · exact eachField_insert hglobals name hv
    · exact hglobals
  undeclared := by
    intro g hg
    rw [Machine.module?, Machine.write, List.getElem?_modify] at hg
    obtain ⟨g', hg', rfl⟩ := Option.map_eq_some_iff.mp hg
    split
    · rename_i hk
      rw [Dict.has_insert, hm.undeclared g' hg', beq_eq_false_iff_ne.mpr (hname hk), Bool.false_or]
    · exact hm.undeclared g' hg'

theorem Frame.Holds.write (hf : f.Holds K n B hidden) (hm : m.Holds K n B) {name : String}
    (hname : f.module = n → name ≠ "exports") {v : Value} (hv : Value.Each (AtHand K n B) v) :
    (f.write m name v).1.Holds K n B (hidden || !f.atTop && name == "module") ∧
      (f.write m name v).2.Holds K n B := by
  rw [Frame.write]
  split
  · exact ⟨hf.mono (fun _ => id) fun h => by rw [h, Bool.true_or], hm.write hname hv⟩
  · rename_i htop
    rw [Bool.not_eq_true] at htop
    refine ⟨⟨eachField_insert hf.each name hv, hf.known, fun hk => ?_, fun hk h => ?_, fun h => ?_⟩, hm⟩
    · rw [Dict.has_insert, hf.undeclared hk, beq_eq_false_iff_ne.mpr (hname hk), Bool.false_or]
    · rw [Dict.has_insert, Bool.or_eq_true] at h
      rw [htop, Bool.not_false, Bool.true_and, Bool.or_eq_true]
      exact h.symm.imp_left (hf.hides hk)
    · rw [htop] at h
      cases h

theorem Frame.Holds.store (hf : f.Holds K n B hidden) (hm : m.Holds K n B) (root : String)
    (keys : List Key) (op : AssignOp) {v : Value} (hv : Value.Each (AtHand K n B) v) :
    (f.store m root keys op v).1.Holds K n B
        (hidden || !f.atTop && (root == "module" || root == "exports")) ∧
      (f.store m root keys op v).2.Holds K n B := by
  -- what is written is `module` or a variable of that name, and never `exports` in the module `n`
  have hwrite : ∀ (name : String) (keys : List Key), (f.module = n → name ≠ "exports") →
      (name = "module" → root = "module" ∨ root = "exports") →
      let base := (f.lookup m name).getD .undefined
      let x := base.setPath keys (op.combine (base.getPath keys) v)
      (f.write m name x).1.Holds K n B (hidden || !f.atTop && (root == "module" || root == "exports")) ∧
        (f.write m name x).2.Holds K n B := by
    intro name keys hname hroot base x
    have hbase : Value.Each (AtHand K n B) base := each_lookup hf hm name
    obtain ⟨hwritten, hmachine⟩ := hf.write hm hname (each_setPath hbase keys (each_combine op _ hv))
    refine ⟨hwritten.mono (fun _ => id) fun h => ?_, hmachine⟩
    rw [Bool.or_eq_true, Bool.and_eq_true, beq_iff_eq] at h
    rw [Bool.or_eq_true, Bool.and_eq_true, Bool.or_eq_true, beq_iff_eq, beq_iff_eq]
    exact h.imp_right (And.imp_right hroot)
  rw [Frame.store, Frame.target]
  by_cases hexports : root = "exports" ∧ f.declares m "exports" = false
  · rw [if_pos hexports]
    exact hwrite "module" (.name "exports" :: keys) (fun _ => by decide) fun _ => .inr hexports.1
  · rw [if_neg hexports]
    exact hwrite root keys (fun hk he => hexports ⟨he, declares_exports hf hm hk⟩) .inl

theorem eachField_bindParams {P : Place → Nat → Function → Dict Value → Prop} {d : Dict Value}
    (hd : EachField P d) (ps : List String) {vs : List Value} (hvs : EachItem P vs) :
    EachField P (bindParams ps vs d) := by
  induction ps generalizing vs d with
  | nil => exact hd
  | cons p ps ih =>
    cases vs with
    | nil =>
      have hmissing : Each P .undefined := trivial
      exact ih (eachField_insert hd p hmissing) hvs
    | cons v vs => exact ih (eachField_insert hd p hvs.1) hvs.2

/-- The frame of a call holds what the function and the arguments do. -/
theorem holds_bindParams {k : Nat} {code : Function} {captured : Dict Value}
    (hcode : Spellable K n k code captured) (hcaptured : EachField (AtHand K n B) captured)
    {args : List Value} (hargs : EachItem (AtHand K n B) args) :
    ∃ hidden, Frame.Holds K n B hidden ⟨bindParams code.params args captured, k, false⟩ ∧
      (k = n → (Stmt.block code.body).Fits true hidden) := by
  by_cases hk : k = n
  · obtain ⟨hundeclared, hidden, hhidden, hfits⟩ := hcode.2 hk
    obtain ⟨hparams, hbody⟩ := Function.fits_iff.mp hfits
    refine ⟨hidden || code.params.contains "module",
      ⟨eachField_bindParams hcaptured _ hargs, hcode.1, fun _ => ?_, fun _ h => ?_, nofun⟩,
      fun _ => hbody⟩
    · rw [has_bindParams, hundeclared, Bool.or_false, List.contains_eq_mem, decide_eq_false hparams]
    · rw [has_bindParams, Bool.or_eq_true] at h
      rw [Bool.or_eq_true]
      exact h.symm.imp_left hhidden
  · exact ⟨true, ⟨eachField_bindParams hcaptured _ hargs, hcode.1, fun h => absurd h hk, fun _ _ => rfl,
      nofun⟩, fun h => absurd h hk⟩

/-- The functions that a body declares are made of what the frame holds. -/
theorem Frame.Holds.hoisted {place : Place} (hplace : ∀ i, B (i :: place)) {body : List Stmt} {i : Nat}
    (hf : f.Holds K n B hidden) (hm : m.Holds K n B) (hbody : f.module = n → FitsHoisted hidden body)
    (hhidden : f.atTop = false → hoists "module" body = true → hidden = true) :
    (hoist place i body f m).1.Holds K n B hidden ∧ (hoist place i body f m).2.Holds K n B ∧
      (hoist place i body f m).1.module = f.module ∧ (hoist place i body f m).1.atTop = f.atTop := by
  induction body generalizing i f m with
  | nil => exact ⟨hf, hm, rfl, rfl⟩
  | cons s rest ih =>
    have hrest : f.module = n → FitsHoisted hidden rest := fun hk => fitsHoisted_cons (hbody hk)
    cases s with
    | function code =>
      have hlater : f.atTop = false → hoists "module" rest = true → hidden = true := fun htop h =>
        hhidden htop (by rw [hoists, h, Bool.or_true])
      cases hname : code.name with
      | none =>
        rw [hoist, hname]
        exact ih hf hm hrest hlater
      | some name =>
        have hcode := fun hk => fitsHoisted_function (hbody hk)
        obtain ⟨hwritten, hmachine⟩ := hf.write hm
          (fun hk he => (hcode hk).1 (hname.trans (congrArg some he)))
          (each_function hf (hplace i) fun hk => (hcode hk).2)
        have hsame : (hidden || !f.atTop && name == "module") = true → hidden = true := by
          intro h
          rw [Bool.or_eq_true, Bool.and_eq_true, Bool.not_eq_true', beq_iff_eq] at h
          refine h.elim id fun h => hhidden h.1 ?_
          rw [hoists, hname, h.2, beq_self_eq_true, Bool.true_or]
        have hnext := ih (i := i + 1) (hwritten.mono (fun _ => id) hsame) hmachine
          (by rwa [Frame.module_write]) (by rwa [Frame.atTop_write])
        rw [Frame.module_write, Frame.atTop_write] at hnext
        rw [hoist, hname]
        exact hnext
    | _ => exact ih hf hm hrest hhidden

end

/-! ## 3. Tasks -/

/-- The places where a task may make functions. -/
def Task.Makes : {α : Type} → Task α → Place → Prop
  | _, .expr _ p _, o | _, .stmt p _ _, o | _, .call p _ _ _ _, o => p <:+ o
  | _, .exprs _ p i _, o | _, .fields _ p i _, o | _, .stmts p i _ _, o | _, .bindings p i _ _, o =>
    ∃ j, i ≤ j ∧ (j :: p) <:+ o

/-- A task has functions at hand of which `AtHand` is known, and in the module `n` it is code in which
    `exports` can be spelled out. -/
def Task.Fits (K : Nat → Prop) (n : Nat) (B : Place → Prop) (hidden : Bool) : {α : Type} → Task α → Prop
  | _, .expr s _ e => s.Holds K n B hidden ∧ (s.own n = true → e.Fits hidden)
  | _, .exprs s _ _ es => s.Holds K n B hidden ∧ (s.own n = true → FitsAll hidden es)
  | _, .fields s _ _ kes => s.Holds K n B hidden ∧ (s.own n = true → FitsFields hidden kes)
  | _, .stmt _ s f => f.Holds K n B hidden ∧ (f.module = n → s.Fits (!f.atTop) hidden)
  | _, .stmts _ _ body f => f.Holds K n B hidden ∧ (f.module = n → FitsBody (!f.atTop) hidden body)
  | _, .bindings _ _ bs f => f.Holds K n B hidden ∧ (f.module = n → FitsBindings (!f.atTop) hidden bs)
  | _, .call _ k code captured args =>
    Spellable K n k code captured ∧ EachField (AtHand K n B) captured ∧ EachItem (AtHand K n B) args

/-- A frame comes of another one in which statements were run. -/
structure Frame.Follows (K : Nat → Prop) (n : Nat) (B : Place → Prop) (hidden : Bool) (f f' : Frame) :
    Prop where
  holds : f'.Holds K n B hidden
  module : f'.module = f.module
  atTop : f'.atTop = f.atTop

/-- What comes of a task has such functions at hand, too. -/
def Task.Yields (K : Nat → Prop) (n : Nat) (B : Place → Prop) (hidden : Bool) :
    {α : Type} → Task α → α → Prop
  | _, .expr _ _ _, v | _, .call _ _ _ _ _, v => Each (AtHand K n B) v
  | _, .exprs _ _ _ _, vs => EachItem (AtHand K n B) vs
  | _, .fields _ _ _ _, kvs => EachField (AtHand K n B) kvs
  | _, .stmt _ s f, r =>
    r.1.Each (AtHand K n B) ∧ f.Follows K n B (hidden || !f.atTop && s.writes "module") r.2
  | _, .stmts _ _ body f, r =>
    r.1.Each (AtHand K n B) ∧ f.Follows K n B (hidden || !f.atTop && writesBody "module" body) r.2
  | _, .bindings _ _ bs f, f' =>
    f.Follows K n B (hidden || !f.atTop && bs.any fun b => b.1 == "module") f'

section

variable {K : Nat → Prop} {n : Nat} {B : Place → Prop} {hidden : Bool}

theorem Frame.Holds.follows {f : Frame} (hf : f.Holds K n B hidden) (hides : Bool) :
    f.Follows K n B (hidden || hides) f :=
  ⟨hf.mono (fun _ => id) fun h => by rw [h, Bool.true_or], rfl, rfl⟩

theorem Frame.Follows.widen {f f' : Frame} {hides hides' : Bool}
    (h : f.Follows K n B (hidden || !f.atTop && hides) f') (hhides : hides = true → hides' = true) :
    f.Follows K n B (hidden || !f.atTop && hides') f' := by
  refine ⟨h.holds.mono (fun _ => id) fun h => ?_, h.module, h.atTop⟩
  rw [Bool.or_eq_true, Bool.and_eq_true] at h ⊢
  exact h.imp_right (And.imp_right hhides)

theorem Frame.Follows.trans {f f₁ f₂ : Frame} {hides hides' : Bool}
    (h₁ : f.Follows K n B (hidden || !f.atTop && hides) f₁)
    (h₂ : f₁.Follows K n B (hidden || !f.atTop && hides || !f₁.atTop && hides') f₂) :
    f.Follows K n B (hidden || !f.atTop && (hides || hides')) f₂ := by
  obtain ⟨hholds, hmodule, htop⟩ := h₂
  rw [h₁.atTop, Bool.or_assoc, ← Bool.and_or_distrib_left] at hholds
  exact ⟨hholds, hmodule.trans h₁.module, htop.trans h₁.atTop⟩

theorem Flow.Each.value {P : Place → Nat → Function → Dict Value → Prop} {flow : Flow}
    (h : flow.Each P) : Value.Each P flow.value := by
  cases flow with
  | next => exact trivial
  | left v => exact h

end

/-! ## 4. Places of parts -/

section

variable {P : Place → Prop} {p : Place} {i : Nat}

/-- What holds at the places inside of a place holds inside of a part of it, -/
theorem within_part (h : ∀ o, p <:+ o → P o) (j : Nat) : ∀ o, (j :: p) <:+ o → P o :=
  fun o ho => h o ((List.suffix_cons j p).trans ho)

/-- and inside of a row of parts. -/
theorem within_row (h : ∀ o, p <:+ o → P o) (i : Nat) :
    ∀ o, (∃ j, i ≤ j ∧ (j :: p) <:+ o) → P o :=
  fun o ⟨j, _, ho⟩ => within_part h j o ho

/-- What holds inside of a row holds inside of its first part, -/
theorem within_head (h : ∀ o, (∃ j, i ≤ j ∧ (j :: p) <:+ o) → P o) :
    ∀ o, (i :: p) <:+ o → P o :=
  fun o ho => h o ⟨i, Nat.le_refl i, ho⟩

/-- and inside of the rest of the row. -/
theorem within_tail (h : ∀ o, (∃ j, i ≤ j ∧ (j :: p) <:+ o) → P o) :
    ∀ o, (∃ j, i + 1 ≤ j ∧ (j :: p) <:+ o) → P o :=
  fun o ⟨j, hj, ho⟩ => h o ⟨j, Nat.le_of_succ_le hj, ho⟩

end

/-! ## 5. Parts of a task -/

namespace Task.Fits

variable {K : Nat → Prop} {n : Nat} {B B' : Place → Prop} {hidden : Bool} {s : Scope}
  {f f₁ : Frame} {m : Machine} {p : Place} {i : Nat}

theorem mono {α : Type} {t : Task α} (hB : ∀ o, B o → B' o) (h : t.Fits K n B hidden) :
    t.Fits K n B' hidden := by
  cases t with
  | expr | exprs | fields => exact ⟨h.1.mono hB, h.2⟩
  | stmt | stmts | bindings => exact ⟨h.1.mono hB id, h.2⟩
  | call => exact ⟨h.1, h.2.1.mono (AtHand.mono hB), h.2.2.mono (AtHand.mono hB)⟩

theorem member {base : Expr} {field : String}
    (h : (Task.expr s p (.member base field)).Fits K n B hidden) :
    (Task.expr s (0 :: p) base).Fits K n B hidden := ⟨h.1, fun ho => Expr.fits_member.mp (h.2 ho)⟩

theorem array {items : List Expr} (h : (Task.expr s p (.array items)).Fits K n B hidden) :
    (Task.exprs s p 0 items).Fits K n B hidden := ⟨h.1, fun ho => Expr.fits_array.mp (h.2 ho)⟩

theorem object {fields : List (String × Expr)}
    (h : (Task.expr s p (.object fields)).Fits K n B hidden) :
    (Task.fields s p 0 fields).Fits K n B hidden := ⟨h.1, fun ho => Expr.fits_object.mp (h.2 ho)⟩

theorem unary {op : UnaryOp} {operand : Expr}
    (h : (Task.expr s p (.unary op operand)).Fits K n B hidden) :
    (Task.expr s (0 :: p) operand).Fits K n B hidden :=
  ⟨h.1, fun ho => Expr.fits_unary.mp (h.2 ho)⟩

theorem index {base key : Expr} (h : (Task.expr s p (.index base key)).Fits K n B hidden) :
    (Task.expr s (0 :: p) base).Fits K n B hidden ∧ (Task.expr s (1 :: p) key).Fits K n B hidden :=
  ⟨⟨h.1, fun ho => (Expr.fits_index.mp (h.2 ho)).1⟩,
    h.1, fun ho => (Expr.fits_index.mp (h.2 ho)).2⟩

theorem binary {op : BinaryOp} {left right : Expr}
    (h : (Task.expr s p (.binary op left right)).Fits K n B hidden) :
    (Task.expr s (0 :: p) left).Fits K n B hidden ∧ (Task.expr s (1 :: p) right).Fits K n B hidden :=
  ⟨⟨h.1, fun ho => (Expr.fits_binary.mp (h.2 ho)).1⟩,
    h.1, fun ho => (Expr.fits_binary.mp (h.2 ho)).2⟩

theorem logical {op : LogicOp} {left right : Expr}
    (h : (Task.expr s p (.logical op left right)).Fits K n B hidden) :
    (Task.expr s (0 :: p) left).Fits K n B hidden ∧ (Task.expr s (1 :: p) right).Fits K n B hidden :=
  ⟨⟨h.1, fun ho => (Expr.fits_logical.mp (h.2 ho)).1⟩,
    h.1, fun ho => (Expr.fits_logical.mp (h.2 ho)).2⟩

theorem conditional {test yes no : Expr}
    (h : (Task.expr s p (.conditional test yes no)).Fits K n B hidden) :
    (Task.expr s (0 :: p) test).Fits K n B hidden ∧ (Task.expr s (1 :: p) yes).Fits K n B hidden ∧
      (Task.expr s (2 :: p) no).Fits K n B hidden :=
  ⟨⟨h.1, fun ho => (Expr.fits_conditional.mp (h.2 ho)).1⟩,
    ⟨h.1, fun ho => (Expr.fits_conditional.mp (h.2 ho)).2.1⟩,
    h.1, fun ho => (Expr.fits_conditional.mp (h.2 ho)).2.2⟩

theorem call {callee : Expr} {args : List Expr}
    (h : (Task.expr s p (.call callee args)).Fits K n B hidden) :
    (Task.expr s (0 :: p) callee).Fits K n B hidden ∧
      (Task.exprs s (1 :: p) 0 args).Fits K n B hidden :=
  ⟨⟨h.1, fun ho => (Expr.fits_call.mp (h.2 ho)).1⟩,
    h.1, fun ho => (Expr.fits_call.mp (h.2 ho)).2⟩

theorem moreExprs {e : Expr} {es : List Expr}
    (h : (Task.exprs s p i (e :: es)).Fits K n B hidden) :
    (Task.expr s (i :: p) e).Fits K n B hidden ∧ (Task.exprs s p (i + 1) es).Fits K n B hidden :=
  ⟨⟨h.1, fun ho => (fitsAll_cons.mp (h.2 ho)).1⟩, h.1, fun ho => (fitsAll_cons.mp (h.2 ho)).2⟩

theorem moreFields {k : String} {e : Expr} {kes : List (String × Expr)}
    (h : (Task.fields s p i ((k, e) :: kes)).Fits K n B hidden) :
    (Task.expr s (i :: p) e).Fits K n B hidden ∧ (Task.fields s p (i + 1) kes).Fits K n B hidden :=
  ⟨⟨h.1, fun ho => (fitsFields_cons.mp (h.2 ho)).1⟩,
    h.1, fun ho => (fitsFields_cons.mp (h.2 ho)).2⟩

/-- What a function is called with was at hand. -/
theorem applied {origin : Place} {k : Nat} {code : Function} {captured : Dict Value} {vs : List Value}
    (hcallee : Each (AtHand K n B) (.function origin k code captured))
    (hargs : EachItem (AtHand K n B) vs) : (Task.call p k code captured vs).Fits K n B hidden :=
  ⟨hcallee.1.2, hcallee.2, hargs⟩

/-- The body of a function that is called. -/
theorem body {k : Nat} {code : Function} {captured : Dict Value} {args : List Value}
    (h : (Task.call p k code captured args).Fits K n B hidden) :
    ∃ hidden', (Task.stmt p (.block code.body)
      ⟨bindParams code.params args captured, k, false⟩).Fits K n B hidden' := by
  obtain ⟨hspellable, hcaptured, hargs⟩ := h
  exact holds_bindParams hspellable hcaptured hargs

theorem declare {bs : List (String × Expr)} (h : (Task.stmt p (.declare bs) f).Fits K n B hidden) :
    (Task.bindings p 0 bs f).Fits K n B hidden := ⟨h.1, fun hk => Stmt.fits_declare.mp (h.2 hk)⟩

theorem assign {root : String} {keys : List Expr} {op : AssignOp} {value : Expr}
    (h : (Task.stmt p (.assign root keys op value) f).Fits K n B hidden) :
    (Task.expr (.frame f) (0 :: p) value).Fits K n B hidden ∧
      (Task.exprs (.frame f) (1 :: p) 0 keys).Fits K n B hidden :=
  ⟨⟨h.1, fun ho => (Stmt.fits_assign.mp (h.2 (beq_iff_eq.mp ho))).1⟩,
    h.1, fun ho => (Stmt.fits_assign.mp (h.2 (beq_iff_eq.mp ho))).2⟩

theorem leave {value : Expr} (h : (Task.stmt p (.leave value) f).Fits K n B hidden) :
    (Task.expr (.frame f) p value).Fits K n B hidden :=
  ⟨h.1, fun ho => Stmt.fits_leave.mp (h.2 (beq_iff_eq.mp ho))⟩

theorem run {e : Expr} (h : (Task.stmt p (.run e) f).Fits K n B hidden) :
    (Task.expr (.frame f) p e).Fits K n B hidden :=
  ⟨h.1, fun ho => Stmt.fits_run.mp (h.2 (beq_iff_eq.mp ho))⟩

theorem branch {test : Expr} {yes no : Stmt}
    (h : (Task.stmt p (.branch test yes no) f).Fits K n B hidden) :
    (Task.expr (.frame f) (0 :: p) test).Fits K n B hidden ∧
      (Task.stmt (1 :: p) yes f).Fits K n B hidden ∧ (Task.stmt (2 :: p) no f).Fits K n B hidden :=
  ⟨⟨h.1, fun ho => (Stmt.fits_branch.mp (h.2 (beq_iff_eq.mp ho))).1⟩,
    ⟨h.1, fun hk => (Stmt.fits_branch.mp (h.2 hk)).2.1⟩,
    h.1, fun hk => (Stmt.fits_branch.mp (h.2 hk)).2.2⟩

/-- A body starts with the functions that it declares. -/
theorem block {body : List Stmt} (h : (Task.stmt p (.block body) f).Fits K n B hidden)
    (hm : m.Holds K n B) (hplace : ∀ i, B (i :: 0 :: p)) :
    (Task.stmts (1 :: p) 0 body (hoist (0 :: p) 0 body f m).1).Fits K n B
        (hidden || !f.atTop && hoists "module" body) ∧
      (hoist (0 :: p) 0 body f m).2.Holds K n B ∧
      f.Follows K n B (hidden || !f.atTop && hoists "module" body) (hoist (0 :: p) 0 body f m).1 := by
  have hbody := fun hk => Stmt.fits_block.mp (h.2 hk)
  have hhidden : f.atTop = false → hoists "module" body = true →
      (hidden || !f.atTop && hoists "module" body) = true := by
    intro htop hhoists
    rw [htop, hhoists, Bool.not_false, Bool.true_and, Bool.or_true]
  obtain ⟨hf₁, hm₁, hmodule, htop⟩ :=
    (h.1.follows _).holds.hoisted hplace hm (i := 0) (fun hk => (hbody hk).1) hhidden
  refine ⟨⟨hf₁, fun hk => ?_⟩, hm₁, hf₁, hmodule, htop⟩
  rw [htop]
  exact (hbody (hmodule.symm.trans hk)).2

theorem firstStmt {st : Stmt} {rest : List Stmt}
    (h : (Task.stmts p i (st :: rest) f).Fits K n B hidden) :
    (Task.stmt (i :: p) st f).Fits K n B hidden := ⟨h.1, fun hk => (fitsBody_cons.mp (h.2 hk)).1⟩

/-- The statements behind one that was run start with the frame that it left. -/
theorem moreStmts {st : Stmt} {rest : List Stmt}
    (h : (Task.stmts p i (st :: rest) f).Fits K n B hidden)
    (hf₁ : f.Follows K n B' (hidden || !f.atTop && st.writes "module") f₁) :
    (Task.stmts p (i + 1) rest f₁).Fits K n B' (hidden || !f.atTop && st.writes "module") := by
  refine ⟨hf₁.holds, fun hk => ?_⟩
  rw [hf₁.atTop]
  exact (fitsBody_cons.mp (h.2 (hf₁.module.symm.trans hk))).2

theorem firstBinding {name : String} {e : Expr} {rest : List (String × Expr)}
    (h : (Task.bindings p i ((name, e) :: rest) f).Fits K n B hidden) :
    (Task.expr (.frame f) (i :: p) e).Fits K n B hidden :=
  ⟨h.1, fun ho => (fitsBindings_cons.mp (h.2 (beq_iff_eq.mp ho))).2.1⟩

/-- The bindings behind one that was made start with its variable written. -/
theorem moreBindings {name : String} {e : Expr} {rest : List (String × Expr)} {v : Value}
    (h : (Task.bindings p i ((name, e) :: rest) f).Fits K n B hidden) (hm : m.Holds K n B)
    (hv : Each (AtHand K n B) v) :
    (Task.bindings p (i + 1) rest (f.write m name v).1).Fits K n B
        (hidden || !f.atTop && name == "module") ∧
      (f.write m name v).2.Holds K n B ∧
      f.Follows K n B (hidden || !f.atTop && name == "module") (f.write m name v).1 := by
  obtain ⟨hf₁, hm₁⟩ := h.1.write hm (fun hk => (fitsBindings_cons.mp (h.2 hk)).1) hv
  refine ⟨⟨hf₁, fun hk => ?_⟩, hm₁, hf₁, Frame.module_write .., Frame.atTop_write ..⟩
  rw [Frame.atTop_write]
  exact (fitsBindings_cons.mp (h.2 ((Frame.module_write ..).symm.trans hk))).2.2

end Task.Fits

/-! ## 6. Runs -/

section

variable {K : Nat → Prop} {n : Nat} {B : Place → Prop} {hidden : Bool}

variable {α : Type} {t : Task α} {d : Nat} {m m' : Machine} {a : α} {bodies : List Nat}

/-- **What a script has at hand.** When nothing but functions of a class is at hand, and those that the
    task makes are in the class, then nothing else is at hand later. -/
theorem Task.Ends.holds (h : t.Ends d m a m' bodies) (hfits : t.Fits K n B hidden) (hm : m.Holds K n B)
    (hmakes : ∀ o, t.Makes o → B o) : t.Yields K n B hidden a ∧ m'.Holds K n B := by
  induction h generalizing hidden with
  | literal => exact ⟨each_ofLiteral _, hm⟩
  | @name _ s _ x _ =>
    cases s with
    | page layers => exact hfits.1.elim
    | frame f => exact ⟨each_lookup hfits.1 hm x, hm⟩
  | @function _ s _ code _ =>
    cases s with
    | page layers => exact hfits.1.elim
    | frame f =>
      have hcode : f.module = n → code.Fits hidden := fun hk =>
        Expr.fits_function.mp (hfits.2 (beq_iff_eq.mpr hk))
      exact ⟨each_function hfits.1 (hmakes _ (List.suffix_refl _)) hcode, hm⟩
  | noExpr | noField => exact ⟨trivial, hm⟩
  | array _ ih => exact ih hfits.array hm (within_row hmakes 0)
  | object _ ih =>
    obtain ⟨hkvs, hm'⟩ := ih hfits.object hm (within_row hmakes 0)
    exact ⟨eachField_ofPairs hkvs, hm'⟩
  | member _ ih =>
    obtain ⟨hv, hm'⟩ := ih hfits.member hm (within_part hmakes 0)
    exact ⟨each_step hv _, hm'⟩
  | unary _ ih =>
    obtain ⟨-, hm'⟩ := ih hfits.unary hm (within_part hmakes 0)
    exact ⟨each_unary _ _, hm'⟩
  | notApplied _ _ ih =>
    obtain ⟨-, hm'⟩ := ih hfits.call.1 hm (within_part hmakes 0)
    exact ⟨trivial, hm'⟩
  | index _ _ ih₁ ih₂ =>
    obtain ⟨hv, hm₁⟩ := ih₁ hfits.index.1 hm (within_part hmakes 0)
    obtain ⟨-, hm₂⟩ := ih₂ hfits.index.2 hm₁ (within_part hmakes 1)
    exact ⟨each_step hv _, hm₂⟩
  | binary _ _ ih₁ ih₂ =>
    obtain ⟨-, hm₁⟩ := ih₁ hfits.binary.1 hm (within_part hmakes 0)
    obtain ⟨-, hm₂⟩ := ih₂ hfits.binary.2 hm₁ (within_part hmakes 1)
    exact ⟨each_binary _ _ _, hm₂⟩
  | decided _ _ ih => exact ih hfits.logical.1 hm (within_part hmakes 0)
  | undecided _ _ _ ih₁ ih₂ =>
    obtain ⟨-, hm₁⟩ := ih₁ hfits.logical.1 hm (within_part hmakes 0)
    exact ih₂ hfits.logical.2 hm₁ (within_part hmakes 1)
  | yes _ _ _ ih₁ ih₂ =>
    obtain ⟨-, hm₁⟩ := ih₁ hfits.conditional.1 hm (within_part hmakes 0)
    exact ih₂ hfits.conditional.2.1 hm₁ (within_part hmakes 1)
  | no _ _ _ ih₁ ih₂ =>
    obtain ⟨-, hm₁⟩ := ih₁ hfits.conditional.1 hm (within_part hmakes 0)
    exact ih₂ hfits.conditional.2.2 hm₁ (within_part hmakes 2)
  | applied _ _ _ ih₁ ih₂ ih₃ =>
    obtain ⟨hcallee, hm₁⟩ := ih₁ hfits.call.1 hm (within_part hmakes 0)
    obtain ⟨hargs, hm₂⟩ := ih₂ hfits.call.2 hm₁ (within_row (within_part hmakes 1) 0)
    exact @ih₃ hidden (.applied hcallee hargs) hm₂ (within_part hmakes 2)
  | moreExprs _ _ ih₁ ih₂ =>
    obtain ⟨hv, hm₁⟩ := ih₁ hfits.moreExprs.1 hm (within_head hmakes)
    obtain ⟨hvs, hm₂⟩ := ih₂ hfits.moreExprs.2 hm₁ (within_tail hmakes)
    exact ⟨⟨hv, hvs⟩, hm₂⟩
  | moreFields _ _ ih₁ ih₂ =>
    obtain ⟨hv, hm₁⟩ := ih₁ hfits.moreFields.1 hm (within_head hmakes)
    obtain ⟨hvs, hm₂⟩ := ih₂ hfits.moreFields.2 hm₁ (within_tail hmakes)
    exact ⟨⟨hv, hvs⟩, hm₂⟩
  | declare _ ih =>
    obtain ⟨hf', hm'⟩ := ih hfits.declare hm (within_row hmakes 0)
    rw [Task.Yields, Stmt.writes]
    exact ⟨⟨trivial, hf'⟩, hm'⟩
  | @assign _ _ root _ _ _ f _ _ _ _ ks m₂ _ _ _ ih₁ ih₂ =>
    obtain ⟨hv, hm₁⟩ := ih₁ hfits.assign.1 hm (within_part hmakes 0)
    obtain ⟨-, hm₂⟩ := ih₂ hfits.assign.2 hm₁ (within_row (within_part hmakes 1) 0)
    obtain ⟨hstored, hmachine⟩ := Frame.Holds.store hfits.1 hm₂ root (ks.map Key.ofValue) _ hv
    rw [Task.Yields, Stmt.writes, beq_self_eq_true, Bool.and_true]
    exact ⟨⟨trivial, hstored, Frame.module_store .., Frame.atTop_store ..⟩, hmachine⟩
  | declared | empty => exact ⟨⟨trivial, hfits.1.follows _⟩, hm⟩
  | leave _ ih =>
    obtain ⟨hv, hm'⟩ := ih hfits.leave hm hmakes
    exact ⟨⟨hv, hfits.1.follows _⟩, hm'⟩
  | run _ ih =>
    obtain ⟨-, hm'⟩ := ih hfits.run hm hmakes
    exact ⟨⟨trivial, hfits.1.follows _⟩, hm'⟩
  | branchYes _ _ _ ih₁ ih₂ =>
    obtain ⟨-, hm₁⟩ := ih₁ hfits.branch.1 hm (within_part hmakes 0)
    obtain ⟨⟨hflow, hfollows⟩, hm₂⟩ := ih₂ hfits.branch.2.1 hm₁ (within_part hmakes 1)
    rw [Task.Yields, Stmt.writes]
    exact ⟨⟨hflow, hfollows.widen fun h => by rw [h, Bool.true_or]⟩, hm₂⟩
  | branchNo _ _ _ ih₁ ih₂ =>
    obtain ⟨-, hm₁⟩ := ih₁ hfits.branch.1 hm (within_part hmakes 0)
    obtain ⟨⟨hflow, hfollows⟩, hm₂⟩ := ih₂ hfits.branch.2.2 hm₁ (within_part hmakes 2)
    rw [Task.Yields, Stmt.writes]
    exact ⟨⟨hflow, hfollows.widen fun h => by rw [h, Bool.or_true]⟩, hm₂⟩
  | @block _ place _ _ _ _ _ _ _ ih =>
    have hplace : ∀ i, B (i :: 0 :: place) := fun i =>
      within_part hmakes 0 _ (List.suffix_cons i _)
    obtain ⟨hbody, hm₁, hf₁⟩ := hfits.block hm hplace
    obtain ⟨⟨hflow, hfollows⟩, hm₂⟩ := ih hbody hm₁ (within_row (within_part hmakes 1) 0)
    rw [Task.Yields, Stmt.writes]
    exact ⟨⟨hflow, hf₁.trans hfollows⟩, hm₂⟩
  | noStmt => exact ⟨⟨trivial, hfits.1.follows _⟩, hm⟩
  | noBinding => exact ⟨hfits.1.follows _, hm⟩
  | moreStmts _ _ ih₁ ih₂ =>
    obtain ⟨⟨-, hf₁⟩, hm₁⟩ := ih₁ hfits.firstStmt hm (within_head hmakes)
    obtain ⟨⟨hflow, hfollows⟩, hm₂⟩ := ih₂ (hfits.moreStmts hf₁) hm₁ (within_tail hmakes)
    rw [Task.Yields, writesBody]
    exact ⟨⟨hflow, hf₁.trans hfollows⟩, hm₂⟩
  | leftStmts _ ih =>
    obtain ⟨⟨hflow, hfollows⟩, hm'⟩ := ih hfits.firstStmt hm (within_head hmakes)
    rw [Task.Yields, writesBody]
    exact ⟨⟨hflow, hfollows.widen fun h => by rw [h, Bool.true_or]⟩, hm'⟩
  | moreBindings _ _ ih₁ ih₂ =>
    obtain ⟨hv, hm₁⟩ := ih₁ hfits.firstBinding hm (within_head hmakes)
    obtain ⟨hrest, hm₂, hf₁⟩ := hfits.moreBindings hm₁ hv
    obtain ⟨hfollows, hm₃⟩ := ih₂ hrest hm₂ (within_tail hmakes)
    rw [Task.Yields, List.any_cons]
    exact ⟨hf₁.trans hfollows, hm₃⟩
  | cutOff => exact ⟨trivial, hm⟩
  | entered _ _ ih =>
    obtain ⟨hidden', hbody⟩ := hfits.body
    obtain ⟨⟨hflow, -⟩, hm'⟩ := ih hbody ⟨hm.each, hm.undeclared⟩ hmakes
    exact ⟨hflow.value, hm'.each, hm'.undeclared⟩

end

end Trellis
