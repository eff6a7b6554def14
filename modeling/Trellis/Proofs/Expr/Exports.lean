import Trellis.Proofs.Expr.Alias
import Trellis.Proofs.Expr.Equality

/-!
# `exports` means `module.exports`

A module in which `exports` is spelled out leaves what the module with the short form leaves, and every
client gets the same from calls of the functions that they export (`exports_spelled_out`). There is one
place where the two forms differ. A body that is not module-level code writes to a variable `module` of
its own, and the long form reads that variable. The short form reads the global one. So the code may not
read the short form where `module` may be a local variable (`Stmt.misreads`).

A client is a list of requests. What it calls, and with which arguments, it takes from the exports, from
what earlier calls gave, and from what it has itself: data and functions of earlier modules.
-/

namespace Trellis

open Value

/-! ## 1. Functions of other modules -/

section

variable {n : Nat}

mutual

/-- What holds no function of the module stays as it is. -/
theorem revise_spelling_other :
    ∀ {v : Value}, Each (fun _ k _ _ => k ≠ n) v → revise (.spelling n) v = v
  | .undefined, _ | .null, _ | .bool _, _ | .number _, _ | .string _, _ => by rw [revise]
  | .array _, h => by rw [revise, reviseItems_spelling_other h]
  | .object _, h => by rw [revise, reviseFields_spelling_other h]
  | .function _ k code _, h => by
    have hcode : code.spelled (k == n) = code := by
      rw [beq_eq_false_iff_ne.mpr h.1, Function.spelled_false]
    rw [revise, reviseFields_spelling_other h.2]
    exact congrArg (Value.function _ k · _) hcode

theorem reviseItems_spelling_other :
    ∀ {vs : List Value}, EachItem (fun _ k _ _ => k ≠ n) vs → reviseItems (.spelling n) vs = vs
  | [], _ => rfl
  | _ :: _, h => by rw [reviseItems, revise_spelling_other h.1, reviseItems_spelling_other h.2]

theorem reviseFields_spelling_other :
    ∀ {fields : List (String × Value)}, EachField (fun _ k _ _ => k ≠ n) fields →
      reviseFields (.spelling n) fields = fields
  | [], _ => rfl
  | _ :: _, h => by rw [reviseFields, revise_spelling_other h.1, reviseFields_spelling_other h.2]

end

end

/-! ## 2. Modules one after the other -/

/-- The globals that modules have left which were run one after the other. -/
inductive Loaded : List (Dict Value) → Prop
  | none : Loaded []
  | more {globals : List (Dict Value)} {name source : String} {run : ModuleRun} (h : Loaded globals)
      (hrun : evaluateModule globals name source = .ok run) : Loaded run.globals

/-- A function was made by one of the first `n` modules, in its own run. -/
def MadeBefore (n : Nat) (origin : Place) (module : Nat) (_ : Function) (_ : Dict Value) : Prop :=
  module < n ∧ ∃ j, j < n ∧ modulePlace j <:+ origin

/-- The run of a module ends with what `runModule` gives. -/
theorem Task.Ends.runModule_eq {globals : List (Dict Value)} {body : List Stmt} {flow : Flow}
    {frame : Frame} {m : Machine} {bodies : List Nat}
    (h : (Task.stmt (modulePlace globals.length) (.block body) ⟨[], globals.length, true⟩).Ends 0
      ⟨globals ++ [initialGlobals], 0⟩ (flow, frame) m bodies) :
    runModule globals body = ⟨m.globals, (frame.lookup m "exports").getD .undefined⟩ := by
  have hrun := Task.exec_eq_of_eval_eq (h.eval_eq (Nat.lt_succ_self maxDepth))
  simp only [runModule, callFunction, hrun]

section

variable {K : Nat → Prop} {n : Nat} {B : Place → Prop} {globals : List (Dict Value)} {body : List Stmt}

/-- A module starts with what the modules before it have at hand. -/
theorem holds_initial (h : ∀ g ∈ globals, EachField (AtHand K n B) g) (hn : globals.length ≤ n) :
    Machine.Holds K n B ⟨globals ++ [initialGlobals], 0⟩ where
  each := by
    intro g hg
    rcases List.mem_append.mp hg with hg | hg
    · exact h g hg
    · obtain rfl := List.mem_singleton.mp hg
      exact ⟨⟨trivial, trivial⟩, trivial⟩
  undeclared := by
    intro g hg
    rw [Machine.module?, List.getElem?_append_right hn] at hg
    obtain rfl := List.mem_singleton.mp (List.mem_of_getElem? hg)
    rfl

/-- The run of a module: what there is at the start, and the code of the module if it is `n`. -/
theorem fits_module (hknown : K globals.length)
    (hbody : globals.length = n → (Stmt.block body).Fits false false) :
    (Task.stmt (modulePlace globals.length) (.block body) ⟨[], globals.length, true⟩).Fits K n B false :=
  ⟨⟨trivial, hknown, fun _ => rfl, fun _ => nofun, fun _ => rfl⟩, hbody⟩

end

/-- **Modules leave functions of modules**, each of one that has been run. -/
theorem Loaded.madeBefore {globals : List (Dict Value)} (h : Loaded globals) :
    ∀ g ∈ globals, EachField (MadeBefore globals.length) g := by
  induction h with
  | none => exact nofun
  | @more globals name source run _ hrun ih =>
    rw [evaluateModule] at hrun
    split at hrun
    · rename_i body _
      cases hrun
      -- nothing belongs to the module that comes next
      let B : Place → Prop := fun o => ∃ j, j < globals.length + 1 ∧ modulePlace j <:+ o
      have hstart : ∀ g ∈ globals,
          EachField (AtHand (· < globals.length + 1) (globals.length + 1) B) g := by
        refine fun g hg => (ih g hg).mono fun o k c cap hmade => ?_
        obtain ⟨hk, j, hj, ho⟩ := hmade
        exact ⟨⟨j, Nat.lt_succ_of_lt hj, ho⟩, Nat.lt_succ_of_lt hk, fun he => by omega⟩
      obtain ⟨⟨flow, frame⟩, m, bodies, hends⟩ :=
        (Task.stmt (modulePlace globals.length) (.block body) ⟨[], globals.length, true⟩).ends 0
          ⟨globals ++ [initialGlobals], 0⟩
      obtain ⟨-, hm⟩ := hends.holds (fits_module (Nat.lt_succ_self _) fun he => by omega)
        (holds_initial hstart (Nat.le_succ _)) fun o ho => ⟨globals.length, Nat.lt_succ_self _, ho⟩
      obtain ⟨own, hown⟩ := runModule_globals globals body
      have hlength : (runModule globals body).globals.length = globals.length + 1 := by
        rw [hown, List.length_append, List.length_singleton]
      rw [hlength, hends.runModule_eq]
      exact fun g hg => (hm.each g hg).mono fun o k c cap hat => ⟨hat.2.1, hat.1⟩
    · cases hrun

/-! ## 3. Clients -/

/-- What a client of a module can name: something that it has, the exports, what an earlier call gave, or
    a part of these. -/
inductive Pick where
  | given (v : Value)
  | exports
  | answer (i : Nat)
  | part (h : Pick) (keys : List Key)

/-- What a name of a client stands for, given what the calls so far gave. -/
def Pick.value (exports : Value) (results : List (Option Value)) : Pick → Value
  | .given v => v
  | .exports => exports
  | .answer i => results[i]?.join.getD .undefined
  | .part h keys => (h.value exports results).getPath keys

/-- What a client has itself are data and functions of the modules before the module `n`. -/
def Pick.Foreign (n : Nat) : Pick → Prop
  | .given v => Each (MadeBefore n) v
  | .exports | .answer _ => True
  | .part h _ => h.Foreign n

/-- A call that a client makes. -/
structure Request where
  callee : Pick
  args : List Pick

/-- The call that a request means, at a place of its own. -/
def Request.next (exports : Value) (r : Request) : NextCall := fun results =>
  ⟨callPlace results.length, r.callee.value exports results, r.args.map (Pick.value exports results)⟩

/-- What a client has itself are data and functions of the modules before the module `n`. -/
def Request.Foreign (n : Nat) (r : Request) : Prop := r.callee.Foreign n ∧ ∀ h ∈ r.args, h.Foreign n

/-- Where functions were made before the call number `i`. -/
def BeforeCall (i : Nat) (o : Place) : Prop :=
  (∃ j, modulePlace j <:+ o) ∨ ∃ j, j < i ∧ callPlace j <:+ o

theorem not_beforeCall {i : Nat} {o : Place} (h : BeforeCall i o) : ¬ callPlace i <:+ o := by
  intro ho
  rcases h with ⟨j, hj⟩ | ⟨j, hij, hj⟩
  · cases eq_of_suffix ho hj rfl
  · cases eq_of_suffix ho hj rfl
    exact Nat.lt_irrefl i hij

theorem BeforeCall.succ {i : Nat} {o : Place} (h : BeforeCall i o) : BeforeCall (i + 1) o :=
  h.imp id fun ⟨j, hij, hj⟩ => ⟨j, Nat.lt_succ_of_lt hij, hj⟩

section

variable {K : Nat → Prop} {n : Nat} {B B' : Place → Prop} {m : Machine}

/-- What a call gives is what the rules derive. -/
theorem Call.answer_of_ends {place : Place} {origin : Place} {k : Nat} {code : Function}
    {captured : Dict Value} {args : List Value} {d : Nat} {m' : Machine} {v : Value} {bodies : List Nat}
    (h : (Task.call place k code captured args).Ends d m v m' bodies) :
    (Call.mk place (.function origin k code captured) args).answer m = some v := by
  have hcall : callFunction place k code captured args m = (v, m') :=
    h.eval_eq (show maxDepth < (maxDepth + 1) + m.depth by omega)
  exact congrArg (fun r => some r.1) hcall

/-- **A call with `exports` spelled out**, in its function and in all that is at hand, gives what it
    gives, with `exports` spelled out, when nothing at hand was made at its place. -/
theorem Call.answer_spelled {place : Place} {callee : Value} {args : List Value}
    (hcallee : Each (AtHand K n B) callee) (hargs : EachItem (AtHand K n B) args)
    (hm : m.Holds K n B) (hfresh : ∀ o, B o → ¬ place <:+ o) :
    (Call.mk place (callee.revise (.spelling n)) (args.map (revise (.spelling n)))).answer
      (m.revise (.spelling n)) = ((Call.mk place callee args).answer m).map (revise (.spelling n)) := by
  cases callee with
  | function origin k code captured =>
    obtain ⟨v, m', bodies, h⟩ := (Task.call place k code captured args).ends 0 m
    have hfits : (Task.call place k code captured args).Fits K n B false := .applied hcallee hargs
    obtain ⟨bodies', h'⟩ := h.spelled hfits hm fun o ho hB => hfresh o hB ho
    rw [Call.answer_of_ends h, revise]
    exact Call.answer_of_ends h'
  | _ => rfl

/-- What a call gives was at hand or is made at its place. -/
theorem Call.each_answer {place : Place} {callee : Value} {args : List Value}
    (hcallee : Each (AtHand K n B) callee) (hargs : EachItem (AtHand K n B) args)
    (hm : m.Holds K n B) (hmakes : ∀ o, place <:+ o → B o) {v : Value}
    (hv : (Call.mk place callee args).answer m = some v) : Each (AtHand K n B) v := by
  cases callee with
  | function origin k code captured =>
    obtain ⟨w, m', bodies, h⟩ := (Task.call place k code captured args).ends 0 m
    have hfits : (Task.call place k code captured args).Fits K n B false := .applied hcallee hargs
    rw [Call.answer_of_ends h] at hv
    cases hv
    exact (h.holds hfits hm hmakes).1
  | _ => cases hv

end

section

variable {n : Nat} {exports : Value} {results : List (Option Value)} {m : Machine}

/-- What is known of all that a client has before the call number `i`. -/
def Known (n i : Nat) : Place → Nat → Function → Dict Value → Prop :=
  AtHand (fun _ => True) n (BeforeCall i)

theorem MadeBefore.known {n i : Nat} (o : Place) (k : Nat) (c : Function) (cap : Dict Value)
    (h : MadeBefore n o k c cap) : Known n i o k c cap :=
  ⟨.inl (h.2.imp fun _ hj => hj.2), trivial, fun he => absurd he (Nat.ne_of_lt h.1)⟩

theorem Known.succ {n i : Nat} (o : Place) (k : Nat) (c : Function) (cap : Dict Value)
    (h : Known n i o k c cap) : Known n (i + 1) o k c cap := ⟨h.1.succ, h.2⟩

theorem Pick.each_value {i : Nat} (hexports : Each (Known n i) exports)
    (hresults : ∀ v, some v ∈ results → Each (Known n i) v) {h : Pick} (hforeign : h.Foreign n) :
    Each (Known n i) (h.value exports results) := by
  induction h with
  | given v => exact Each.mono MadeBefore.known hforeign
  | exports => exact hexports
  | answer j =>
    refine each_getD fun w hw => hresults w ?_
    exact List.mem_of_getElem? (Option.join_eq_some_iff.mp hw)
  | part h keys ih => exact each_getPath (ih hforeign) keys

theorem Pick.value_spelled {h : Pick} (hforeign : h.Foreign n) :
    h.value (exports.revise (.spelling n)) (results.map (Option.map (revise (.spelling n)))) =
      (h.value exports results).revise (.spelling n) := by
  induction h with
  | given v =>
    exact (revise_spelling_other (hforeign.mono fun o k c cap hmade => Nat.ne_of_lt hmade.1)).symm
  | exports => rfl
  | answer j =>
    rw [Pick.value, Pick.value, List.getElem?_map]
    rcases results[j]? with _ | _ | v <;> rfl
  | part h keys ih => rw [Pick.value, Pick.value, ih hforeign, getPath_revise]

/-- Calls one after the other, with `exports` spelled out in all that is at hand. -/
theorem serve_spelled (requests : List Request) (hforeign : ∀ r ∈ requests, r.Foreign n)
    (hexports : Each (Known n results.length) exports)
    (hresults : ∀ v, some v ∈ results → Each (Known n results.length) v)
    (hm : m.Holds (fun _ => True) n (BeforeCall results.length)) :
    (serve (requests.map (Request.next (exports.revise (.spelling n))))
        (results.map (Option.map (revise (.spelling n)))) (m.revise (.spelling n))).1 =
      (serve (requests.map (Request.next exports)) results m).1.map
        (Option.map (revise (.spelling n))) := by
  induction requests generalizing results with
  | nil => rfl
  | cons r rest ih =>
    obtain ⟨hcallee, hargs⟩ := hforeign r List.mem_cons_self
    have hcallee' := Pick.each_value hexports hresults hcallee
    have hargs' : EachItem (Known n results.length) (r.args.map (Pick.value exports results)) := by
      refine eachItem_iff.mpr fun v hv => ?_
      obtain ⟨h, hh, rfl⟩ := List.mem_map.mp hv
      exact Pick.each_value hexports hresults (hargs h hh)
    have hnext : r.next (exports.revise (.spelling n))
        (results.map (Option.map (revise (.spelling n)))) =
        ⟨callPlace results.length, (r.callee.value exports results).revise (.spelling n),
          (r.args.map (Pick.value exports results)).map (revise (.spelling n))⟩ := by
      rw [Request.next, List.length_map, Pick.value_spelled hcallee, List.map_map,
        List.map_congr_left fun h hh => Pick.value_spelled (hargs h hh)]
      rfl
    have hanswer := Call.answer_spelled hcallee' hargs' hm fun o => not_beforeCall
    have hmore : ∀ v, (r.next exports results).answer m = some v →
        Each (Known n (results.length + 1)) v :=
      fun v hv => Call.each_answer (hcallee'.mono Known.succ) (hargs'.mono Known.succ)
        (hm.mono fun o => BeforeCall.succ) (fun o ho => .inr ⟨_, Nat.lt_succ_self _, ho⟩) hv
    have hlength : (results ++ [(r.next exports results).answer m]).length = results.length + 1 := by
      rw [List.length_append, List.length_singleton]
    rw [List.map_cons, List.map_cons, serve_cons, serve_cons, hnext, hanswer]
    have hrest := @ih (results ++ [(r.next exports results).answer m])
      (fun r hr => hforeign r (List.mem_cons_of_mem _ hr))
    rw [hlength] at hrest
    rw [← hrest (hexports.mono Known.succ) (fun v hv => ?_) (hm.mono fun o => BeforeCall.succ),
      List.map_append]
    · rfl
    · rcases List.mem_append.mp hv with hv | hv
      · exact (hresults v hv).mono Known.succ
      · exact hmore v (List.mem_singleton.mp hv).symm

end

/-! ## 4. The short form -/

/-- Globals of modules before the module `n` and its own, with `exports` spelled out. -/
theorem globals_spelled {globals : List (Dict Value)}
    (h : ∀ g ∈ globals, EachField (MadeBefore globals.length) g) (own : Dict Value) :
    (globals ++ [own]).map (reviseFields (.spelling globals.length)) =
      globals ++ [reviseFields (.spelling globals.length) own] := by
  have hglobals : globals.map (reviseFields (.spelling globals.length)) = globals := by
    rw [List.map_congr_left fun g hg => reviseFields_spelling_other
      ((h g hg).mono fun o k c cap hmade => Nat.ne_of_lt hmade.1)]
    exact List.map_id _
  rw [List.map_append, hglobals, List.map_singleton]

/-- A module starts with functions of the modules before it. -/
theorem holds_loaded {globals : List (Dict Value)}
    (h : ∀ g ∈ globals, EachField (MadeBefore globals.length) g) {B : Place → Prop}
    (hB : ∀ j, j < globals.length → ∀ o, modulePlace j <:+ o → B o) :
    Machine.Holds (fun _ => True) globals.length B ⟨globals ++ [initialGlobals], 0⟩ := by
  refine holds_initial (fun g hg => (h g hg).mono fun o k c cap hmade => ?_) (Nat.le_refl _)
  obtain ⟨hk, j, hj, ho⟩ := hmade
  exact ⟨hB j hj o ho, trivial, fun he => absurd he (Nat.ne_of_lt hk)⟩

/-- **`exports` means `module.exports`**: let a source have that written wherever another one says
    `exports`. When the other source declares no variable, function or parameter of that name, and reads
    it nowhere where `module` may be a local variable, then both modules leave the same globals and the
    same exports, and every client gets the same from its calls; the functions among them are the same
    ones with `exports` spelled out in them. -/
theorem exports_spelled_out {globals : List (Dict Value)} (hloaded : Loaded globals)
    {name source source' : String} {body : List Stmt}
    (hsource : Grammar.parseModule? source = some body)
    (hsource' : Grammar.parseModule? source' = some (spelledBody true body))
    (hdeclares : declaresBody "exports" body = false)
    (hreads : (Stmt.block body).misreads false false = false) :
    let g := Revision.spelling globals.length
    ∃ own exports,
      evaluateModule globals name source = .ok ⟨globals ++ [own], exports⟩ ∧
      evaluateModule globals name source' = .ok ⟨globals ++ [reviseFields g own], exports.revise g⟩ ∧
      ∀ (requests : List Request) (depth : Nat), (∀ r ∈ requests, r.Foreign globals.length) →
        (serve (requests.map (Request.next (exports.revise g))) []
            ⟨globals ++ [reviseFields g own], depth⟩).1 =
          (serve (requests.map (Request.next exports)) [] ⟨globals ++ [own], depth⟩).1.map
            (Option.map (revise g)) := by
  intro g
  have hold := hloaded.madeBefore
  have hcode : (Stmt.block body).Fits false false := ⟨by rw [Stmt.declares, hdeclares], hreads⟩
  obtain ⟨⟨flow, frame⟩, m, bodies, h⟩ :=
    (Task.stmt (modulePlace globals.length) (.block body) ⟨[], globals.length, true⟩).ends 0
      ⟨globals ++ [initialGlobals], 0⟩
  -- no module before was run at the place of this one
  have hfresh : ∀ j, j < globals.length → ∀ o, modulePlace j <:+ o →
      ¬ modulePlace globals.length <:+ o := by
    intro j hj o ho hn
    have hsame : j = globals.length := (List.cons.inj (eq_of_suffix ho hn rfl)).1
    exact absurd hsame (Nat.ne_of_lt hj)
  obtain ⟨bodies', h'⟩ := h.spelled (fits_module trivial fun _ => hcode) (holds_loaded hold hfresh)
    fun o ho hB => hB ho
  obtain ⟨⟨-, hframe⟩, hm⟩ := h.holds (fits_module trivial fun _ => hcode)
    (holds_loaded hold fun j _ o ho => .inl ⟨j, ho⟩) fun o ho => (.inl ⟨_, ho⟩ : BeforeCall 0 o)
  obtain ⟨own, hown⟩ := runModule_globals globals body
  have hglobals : m.globals = globals ++ [own] := by
    rw [← hown, h.runModule_eq]
  have hexports := each_lookup hframe.holds hm "exports"
  refine ⟨own, (frame.lookup m "exports").getD .undefined, ?_, ?_, fun requests depth hforeign => ?_⟩
  · simp only [evaluateModule, hsource, h.runModule_eq, hglobals]
  · have hstart : (Machine.mk (globals ++ [initialGlobals]) 0).revise g =
        ⟨globals ++ [initialGlobals], 0⟩ := by
      rw [Machine.revise, globals_spelled hold]
      rfl
    rw [hstart, Task.spelled, Stmt.spelled, beq_self_eq_true] at h'
    have hrun := Task.Ends.runModule_eq h'
    rw [getD_lookup_revise, Machine.revise, hglobals, globals_spelled hold] at hrun
    simp only [evaluateModule, hsource', hrun, g]
  · have hmachine : Machine.Holds (fun _ => True) globals.length (BeforeCall 0)
        ⟨globals ++ [own], depth⟩ := by
      rw [← hglobals]
      exact ⟨hm.each, hm.undeclared⟩
    have hserve := @serve_spelled globals.length _ [] _ requests hforeign hexports
      (fun _ h => absurd h List.not_mem_nil) hmachine
    rw [Machine.revise, globals_spelled hold] at hserve
    exact hserve

/-- A module that reads and writes its exports by the short form. -/
def greeting : String :=
  "exports.w = 'he'; exports.w += 'y '; exports.f = function (x) { return exports.w + x; };"

/-- The same module with the short form spelled out. -/
def greetingSpelled : String :=
  "module.exports.w = 'he'; module.exports.w += 'y '; " ++
    "module.exports.f = function (x) { return module.exports.w + x; };"

/-- The statements of `greeting`. -/
def greetingBody : List Stmt :=
  [.assign "exports" [.literal (.string "w")] .set (.literal (.string "he")),
    .assign "exports" [.literal (.string "w")] .add (.literal (.string "y ")),
    .assign "exports" [.literal (.string "f")] .set (.function (.mk none ["x"]
      [.leave (.binary .add (.member (.name "exports") "w") (.name "x"))]))]

theorem parse_greeting : Grammar.parseModule? greeting = some greetingBody := by decide +kernel

theorem parse_greetingSpelled :
    Grammar.parseModule? greetingSpelled = some (spelledBody true greetingBody) := by
  decide +kernel

/-- A call of the function `f` that a module exports. -/
def callF (arg : String) : Request := ⟨.part .exports [.name "f"], [.given (.string arg)]⟩

/-- Both modules greet in the same way. -/
theorem greeting_spelled_out :
    ∃ own exports,
      evaluateModule [] "greeting" greeting = .ok ⟨[own], exports⟩ ∧
      evaluateModule [] "greeting" greetingSpelled =
        .ok ⟨[reviseFields (.spelling 0) own], exports.revise (.spelling 0)⟩ ∧
      (serve [(callF "you").next (exports.revise (.spelling 0))] []
          ⟨[reviseFields (.spelling 0) own], 0⟩).1 =
        (serve [(callF "you").next exports] [] ⟨[own], 0⟩).1.map (Option.map (revise (.spelling 0))) ∧
      (serve [(callF "you").next exports] [] ⟨[own], 0⟩).1.map (Option.bind · Value.asString?) =
        [some "hey you"] := by
  obtain ⟨own, exports, hrun, hrun', hclients⟩ := @exports_spelled_out [] Loaded.none "greeting" _ _ _
    parse_greeting parse_greetingSpelled (by decide) (by decide)
  have hgreets : (evaluateModule [] "greeting" greeting).toOption.any (fun run =>
      (serve [(callF "you").next run.exports] [] ⟨run.globals, 0⟩).1.map
        (Option.bind · Value.asString?) == [some "hey you"]) = true := by decide +kernel
  have hsame := hclients [callF "you"] 0 fun r hr => by
    rw [List.mem_singleton.mp hr]
    exact ⟨trivial, fun h hh => by
      rw [List.mem_singleton.mp hh]
      exact trivial⟩
  rw [hrun] at hgreets
  exact ⟨own, exports, hrun, hrun', hsame, beq_iff_eq.mp hgreets⟩

/-- What a module exports as `f` gives for the text `x`, if it is a text. -/
def textOfF (source : String) : Option (List (Option String)) :=
  (evaluateModule [] "module" source).toOption.map fun run =>
    (serve [(callF "x").next run.exports] [] ⟨run.globals, 0⟩).1.map (Option.bind · Value.asString?)

-- a body that has written its exports reads the former ones by the short form
example :
    textOfF "function f(x) { exports.a = x; return exports.a; } exports.f = f;" = some [none] ∧
      textOfF "function f(x) { module.exports.a = x; return module.exports.a; } module.exports.f = f;" =
        some [some "x"] := by
  decide +kernel

end Trellis
