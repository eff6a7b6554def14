import Mathlib.Logic.Relation
import Trellis.Proofs.Template.References
import Trellis.Template.Registry

/-!
# Runs of a registry

A registry is asked to register and to compile, in any order and with any outcome.
- `Call.run_cases`: a call either leaves the registry as it is or puts one template that was built
  against it under a name that was free,
- `stored_iff`: what is stored is what some call registered, and it stays,
- `registry_closed`: a stored template refers to templates that were registered before it.

A chain of references therefore goes back in the order of the calls and never comes round.
-/
namespace Trellis

namespace Registry

/-! ## 1. Calls -/

/-- What a registry is asked for. -/
inductive Call where
  | register (name markup : String) (uses : Using)
  | compile (markup : String)

/-- The outcome of a call, and the registry behind it. -/
def Call.run (call : Call) (r : Registry) : Except MarkupError Template × Registry :=
  match call with
  | .register name markup uses => r.register name markup uses
  | .compile markup => (r.compile markup, r)

/-- The registry behind calls. -/
def after (r : Registry) (calls : List Call) : Registry :=
  calls.foldl (fun r call => (call.run r).2) r

/-- The call number `i` registers a template under a name. -/
def Registers (r : Registry) (calls : List Call) (i : Nat) (name : String) (t : Template) : Prop :=
  ∃ markup uses, calls[i]? = some (.register name markup uses) ∧
    ((r.after (calls.take i)).register name markup uses).1 = .ok t

/-- The template stored under one name refers to the component with another. -/
def RefersTo (r : Registry) (name component : String) : Prop :=
  ∃ t, r.get? name = some t ∧ component ∈ t.refs

/-! ## 2. One call -/

section

variable {r : Registry} {name markup : String} {uses : Using} {t : Template}

theorem contains_iff : r.contains name = true ↔ ∃ t, r.get? name = some t := Option.isSome_iff_exists

/-- The registry with one more template. -/
theorem get?_insert (name component : String) (t : Template) :
    get? { r with templates := Dict.insert r.templates name t } component =
      if component = name then some t else r.get? component := by
  split
  · rename_i h
    rw [h]
    exact Dict.get?_insert_self _ _ _
  · rename_i h
    exact Dict.get?_insert_of_ne _ _ (Ne.symm h)

/-- A registration that succeeds builds a template and puts it under a name that was free. -/
theorem register_ok (h : (r.register name markup uses).1 = .ok t) :
    r.get? name = none ∧ r.build name markup uses = .ok t ∧
      (r.register name markup uses).2 = { r with templates := Dict.insert r.templates name t } := by
  unfold register at h ⊢
  split at h
  · cases h
  · rename_i hfree
    rw [if_neg hfree]
    cases hbuild : r.build name markup uses with
    | error e =>
      rw [hbuild] at h
      cases h
    | ok t' =>
      rw [hbuild] at h
      cases h
      exact ⟨Option.not_isSome_iff_eq_none.mp hfree, rfl, rfl⟩

/-- **A registration that fails leaves the registry as it was.** -/
theorem register_error {e : MarkupError} (h : (r.register name markup uses).1 = .error e) :
    (r.register name markup uses).2 = r := by
  unfold register at h ⊢
  split at h
  · rename_i htaken
    rw [if_pos htaken]
  · rename_i hfree
    rw [if_neg hfree]
    cases hbuild : r.build name markup uses with
    | error e' => rfl
    | ok t =>
      rw [hbuild] at h
      cases h

/-- **What a call does to a registry**: nothing, or one registration that succeeds. -/
theorem Call.run_cases (call : Call) (r : Registry) :
    (call.run r).2 = r ∨ ∃ name markup uses t, call = .register name markup uses ∧
      (r.register name markup uses).1 = .ok t ∧ r.get? name = none ∧
        (call.run r).2 = { r with templates := Dict.insert r.templates name t } := by
  cases call with
  | compile markup => exact .inl rfl
  | register name markup uses =>
    cases h : (r.register name markup uses).1 with
    | error e => exact .inl (register_error h)
    | ok t =>
      obtain ⟨hfree, _, hafter⟩ := register_ok h
      exact .inr ⟨name, markup, uses, t, rfl, h, hfree, hafter⟩

/-- **A call that fails, and every call that only compiles, leaves the registry as it was.** -/
theorem Call.run_unchanged {call : Call}
    (h : (∃ e, (call.run r).1 = .error e) ∨ ∃ markup, call = .compile markup) :
    (call.run r).2 = r := by
  cases call with
  | compile markup => rfl
  | register name markup uses =>
    rcases h with ⟨e, he⟩ | ⟨_, hcompile⟩
    · exact register_error he
    · cases hcompile

theorem get?_run (call : Call) (h : r.get? name = some t) : (call.run r).2.get? name = some t := by
  rcases call.run_cases r with hsame | ⟨other, _, _, _, _, _, hfree, hafter⟩
  · rw [hsame, h]
  · rw [hafter, get?_insert, if_neg, h]
    rintro rfl
    cases hfree.symm.trans h

/-- **A name is refused as taken just when it is stored.** -/
theorem register_duplicate_iff (r : Registry) (name markup : String) (uses : Using) (other : String) :
    (r.register name markup uses).1 = .error (.duplicateTemplate other) ↔
      r.contains name = true ∧ other = name := by
  unfold register
  split
  · rename_i htaken
    constructor
    · intro h
      cases h
      exact ⟨htaken, rfl⟩
    · rintro ⟨_, rfl⟩
      rfl
  · rename_i hfree
    refine ⟨fun h => ?_, fun h => absurd h.1 hfree⟩
    cases hbuild : r.build name markup uses with
    | ok t =>
      rw [hbuild] at h
      cases h
    | error e =>
      rw [hbuild] at h
      cases h
      cases builds_ofMarkup _ name markup _ hbuild

end

/-! ## 3. Runs -/

section

variable {r : Registry} {calls : List Call} {i j : Nat} {name component : String} {t t' : Template}

theorem after_append (r : Registry) (before later : List Call) :
    r.after (before ++ later) = (r.after before).after later := List.foldl_append

/-- **What is stored stays as it is.** -/
theorem get?_after (h : r.get? name = some t) (calls : List Call) :
    (r.after calls).get? name = some t := by
  induction calls generalizing r with
  | nil => exact h
  | cons call calls ih => exact ih (get?_run call h)

/-- The registry behind a part of the calls is on the way to that behind more of them. -/
theorem get?_after_of_take (h : (r.after (calls.take i)).get? name = some t) (hij : i ≤ j) :
    (r.after (calls.take j)).get? name = some t := by
  obtain ⟨d, rfl⟩ := Nat.exists_eq_add_of_le hij
  rw [List.take_add, after_append]
  exact get?_after h _

/-- The registry behind one more call. -/
theorem after_take_succ {call : Call} (h : calls[i]? = some call) :
    r.after (calls.take (i + 1)) = (call.run (r.after (calls.take i))).2 := by
  rw [List.take_add_one, h, after_append]
  rfl

theorem Registers.free (h : r.Registers calls i name t) :
    (r.after (calls.take i)).get? name = none := by
  obtain ⟨_, _, _, hok⟩ := h
  exact (register_ok hok).1

theorem Registers.stored_next (h : r.Registers calls i name t) :
    (r.after (calls.take (i + 1))).get? name = some t := by
  obtain ⟨markup, uses, hcall, hok⟩ := h
  rw [after_take_succ hcall, Call.run, (register_ok hok).2.2, get?_insert, if_pos rfl]

/-- What a call registered is stored behind all of them. -/
theorem Registers.stored (h : r.Registers calls i name t) : (r.after calls).get? name = some t := by
  have hlater := get?_after h.stored_next (calls.drop (i + 1))
  rwa [← after_append, List.take_append_drop] at hlater

/-- No name is registered twice. -/
theorem Registers.unique (h : r.Registers calls i name t) (h' : r.Registers calls j name t') :
    i = j := by
  have hle {i j : Nat} {t t' : Template} (h : r.Registers calls i name t)
      (h' : r.Registers calls j name t') : j ≤ i := by
    by_contra hlt
    cases h'.free.symm.trans (get?_after_of_take h.stored_next (Nat.lt_of_not_le hlt))
  exact Nat.le_antisymm (hle h' h) (hle h h')

/-- A registration among the first calls is one among all of them. -/
theorem Registers.of_append {later : List Call} (h : r.Registers calls i name t) :
    r.Registers (calls ++ later) i name t := by
  obtain ⟨markup, uses, hcall, hok⟩ := h
  have hi := (List.getElem?_eq_some_iff.mp hcall).1
  refine ⟨markup, uses, ?_, ?_⟩
  · rwa [List.getElem?_append_left hi]
  · rwa [List.take_append_of_le_length (Nat.le_of_lt hi)]

/-- **What is stored was registered by a call**, unless it was there before. -/
theorem exists_registers (h : (r.after calls).get? name = some t) :
    r.get? name = some t ∨ ∃ i < calls.length, r.Registers calls i name t := by
  induction calls using List.reverseRecOn with
  | nil => exact .inl h
  | append_singleton calls call ih =>
    -- The last call stored it, or it was there before that call.
    have hbefore : (r.after calls).get? name = some t → r.get? name = some t ∨
        ∃ i < (calls ++ [call]).length, r.Registers (calls ++ [call]) i name t := by
      refine fun h => (ih h).imp_right ?_
      rintro ⟨i, hi, hregisters⟩
      exact ⟨i, by rw [List.length_append]; omega, hregisters.of_append⟩
    rw [after_append] at h
    change (call.run (r.after calls)).2.get? name = some t at h
    rcases call.run_cases (r.after calls) with hsame | ⟨other, markup, uses, u, rfl, hok, _, hafter⟩
    · exact hbefore (hsame ▸ h)
    · rw [hafter, get?_insert] at h
      split at h
      · rename_i hname
        subst hname
        cases h
        refine .inr ⟨calls.length, by simp, markup, uses, by simp, ?_⟩
        rwa [List.take_left]
      · exact hbefore h

/-- **What a template refers to was registered before it.** -/
theorem Registers.refs (h : r.Registers calls i name t) (hc : component ∈ t.refs) :
    ∃ s, (r.after (calls.take i)).get? component = some s := by
  obtain ⟨markup, uses, _, hok⟩ := h
  exact contains_iff.mp (known_of_mem_refs (register_ok hok).2.1 hc)

end

/-! ## 4. Runs from an empty registry -/

section

variable {config : Markup.Config} {calls : List Call} {i : Nat} {name component : String}
  {t : Template}

theorem exists_registers_of_empty {calls : List Call}
    (h : ((empty config).after calls).get? name = some t) :
    ∃ i < calls.length, (empty config).Registers calls i name t :=
  (exists_registers h).resolve_left (fun h => by cases h)

/-- **What is stored is what one call registered.** -/
theorem stored_iff : ((empty config).after calls).get? name = some t ↔
    ∃ i, (empty config).Registers calls i name t :=
  ⟨fun h => (exists_registers_of_empty h).imp fun _ h => h.2, fun ⟨_, h⟩ => h.stored⟩

/-- The component that a template refers to was registered by an earlier call. -/
theorem Registers.exists_earlier (h : (empty config).Registers calls i name t)
    (hc : component ∈ t.refs) : ∃ j < i, ∃ s, (empty config).Registers calls j component s := by
  obtain ⟨s, hs⟩ := h.refs hc
  obtain ⟨j, hj, hregisters⟩ := exists_registers_of_empty hs
  refine ⟨j, (List.length_take ▸ hj).trans_le (Nat.min_le_left _ _), s, ?_⟩
  have hall : (empty config).Registers (calls.take i ++ calls.drop i) j component s :=
    hregisters.of_append
  rwa [List.take_append_drop] at hall

/-- References lead to earlier calls, however many of them are followed. -/
theorem exists_earlier_of_transGen
    (h : Relation.TransGen ((empty config).after calls).RefersTo name component)
    (hi : (empty config).Registers calls i name t) :
    ∃ j < i, ∃ s, (empty config).Registers calls j component s := by
  have hstep {n c : String} {i : Nat} {t : Template} (hi : (empty config).Registers calls i n t)
      (h : ((empty config).after calls).RefersTo n c) :
      ∃ j < i, ∃ s, (empty config).Registers calls j c s := by
    obtain ⟨u, hu, hc⟩ := h
    obtain rfl := Option.some.inj (hi.stored.symm.trans hu)
    exact hi.exists_earlier hc
  induction h with
  | single h => exact hstep hi h
  | tail _ h ih =>
    obtain ⟨j, hj, s, hs⟩ := ih
    obtain ⟨k, hk, u, hu⟩ := hstep hs h
    exact ⟨k, hk.trans hj, u, hu⟩

/-- **No reference leads back.** -/
theorem not_transGen_refersTo (config : Markup.Config) (calls : List Call) (name : String) :
    ¬ Relation.TransGen ((empty config).after calls).RefersTo name name := by
  intro h
  obtain ⟨_, ⟨t, ht, _⟩, _⟩ := Relation.TransGen.head'_iff.mp h
  obtain ⟨i, hi⟩ := stored_iff.mp ht
  obtain ⟨j, hj, s, hs⟩ := exists_earlier_of_transGen h hi
  exact Nat.ne_of_lt hj (hs.unique hi)

/-- **References in a registry are closed and lead back in time, and calls are atomic.** Behind any
    calls, what is stored was registered by just one of them, and all that it refers to was
    registered by earlier ones; so no chain of references comes round. A further call that fails or
    only compiles changes nothing, what is stored stays as it is however many calls follow, and a
    name is refused as taken just when it is stored. -/
theorem registry_closed (config : Markup.Config) (calls : List Call) :
    (∀ name t, ((empty config).after calls).get? name = some t →
      ∃! i, (empty config).Registers calls i name t) ∧
    (∀ i name t, (empty config).Registers calls i name t →
      ((empty config).after calls).get? name = some t ∧
      ∀ component ∈ t.refs, component ≠ name ∧
        ∃ j < i, ∃ s, (empty config).Registers calls j component s) ∧
    (∀ name, ¬ Relation.TransGen ((empty config).after calls).RefersTo name name) ∧
    (∀ call : Call,
      ((∃ e, (call.run ((empty config).after calls)).1 = .error e) ∨
        ∃ markup, call = .compile markup) →
      (call.run ((empty config).after calls)).2 = (empty config).after calls) ∧
    (∀ name t later, ((empty config).after calls).get? name = some t →
      ((empty config).after (calls ++ later)).get? name = some t) ∧
    ∀ name markup uses other,
      (((empty config).after calls).register name markup uses).1 =
          .error (.duplicateTemplate other) ↔
        ((empty config).after calls).contains name = true ∧ other = name := by
  refine ⟨fun name t h => ?_, fun i name t h => ⟨h.stored, fun component hc => ?_⟩,
    not_transGen_refersTo config calls, fun call => Call.run_unchanged, fun name t later h => ?_,
    register_duplicate_iff _⟩
  · obtain ⟨i, hi⟩ := stored_iff.mp h
    exact ⟨i, hi, fun j hj => hj.unique hi⟩
  · obtain ⟨j, hj, s, hs⟩ := h.exists_earlier hc
    refine ⟨?_, j, hj, s, hs⟩
    rintro rfl
    exact Nat.ne_of_lt hj (hs.unique h)
  · rw [after_append]
    exact get?_after h later

/-- A template may use another one under a tag of its own; neither can use the one that comes later. -/
example : ((empty .standard).after
    [.register "b" "<card/>" [("card", "a")], .register "a" "<p/>" [],
      .register "b" "<card/>" [("card", "a")], .register "a" "<b/>" []]).templates.map
        (fun (name, t) => (name, t.refs)) = [("a", []), ("b", ["a"])] := by
  decide +kernel

end

end Registry

end Trellis
