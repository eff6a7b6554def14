import Trellis.Proofs.Expr.Ending
import Trellis.Proofs.Expr.Relocate
import Trellis.Proofs.Value.Each

/-!
# Expressions one position further

Expressions that are evaluated in a row are told apart by their positions, and so are the functions that
they make. When nothing at hand was made at these positions before, a row can start one position
further: what it makes is made elsewhere, and the values are otherwise the same
(`evalAll_shift`, `Task.Ends.shift`).
-/

namespace Trellis

open Value

/-! ## 1. Values at hand -/

/-- Every function that a machine holds has a property. -/
def Machine.Each (P : Place → Nat → Function → Dict Value → Prop) (m : Machine) : Prop :=
  ∀ g ∈ m.globals, EachField P g

/-- Every function that a frame holds has a property. -/
def Frame.Each (P : Place → Nat → Function → Dict Value → Prop) (f : Frame) : Prop :=
  EachField P f.locals

section

variable {P Q : Place → Nat → Function → Dict Value → Prop} {f : Place → Place} {A : Place → Prop}

theorem Machine.Each.mono (h : ∀ o k c cap, P o k c cap → Q o k c cap) {m : Machine} (hm : m.Each P) :
    m.Each Q := fun g hg => EachField.mono h (hm g hg)

theorem relocateFields_of_each (hf : ∀ o, A o → f o = o) {d : Dict Value}
    (hd : EachField (fun o _ _ _ => A o) d) : relocateFields f d = d :=
  relocateFields_eq_self fun o ho => hf o ((eachField_origin_iff d).mp hd o ho)

/-- Where the places of all functions stay, a frame stays. -/
theorem frame_relocate_of_each (hf : ∀ o, A o → f o = o) {r : Frame}
    (hr : r.Each fun o _ _ _ => A o) : r.relocate f = r := by
  rw [Frame.relocate, relocateFields_of_each hf hr]

/-- Where the places of all functions stay, a machine stays. -/
theorem machine_relocate_of_each (hf : ∀ o, A o → f o = o) {m : Machine}
    (hm : m.Each fun o _ _ _ => A o) : m.relocate f = m := by
  have hglobals : m.globals.map (relocateFields f) = m.globals := by
    rw [List.map_congr_left fun g hg => relocateFields_of_each hf (hm g hg)]
    exact List.map_id _
  rw [Machine.relocate, hglobals]

end

/-! ## 2. Shifted places -/

/-- The place that is reached when the position right inside of `p` is one further. -/
def shiftBelow (p : Place) : Place → Place
  | [] => []
  | i :: q => (if q = p then i + 1 else i) :: shiftBelow p q

section

variable {p q : Place}

/-- Places that do not lie inside of `p` stay. -/
theorem shiftBelow_of_not_suffix (h : ¬ p <:+ q) : shiftBelow p q = q := by
  induction q with
  | nil => rfl
  | cons i q ih =>
    have hne : q ≠ p := fun e => h (e ▸ List.suffix_cons i q)
    rw [shiftBelow, if_neg hne, ih fun hq => h (hq.trans (List.suffix_cons i q))]

theorem shiftBelow_of_length_le (h : q.length ≤ p.length) : shiftBelow p q = q := by
  induction q with
  | nil => rfl
  | cons i q ih =>
    rw [List.length_cons] at h
    have hne : q ≠ p := fun e => by
      rw [e] at h
      omega
    rw [shiftBelow, if_neg hne, ih (by omega)]

theorem shiftBelow_cons (p : Place) (i : Nat) : shiftBelow p (i :: p) = (i + 1) :: p := by
  rw [shiftBelow, if_pos rfl, shiftBelow_of_length_le (Nat.le_refl _)]

theorem shiftBelow_apart (p q r : Place) (h : shiftBelow p q = shiftBelow p r) : q = r := by
  induction q generalizing r with
  | nil =>
    cases r with
    | nil => rfl
    | cons j r => cases h
  | cons i q ih =>
    cases r with
    | nil => cases h
    | cons j r =>
      obtain ⟨hhead, htail⟩ := List.cons.inj h
      obtain rfl := ih r htail
      split at hhead
      · rw [Nat.succ_inj.mp hhead]
      · rw [hhead]

theorem growsFrom_shiftBelow (p : Place) (i : Nat) : GrowsFrom (shiftBelow p) (i :: p) := by
  intro j q hq
  have hne : q ≠ p := fun e => by
    have hlength := hq.length_le
    rw [e, List.length_cons] at hlength
    omega
  rw [shiftBelow, if_neg hne]

end

/-! ## 3. Rows of expressions -/

section

variable {r : Frame} {p : Place} {m : Machine}

/-- A row of expressions one position further: where nothing at hand was made inside of `p`, its values
    mean the same keys as before. -/
theorem evalAll_shift {call : Caller} (hleaves : call.Leaves) (hcall : call.Along (shiftBelow p))
    (hr : r.Each fun o _ _ _ => ¬ p <:+ o) (hm : m.Each fun o _ _ _ => ¬ p <:+ o) (es : List Expr)
    (i : Nat) :
    (evalAll call (.frame r) p (i + 1) es m).1.map Key.ofValue =
      (evalAll call (.frame r) p i es m).1.map Key.ofValue := by
  have hstay : ∀ o, ¬ p <:+ o → shiftBelow p o = o := fun o ho => shiftBelow_of_not_suffix ho
  induction es generalizing i with
  | nil => rfl
  | cons e es ih =>
    obtain ⟨v, hv⟩ := e.eval_leaves hleaves (.frame r) (i :: p) m
    have hshifted : e.eval call (.frame r) ((i + 1) :: p) m = (v.relocate (shiftBelow p), m) := by
      have hmoved := eval_frame_relocate (shiftBelow_apart p) hcall r e m (growsFrom_shiftBelow p i)
      rw [frame_relocate_of_each hstay hr, machine_relocate_of_each hstay hm, shiftBelow_cons, hv]
        at hmoved
      rw [hmoved, Prod.map, machine_relocate_of_each hstay hm]
    rw [evalAll, evalAll, hv, hshifted]
    dsimp only
    rw [List.map_cons, List.map_cons, ofValue_relocate, ih (i + 1)]

/-- **A row of expressions one position further** ends with values that mean the same keys. -/
theorem Task.Ends.shift {d i : Nat} {es : List Expr} {vs : List Value} {m' : Machine}
    {bodies : List Nat} (h : (Task.exprs (.frame r) p i es).Ends d m vs m' bodies)
    (hr : r.Each fun o _ _ _ => ¬ p <:+ o) (hm : m.Each fun o _ _ _ => ¬ p <:+ o) :
    ∃ vs' bodies', (Task.exprs (.frame r) p (i + 1) es).Ends d m vs' m' bodies' ∧
      vs'.map Key.ofValue = vs.map Key.ofValue := by
  have hleaves := callAt_leaves (maxDepth + 1)
  have hfuel : maxDepth < (maxDepth + 1) + m.depth := by omega
  obtain ⟨vs', m'', bodies', h'⟩ := (Task.exprs (.frame r) p (i + 1) es).ends d m
  have heval := h.eval_eq hfuel
  have heval' := h'.eval_eq hfuel
  simp only [Task.eval] at heval heval'
  obtain rfl := h.leaves trivial
  obtain rfl := h'.leaves trivial
  refine ⟨vs', bodies', h', ?_⟩
  have hkeys := evalAll_shift hleaves (callAt_relocate (shiftBelow_apart p) _) hr hm es i
  rw [heval, heval'] at hkeys
  exact hkeys

end

end Trellis
