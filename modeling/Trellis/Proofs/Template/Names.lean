import Trellis.Proofs.Expr.Names
import Trellis.Proofs.Template.Lexical

/-!
# The names in a template

A template looks up the names that are written in its tests, loops, keys, attributes and texts. Data
that agree on these are shown alike (`Template.generate_agree`); nothing else in the data shows.
- The item of a loop is no name of its key, since a round finds it whatever is around the loop.
- A test that goes on with a chain is decided by the tests before it, and these are looked at where it
  stands; so the names of a chain count too (`Node.meaning_agree`).
-/
namespace Trellis

/-! ## 1. Names -/

/-- The tests of a branch. -/
def Branch.tests (b : Branch) : List Program := b.ifTest.toList ++ b.elifTest.toList

/-- The names that the tests of a branch look up. -/
def Branch.names (b : Branch) : List String := b.tests.flatMap Program.names

/-- The names that a key looks up. A key that is a field, or the item, is found in the item. -/
def KeySpec.names : Option KeySpec → List String
  | some (.computed p) => p.names
  | _ => []

/-- The names that a loop looks up, but for those in its body. -/
def Loop.names (l : Loop) : List String := l.source.names ++ KeySpec.names l.key

/-- The names that the attributes of an element look up. -/
def Element.names (e : Element) : List String := e.attrs.flatMap fun a => a.2.names

mutual

/-- The names in a tree. -/
def Node.names : Node → List String
  | .text p => p.names
  | .element e children => e.names ++ Node.namesAll children
  | .branch b body => b.names ++ body.names
  | .loop l body => l.names ++ body.names

/-- The names in trees. -/
def Node.namesAll : List Node → List String
  | [] => []
  | n :: rest => n.names ++ Node.namesAll rest

end

/-- The names in a template. -/
def Template.names (t : Template) : List String := Node.namesAll t.children

/-! ## 2. Branches and keys -/

/-- The tests of a chain say the same where the programs in it do. -/
theorem Chain.taken_agree {truth truth' : Program → Bool} {before : Chain}
    (h : ∀ b ∈ before, ∀ p ∈ b.tests, truth p = truth' p) :
    before.taken truth = before.taken truth' := by
  induction before with
  | nil => rfl
  | cons b before ih =>
    have hb := h b List.mem_cons_self
    have hbefore := ih fun b hb => h b (List.mem_cons_of_mem _ hb)
    unfold Chain.taken
    unfold Branch.tests at hb
    cases hif : b.ifTest with
    | some p => exact hb p (by simp [hif])
    | none =>
      cases helif : b.elifTest with
      | none => rfl
      | some p =>
        dsimp only
        rw [hbefore, hb p (by simp [helif])]

theorem Branch.holds_agree {truth truth' : Program → Bool} {before : Chain} {b : Branch}
    (h : ∀ b' ∈ b :: before, ∀ p ∈ b'.tests, truth p = truth' p) :
    b.holds truth before = b.holds truth' before := by
  have hb := h b List.mem_cons_self
  have hbefore := Chain.taken_agree fun b hb => h b (List.mem_cons_of_mem _ hb)
  unfold Branch.holds
  unfold Branch.tests at hb
  cases hif : b.ifTest with
  | some p => exact hb p (by simp [hif])
  | none =>
    cases helif : b.elifTest with
    | none => rw [hbefore]
    | some p =>
      dsimp only
      rw [hbefore, hb p (by simp [helif])]

/-- The branches that a tree leaves for what follows are in the tree, or were there before. -/
theorem mem_next {before : Chain} {n : Node} {b : Branch} (h : b ∈ before.next n) :
    (∀ x ∈ b.names, x ∈ n.names) ∨ b ∈ before := by
  unfold Chain.next at h
  split at h
  · rename_i b' body
    have hin : ∀ x ∈ b'.names, x ∈ (Node.branch b' body).names := fun x hx =>
      List.mem_append_left _ hx
    split at h
    · rw [List.mem_singleton] at h
      exact .inl (h ▸ hin)
    · split at h
      · rcases List.mem_cons.mp h with rfl | h
        · exact .inl hin
        · exact .inr h
      · cases h
  · rename_i l b' body
    split at h
    · rw [List.mem_singleton] at h
      subst h
      exact .inl fun x hx => List.mem_append_right _ (List.mem_append_left _ hx)
    · cases h
  · cases h

section

variable {P : String → Prop} {layers layers' : Layers} (h : layers.AgreeOn P layers')
include h

/-- In a round of a loop more names agree. -/
theorem Layers.AgreeOn.bindRound (l : Loop) (item index : Value) :
    (layers.bindRound l item index).AgreeOn P (layers'.bindRound l item index) := by
  intro x hx
  rw [Layers.lookup_bindRound, Layers.lookup_bindRound, h x hx]

/-- **A key looks up its names**; the item is there, whatever is around the loop. -/
theorem keyOf_agree {l : Loop} (m : Machine) (place : Place) (item index : Value)
    (hn : ∀ x ∈ KeySpec.names l.key, P x) :
    l.keyOf m (layers.bindRound l item index) place =
      l.keyOf m (layers'.bindRound l item index) place := by
  have hitem : (layers.bindRound l item index).lookup l.item =
      (layers'.bindRound l item index).lookup l.item := by
    rw [Layers.lookup_bindRound, Layers.lookup_bindRound, if_pos (rfl : l.item = l.item),
      if_pos (rfl : l.item = l.item)]
  unfold Loop.keyOf
  rw [hitem]
  split
  · rfl
  · rfl
  · rfl
  · rename_i p hkey
    rw [hkey] at hn
    rw [Program.value_agree (h.bindRound l item index) m place hn]

theorem attrValues_agree (m : Machine) (place : Place) (i : Nat) {attrs : List (String × Program)}
    (hn : ∀ x ∈ attrs.flatMap (fun a => a.2.names), P x) :
    attrValues m layers place i attrs = attrValues m layers' place i attrs := by
  induction attrs generalizing i with
  | nil => rfl
  | cons a attrs ih =>
    rw [List.flatMap_cons] at hn
    obtain ⟨ha, hattrs⟩ := List.forall_mem_append.mp hn
    rw [attrValues, attrValues, Program.value_agree h m _ ha, ih _ hattrs]

end

/-! ## 3. Trees -/

section

variable {P : String → Prop}

mutual

/-- **What a tree means depends on the names in it**, and on those of the chain before it. -/
theorem Node.meaning_agree (m : Machine) : ∀ (n : Node) {layers layers' : Layers}
    (_ : layers.AgreeOn P layers') (place : Place) {before : Chain} (key : String),
    (∀ b ∈ before, ∀ x ∈ b.names, P x) → (∀ x ∈ n.names, P x) →
    n.meaning m layers place before key = n.meaning m layers' place before key
  | .text p, layers, layers', h, place, before, key, _, hn => by
    rw [Node.meaning, Node.meaning, Program.value_agree h m place hn]
  | .element e children, layers, layers', h, place, before, key, _, hn => by
    obtain ⟨hattrs, hchildren⟩ := List.forall_mem_append.mp hn
    rw [Node.meaning, Node.meaning, attrValues_agree h m _ 0 hattrs,
      meaningAll_agree m children h _ 0 (fun b hb => absurd hb List.not_mem_nil) hchildren]
  | .branch b body, layers, layers', h, place, before, key, hbefore, hn => by
    obtain ⟨hb, hbody⟩ := List.forall_mem_append.mp hn
    have htests : ∀ b' ∈ b :: before, ∀ p ∈ b'.tests,
        (p.value m layers (0 :: place)).isTruthy = (p.value m layers' (0 :: place)).isTruthy := by
      intro b' hb' p hp
      have hnames : ∀ x ∈ b'.names, P x := by
        rcases List.mem_cons.mp hb' with rfl | hb'
        · exact hb
        · exact hbefore b' hb'
      rw [Program.value_agree h m _ fun x hx => hnames x (List.mem_flatMap.mpr ⟨p, hp, hx⟩)]
    rw [Node.meaning, Node.meaning, Branch.holds_agree htests,
      Node.meaning_agree m body h _ key (fun b hb => absurd hb List.not_mem_nil) hbody]
  | .loop l body, layers, layers', h, place, before, key, _, hn => by
    obtain ⟨hl, hbody⟩ := List.forall_mem_append.mp hn
    obtain ⟨hsource, hkey⟩ := List.forall_mem_append.mp hl
    rw [Node.meaning, Node.meaning, Program.value_agree h m _ hsource]
    refine congrArg (List.flatMap · _) (funext fun ⟨⟨item, index⟩, round⟩ => ?_)
    dsimp only
    rw [keyOf_agree h m _ item index hkey]
    exact Node.meaning_agree m body (h.bindRound l item index) _ _
      (fun b hb => absurd hb List.not_mem_nil) hbody

theorem meaningAll_agree (m : Machine) : ∀ (ns : List Node) {layers layers' : Layers}
    (_ : layers.AgreeOn P layers') (place : Place) (i : Nat) {before : Chain},
    (∀ b ∈ before, ∀ x ∈ b.names, P x) → (∀ x ∈ Node.namesAll ns, P x) →
    meaningAll m layers place i before ns = meaningAll m layers' place i before ns
  | [], _, _, _, _, _, _, _, _ => rfl
  | n :: rest, layers, layers', h, place, i, before, hbefore, hn => by
    obtain ⟨hhere, hrest⟩ := List.forall_mem_append.mp hn
    rw [meaningAll, meaningAll, Node.meaning_agree m n h _ "" hbefore hhere,
      meaningAll_agree m rest h place (i + 1) (fun b hb x hx => ?_) hrest]
    exact (mem_next hb).elim (fun hin => hhere x (hin x hx)) fun hb => hbefore b hb x hx

end

end

/-- **A render depends on the names in its template**, and on nothing else of the data. -/
theorem Template.generate_agree {t : Template} {data data' : Dict Value}
    (h : ∀ x ∈ t.names, Dict.get? data x = Dict.get? data' x) (run : Nat) :
    t.generate run data = t.generate run data' := by
  have hlayers : (t.layers data).AgreeOn (· ∈ t.names) (t.layers data') := by
    intro x hx
    show (Dict.get? data x).or (Dict.get? t.exports x) = (Dict.get? data' x).or (Dict.get? t.exports x)
    rw [h x hx]
  rw [t.generate_eq, t.generate_eq,
    meaningAll_agree t.machine t.children hlayers _ 0 (fun b hb => absurd hb List.not_mem_nil)
      fun x hx => hx]

end Trellis
