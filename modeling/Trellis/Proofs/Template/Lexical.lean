import Trellis.Proofs.Expr.Names
import Trellis.Template.Generate

/-!
# Lexical scoping

`Node.meaning` says what a tree shows in an environment that is handed down: a loop gives its body
the environment with the item and the index of the round, everything else hands on what it was given.
The generator keeps one stack for all of that. `Node.generate_run`: it shows what the tree means for
the names on the stack, and leaves the stack as it found it. So nothing that a loop binds is seen
behind it (`generate_lexical`).
-/

namespace Trellis

/-! ## 1. Names in scope -/

theorem Layers.lookup_push (l : Layers) (name : String) (value : Value) (x : String) :
    (l.push name value).lookup x = if name = x then some value else l.lookup x := by
  rw [Layers.lookup, Layers.push, Dict.get?]
  split
  · rfl
  · rfl

/-- What is seen in a round of a loop: the item, and over it the index. -/
def Layers.bindRound (layers : Layers) (l : Loop) (item index : Value) : Layers :=
  (layers.push l.item item).push l.index index

theorem Layers.pop_bindRound (layers : Layers) (l : Loop) (item index : Value) :
    (layers.bindRound l item index).pop.pop = layers := rfl

/-- The index is found first, then the item, then what is around the loop. -/
theorem Layers.lookup_bindRound (layers : Layers) (l : Loop) (item index : Value) (x : String) :
    (layers.bindRound l item index).lookup x =
      if l.index = x then some index else if l.item = x then some item else layers.lookup x := by
  rw [bindRound, lookup_push, lookup_push]

/-! ## 2. What expressions see -/

/-- A program depends on the names in scope only through what they stand for. -/
theorem Program.value_congr {layers layers' : Layers} (h : ∀ x, layers.lookup x = layers'.lookup x)
    (p : Program) (m : Machine) (place : Place) : p.value m layers place = p.value m layers' place :=
  Program.value_agree (P := fun _ => True) (fun x _ => h x) m place fun _ _ => trivial

/-! ## 3. What trees mean -/

mutual

/-- The nodes that show a tree in an environment, behind a chain of branches and under the key of the
    loop around it. -/
def Node.meaning (m : Machine) (layers : Layers) (place : Place) (before : Chain) (key : String) :
    Node → List VNode
  | .text p => [VNode.ofText (p.value m layers place).toText]
  | .element e children =>
    match e.kind.showing with
    | .nothing => []
    | .children => meaningAll m layers (1 :: place) 0 [] children
    | .node kind component =>
      [{ VNode.plain kind e.tag with
          component, key
          attrs := attrValues m layers (0 :: place) 0 e.attrs
          events := e.events
          children := clearRepeats (meaningAll m layers (1 :: place) 0 [] children) }]
  | .branch b body =>
    if b.holds (fun p => (p.value m layers (0 :: place)).isTruthy) before then
      body.meaning m layers (1 :: place) [] key
    else []
  | .loop l body =>
    ((l.source.value m layers (0 :: place)).items.zipIdx).flatMap fun ((item, index), round) =>
      let layers := layers.bindRound l item index
      let place := round :: 1 :: place
      body.meaning m layers (1 :: place) [] (l.keyOf m layers (0 :: place))

/-- The nodes that show trees one behind the other in an environment, the first of them at position
    `i`. -/
def meaningAll (m : Machine) (layers : Layers) (place : Place) (i : Nat) (before : Chain) :
    List Node → List VNode
  | [] => []
  | n :: rest =>
    n.meaning m layers (i :: place) before ""
      ++ meaningAll m layers place (i + 1) (before.next n) rest

end

/-! ## 4. The generator -/

section

variable {α β : Type} {x : Scoped α} {l l' : Layers} {a : α}

/-- The rest of a run behind its first part. -/
theorem Scoped.run_bind (h : x.run l = (a, l')) (f : α → Scoped β) :
    (x >>= f).run l = (f a).run l' := by
  rw [StateT.run_bind, h]
  rfl

theorem Scoped.run_get_bind (f : Layers → Scoped β) : (get >>= f).run l = (f l).run l := rfl

theorem Scoped.run_modify_bind (g : Layers → Layers) (f : Unit → Scoped β) :
    (modify g >>= f).run l = (f ()).run (g l) := rfl

/-- Parts that leave the names as they are, one behind the other. -/
theorem Scoped.run_flatMapM {f : β → Scoped (List α)} {g : β → List α}
    (h : ∀ b, (f b).run l = (g b, l)) (bs : List β) :
    (bs.flatMapM f).run l = (bs.flatMap g, l) := by
  induction bs with
  | nil =>
    rw [List.flatMapM_nil]
    rfl
  | cons b bs ih =>
    rw [List.flatMapM_cons, Scoped.run_bind (h b), Scoped.run_bind ih]
    rfl

end

mutual

/-- **The generator shows what a tree means, and leaves the stack as it was.** -/
theorem Node.generate_run (m : Machine) : ∀ (n : Node) (layers : Layers) (place : Place)
    (before : Chain) (key : String),
    (n.generate m place before key).run layers = (n.meaning m layers place before key, layers)
  | .text p, layers, place, before, key => by
    rw [Node.generate, Node.meaning]
    rfl
  | .element e children, layers, place, before, key => by
    have hall := generateAll_run m children layers (1 :: place) 0 []
    rw [Node.generate, Node.meaning]
    cases e.kind.showing with
    | nothing => rfl
    | children => exact hall
    | node kind component =>
      dsimp only
      rw [Scoped.run_get_bind, Scoped.run_bind hall]
      rfl
  | .branch b body, layers, place, before, key => by
    rw [Node.generate, Node.meaning, Scoped.run_get_bind]
    split
    · exact Node.generate_run m body layers (1 :: place) [] key
    · rfl
  | .loop l body, layers, place, before, key => by
    rw [Node.generate, Node.meaning, Scoped.run_get_bind]
    refine Scoped.run_flatMapM (fun ⟨⟨item, index⟩, round⟩ => ?_) _
    have hbody := Node.generate_run m body (layers.bindRound l item index) (1 :: round :: 1 :: place)
      [] (l.keyOf m (layers.bindRound l item index) (0 :: round :: 1 :: place))
    dsimp only
    rw [Scoped.run_modify_bind, Scoped.run_modify_bind, ← Layers.bindRound, Scoped.run_get_bind,
      Scoped.run_bind hbody, Scoped.run_modify_bind, Scoped.run_modify_bind, Layers.pop_bindRound]
    rfl

theorem generateAll_run (m : Machine) : ∀ (ns : List Node) (layers : Layers) (place : Place)
    (i : Nat) (before : Chain),
    (generateAll m place i before ns).run layers = (meaningAll m layers place i before ns, layers)
  | [], _, _, _, _ => by
    rw [generateAll, meaningAll]
    rfl
  | n :: rest, layers, place, i, before => by
    rw [generateAll, meaningAll, Scoped.run_bind (Node.generate_run m n layers (i :: place) before ""),
      Scoped.run_bind (generateAll_run m rest layers place (i + 1) (before.next n))]
    rfl

end

theorem Template.generate_eq (t : Template) (run : Nat) (data : Dict Value) :
    t.generate run data = .root (clearRepeats
      (meaningAll t.machine (t.layers data) (renderPlace run) 0 [] t.children)) := by
  rw [Template.generate, generateAll_run]

/-- **The generator implements lexical scoping.** What is shown is what the template means in the
    environment of the data and, behind them, the exports. Every tree is generated to what it means
    for the names on the stack and leaves the stack as it found it. In a round of a loop the index is
    seen first, then the item, then what is seen around the loop; and programs see nothing else of an
    environment. -/
theorem generate_lexical (t : Template) (run : Nat) (data : Dict Value) :
    t.generate run data = .root (clearRepeats
        (meaningAll t.machine (t.layers data) (renderPlace run) 0 [] t.children)) ∧
      (∀ (n : Node) (m : Machine) (layers : Layers) (place : Place) (before : Chain) (key : String),
        (n.generate m place before key).run layers =
          (n.meaning m layers place before key, layers)) ∧
      (∀ x, (t.layers data).lookup x = (Dict.get? data x).or (Dict.get? t.exports x)) ∧
      (∀ (layers : Layers) (l : Loop) (item index : Value) (x : String),
        (layers.bindRound l item index).lookup x =
          if l.index = x then some index else if l.item = x then some item else layers.lookup x) ∧
      ∀ (p : Program) (m : Machine) (layers layers' : Layers) (place : Place),
        (∀ x, layers.lookup x = layers'.lookup x) → p.value m layers place = p.value m layers' place :=
  ⟨t.generate_eq run data, fun n m layers place before key => n.generate_run m layers place before key,
    fun _ => rfl, Layers.lookup_bindRound,
    fun p m _ _ place h => Program.value_congr h p m place⟩

end Trellis
