import Trellis.Proofs.Expr.Relocate
import Trellis.Proofs.Results
import Trellis.Proofs.Template.Keys
import Trellis.Proofs.Template.Lexical
import Trellis.Template.Build

/-!
# Renders that take place elsewhere

What a template shows does not depend on the places of a render but for the functions in it:
`generate_relocate` carries a tree from one render to another. The functions of the script modules
of a template that was read from markup were made by no render (`ofMarkup_relocate`).
-/

namespace Trellis

open Value

/-! ## 1. Programs -/

section

variable {f : Place → Place} (hf : Relocation f)
include hf

theorem expr_value_relocate (e : Expr) (m : Machine) (layers : Layers) {place : Place}
    (hp : 2 ≤ place.length) :
    e.value (m.relocate f) (layers.relocate f) (f place) = (e.value m layers place).relocate f :=
  congrArg Prod.fst
    (eval_relocate hf.apart (callAt_relocate hf.apart (maxDepth + 1)) (.page layers) e place m
      (hf.growsFrom hp))

theorem segmentValue_relocate (m : Machine) (layers : Layers) {place : Place} (hp : 2 ≤ place.length)
    (i : Nat) (s : Segment) :
    Program.segmentValue (m.relocate f) (layers.relocate f) (f place) i s =
      (Program.segmentValue m layers place i s).relocate f := by
  cases s with
  | text s => rfl
  | expr e =>
    rw [Program.segmentValue, Program.segmentValue, ← hf.cons i place hp]
    exact expr_value_relocate hf e m layers (two_le_cons hp i)

theorem joined_relocate (m : Machine) (layers : Layers) {place : Place} (hp : 2 ≤ place.length)
    (i : Nat) (ss : List Segment) :
    Program.joined (m.relocate f) (layers.relocate f) (f place) i ss =
      Program.joined m layers place i ss := by
  induction ss generalizing i with
  | nil => rfl
  | cons s ss ih =>
    rw [Program.joined, Program.joined, segmentValue_relocate hf m layers hp, toText_relocate, ih]

/-- **The value of a program elsewhere.** -/
theorem program_value_relocate (p : Program) (m : Machine) (layers : Layers) {place : Place}
    (hp : 2 ≤ place.length) :
    p.value (m.relocate f) (layers.relocate f) (f place) = (p.value m layers place).relocate f := by
  unfold Program.value
  split
  · exact segmentValue_relocate hf m layers hp 0 _
  · rw [joined_relocate hf m layers hp]
    rfl

end

/-! ## 2. Trees -/

/-- An attribute with functions made elsewhere. -/
def Attr.relocate (f : Place → Place) (a : Attr) : Attr := { a with value := a.value.relocate f }

namespace VNode

mutual

/-- A tree with functions made elsewhere. -/
def relocate (f : Place → Place) : VNode → VNode
  | ⟨kind, tag, component, content, key, attrs, events, children, host⟩ =>
    ⟨kind, tag, component, content, key, attrs.map (Attr.relocate f), events, relocateAll f children,
      host⟩

/-- Trees with functions made elsewhere. -/
def relocateAll (f : Place → Place) : List VNode → List VNode
  | [] => []
  | v :: vs => relocate f v :: relocateAll f vs

end

theorem relocateAll_eq (f : Place → Place) (vs : List VNode) :
    relocateAll f vs = vs.map (relocate f) := by
  induction vs with
  | nil => rfl
  | cons v vs ih => rw [relocateAll, ih, List.map_cons]

theorem key_relocate (f : Place → Place) (v : VNode) : (v.relocate f).key = v.key := by
  cases v
  rfl

theorem unkeyed_relocate (f : Place → Place) (v : VNode) :
    (v.relocate f).unkeyed = v.unkeyed.relocate f := by
  cases v
  rfl

end VNode

/-- Keys are cleared alike. -/
theorem clearRepeats_relocate (f : Place → Place) (vs : List VNode) :
    clearRepeats (vs.map (VNode.relocate f)) = (clearRepeats vs).map (VNode.relocate f) := by
  have hkeys : (vs.map (VNode.relocate f)).map VNode.key = vs.map VNode.key := by
    rw [List.map_map]
    exact List.map_congr_left fun v _ => VNode.key_relocate f v
  apply List.ext_getElem?
  intro i
  rw [getElem?_clearRepeats, List.getElem?_map, List.getElem?_map, getElem?_clearRepeats, hkeys]
  cases vs[i]? with
  | none => rfl
  | some v =>
    simp only [Option.map_some]
    split
    · rfl
    · rw [VNode.unkeyed_relocate]

/-! ## 3. Renders -/

section

variable {f : Place → Place}

theorem keyText_relocate (v : Value) : keyText (v.relocate f) = keyText v := by
  unfold keyText
  rw [isNullish_relocate, toText_relocate]

variable (hf : Relocation f)
include hf

theorem keyOf_relocate (l : Loop) (m : Machine) (layers : Layers) {place : Place}
    (hp : 2 ≤ place.length) :
    l.keyOf (m.relocate f) (layers.relocate f) (f place) = l.keyOf m layers place := by
  have hitem : ((layers.relocate f).lookup l.item).getD .undefined =
      ((layers.lookup l.item).getD .undefined).relocate f := by
    rw [layers_lookup_relocate]
    cases layers.lookup l.item <;> rfl
  unfold Loop.keyOf
  dsimp only
  rw [hitem]
  cases l.key with
  | none => rfl
  | some key =>
    cases key with
    | whole => exact keyText_relocate _
    | computed p =>
      dsimp only
      rw [program_value_relocate hf p m layers hp]
      exact keyText_relocate _
    | field path =>
      dsimp only
      cases Path.parse? path with
      | none => rfl
      | some keys =>
        dsimp only
        rw [getPath_relocate]
        exact keyText_relocate _

theorem attrValues_relocate (m : Machine) (layers : Layers) {place : Place} (hp : 2 ≤ place.length)
    (i : Nat) (attrs : List (String × Program)) :
    attrValues (m.relocate f) (layers.relocate f) (f place) i attrs =
      (attrValues m layers place i attrs).map (Attr.relocate f) := by
  induction attrs generalizing i with
  | nil => rfl
  | cons a attrs ih =>
    rw [attrValues, attrValues, ← hf.cons i place hp,
      program_value_relocate hf a.2 m layers (two_le_cons hp i), ih, List.map_cons]
    rfl

mutual

/-- **What a tree of a template means elsewhere.** -/
theorem node_meaning_relocate (m : Machine) : ∀ (n : Node) (layers : Layers) (place : Place)
    (before : Chain) (key : String), 2 ≤ place.length →
    n.meaning (m.relocate f) (layers.relocate f) (f place) before key =
      (n.meaning m layers place before key).map (VNode.relocate f)
  | .text p, layers, place, before, key, hp => by
    rw [Node.meaning, Node.meaning, program_value_relocate hf p m layers hp, toText_relocate]
    rfl
  | .element e children, layers, place, before, key, hp => by
    have hall := meaningAll_relocate m children layers (1 :: place) 0 [] (two_le_cons hp 1)
    rw [Node.meaning, Node.meaning, ← hf.cons 0 place hp, ← hf.cons 1 place hp, hall,
      attrValues_relocate hf m layers (two_le_cons hp 0)]
    cases e.kind.showing with
    | nothing => rfl
    | children => rfl
    | node kind component =>
      dsimp only
      rw [clearRepeats_relocate, List.map_cons, List.map_nil, VNode.relocate, VNode.relocateAll_eq]
  | .branch b body, layers, place, before, key, hp => by
    have htruth : (fun p : Program =>
        (p.value (m.relocate f) (layers.relocate f) (f (0 :: place))).isTruthy) =
        fun p => (p.value m layers (0 :: place)).isTruthy := by
      funext p
      rw [program_value_relocate hf p m layers (two_le_cons hp 0), isTruthy_relocate]
    rw [Node.meaning, Node.meaning, ← hf.cons 0 place hp, ← hf.cons 1 place hp, htruth,
      node_meaning_relocate m body layers (1 :: place) [] key (two_le_cons hp 1)]
    split <;> rfl
  | .loop l body, layers, place, before, key, hp => by
    rw [Node.meaning, Node.meaning, ← hf.cons 0 place hp,
      program_value_relocate hf l.source m layers (two_le_cons hp 0), items_relocate, List.zipIdx_map,
      List.flatMap_map, List.map_flatMap]
    refine congrArg (List.flatMap · _) (funext fun ⟨⟨item, index⟩, round⟩ => ?_)
    have hround : (layers.relocate f).bindRound l (item.relocate f) (index.relocate f) =
        (layers.bindRound l item index).relocate f := rfl
    have hp₁ := two_le_cons hp 1
    have hp₂ := two_le_cons hp₁ round
    dsimp only [Prod.map, id]
    rw [hround, ← hf.cons 1 place hp, ← hf.cons round _ hp₁, ← hf.cons 0 _ hp₂, ← hf.cons 1 _ hp₂,
      keyOf_relocate hf l m _ (two_le_cons hp₂ 0)]
    exact node_meaning_relocate m body _ _ [] _ (two_le_cons hp₂ 1)

theorem meaningAll_relocate (m : Machine) : ∀ (ns : List Node) (layers : Layers) (place : Place)
    (i : Nat) (before : Chain), 2 ≤ place.length →
    meaningAll (m.relocate f) (layers.relocate f) (f place) i before ns =
      (meaningAll m layers place i before ns).map (VNode.relocate f)
  | [], _, _, _, _, _ => rfl
  | n :: rest, layers, place, i, before, hp => by
    rw [meaningAll, meaningAll, ← hf.cons i place hp, List.map_append,
      node_meaning_relocate m n layers (i :: place) before "" (two_le_cons hp i),
      meaningAll_relocate m rest layers place (i + 1) (before.next n) hp]

end

end

/-! ## 4. Script modules -/

/-- What modules left holds no function that was made where `f` moves places. -/
structure StaysPut (f : Place → Place) (exports : Dict Value) (globals : List (Dict Value)) : Prop where
  exports_eq : relocateFields f exports = exports
  globals_eq : globals.map (relocateFields f) = globals

section

variable {f : Place → Place}

theorem addNode_staysPut {b : Builder} (h : StaysPut f b.exports b.globals) (n : Node) :
    StaysPut f (b.addNode n).exports (b.addNode n).globals := by
  unfold Builder.addNode
  split <;> exact h

theorem addText_staysPut {s : Setting} {b b' : Builder} {content : String}
    (hb : b.addText s content = .ok b') (h : StaysPut f b.exports b.globals) :
    StaysPut f b'.exports b'.globals := by
  unfold Builder.addText at hb
  dsimp only at hb
  split at hb
  · cases hb
    exact h
  · obtain ⟨p, _, rfl⟩ := map_eq_ok_iff.mp hb
    exact addNode_staysPut h _

variable (hf : Relocation f)
  (hmodule : ∀ module, f (modulePlace module) = modulePlace module)
include hf hmodule

theorem runModule_relocate {exports : Dict Value} {globals : List (Dict Value)}
    (h : StaysPut f exports globals) (body : List Stmt) :
    (runModule globals body).globals.map (relocateFields f) = (runModule globals body).globals ∧
      (runModule globals body).exports.relocate f = (runModule globals body).exports := by
  have hstart : Machine.relocate f ⟨globals ++ [initialGlobals], 0⟩ = ⟨globals ++ [initialGlobals], 0⟩ := by
    rw [Machine.relocate, List.map_append, h.globals_eq]
    rfl
  have hframe : Frame.relocate f ⟨[], globals.length, true⟩ = ⟨[], globals.length, true⟩ := rfl
  have hrun := exec_relocate hf.apart (callAt_relocate hf.apart (maxDepth + 1)) (.block body)
    (modulePlace globals.length) ⟨[], globals.length, true⟩ ⟨globals ++ [initialGlobals], 0⟩
    (hf.growsFrom (Nat.le_refl 2))
  rw [hstart, hmodule, hframe] at hrun
  obtain ⟨flow, r, m, e⟩ : ∃ flow r m, Stmt.exec callFunction (modulePlace globals.length) (.block body)
      ⟨[], globals.length, true⟩ ⟨globals ++ [initialGlobals], 0⟩ = (flow, r, m) := ⟨_, _, _, rfl⟩
  rw [callFunction] at e
  rw [e, relocateEnd, Prod.mk.injEq, Prod.mk.injEq] at hrun
  obtain ⟨_, hr, hm⟩ := hrun
  have hmodule : runModule globals body = ⟨m.globals, (r.lookup m "exports").getD .undefined⟩ := by
    unfold runModule callFunction
    dsimp only
    rw [e]
  rw [hmodule]
  refine ⟨(congrArg Machine.globals hm).symm, ?_⟩
  have hlookup := frame_lookup_relocate (f := f) r m "exports"
  rw [← hr, ← hm] at hlookup
  dsimp only
  cases hexports : r.lookup m "exports" with
  | none => rfl
  | some v =>
    rw [hexports] at hlookup
    exact (Option.some.inj hlookup).symm

theorem runScript_staysPut {b b' : Builder} {o : Opened} (hb : b.runScript o = .ok b')
    (h : StaysPut f b.exports b.globals) : StaysPut f b'.exports b'.globals := by
  unfold Builder.runScript at hb
  split at hb
  · rename_i name _ _
    obtain ⟨run, hrun, rfl⟩ := map_eq_ok_iff.mp hb
    unfold evaluateModule at hrun
    cases hbody : Grammar.parseModule? o.script with
    | none =>
      rw [hbody] at hrun
      cases hrun
    | some body =>
      rw [hbody] at hrun
      cases hrun
      obtain ⟨hglobals, hexports⟩ := runModule_relocate hf hmodule h body
      refine ⟨?_, hglobals⟩
      dsimp only
      rw [← insert_relocate, h.exports_eq, hexports]
  · cases hb
    exact h

theorem step_staysPut {s : Setting} {b b' : Builder} {event : Markup.Event}
    (hb : Builder.step s b event = .ok b') (h : StaysPut f b.exports b.globals) :
    StaysPut f b'.exports b'.globals := by
  unfold Builder.step at hb
  split at hb
  · rename_i tag attrs selfClosing
    obtain ⟨kind, _, hb⟩ := bind_eq_ok_iff.mp hb
    obtain ⟨heading, _, hb⟩ := bind_eq_ok_iff.mp hb
    cases hb
    split
    · exact addNode_staysPut h _
    · exact h
  · cases hb
  · split at hb
    · cases hb
      exact h
    · rename_i o rest _
      obtain ⟨b₁, hscript, rfl⟩ := map_eq_ok_iff.mp hb
      have h₁ := runScript_staysPut hf hmodule hscript h
      exact @addNode_staysPut f { b₁ with opened := rest } h₁ _
  · split at hb
    · split at hb
      · cases hb
        exact h
      · exact addText_staysPut hb h
    · exact addText_staysPut hb h

theorem foldlM_staysPut {s : Setting} {events : List Markup.Event} {b b' : Builder}
    (hb : events.foldlM (Builder.step s) b = .ok b') (h : StaysPut f b.exports b.globals) :
    StaysPut f b'.exports b'.globals := by
  induction events generalizing b with
  | nil =>
    cases hb
    exact h
  | cons event events ih =>
    rw [List.foldlM_cons] at hb
    obtain ⟨b₁, hstep, hb⟩ := bind_eq_ok_iff.mp hb
    exact ih hb (step_staysPut hf hmodule hstep h)

/-- **The script modules of markup make no function where places move.** -/
theorem ofMarkup_staysPut {s : Setting} {name markup : String} {t : Template}
    (h : Template.ofMarkup s name markup = .ok t) : StaysPut f t.exports t.globals := by
  unfold Template.ofMarkup at h
  obtain ⟨b, hfold, h⟩ := bind_eq_ok_iff.mp h
  have hb := foldlM_staysPut hf hmodule hfold ⟨rfl, rfl⟩
  cases hfailure : (Markup.scan markup s.config.scriptTag).failure markup with
  | some e =>
    rw [hfailure] at h
    cases h
  | none =>
    rw [hfailure] at h
    cases h
    exact hb

end

section

variable {f : Place → Place} (hf : Relocation f)
include hf

/-- **A render elsewhere**: it shows the same tree, with functions made there. -/
theorem generate_relocate {t : Template} (ht : StaysPut f t.exports t.globals) {data : Dict Value}
    (hdata : relocateFields f data = data) {run run' : Nat}
    (hrun : f (renderPlace run) = renderPlace run') :
    t.generate run' data = (t.generate run data).relocate f := by
  have hall := meaningAll_relocate hf t.machine t.children (t.layers data) (renderPlace run) 0 []
    (Nat.le_refl 2)
  have hlayers : (t.layers data).relocate f = t.layers data := by
    rw [Template.layers, Layers.relocate, hdata, ht.exports_eq]
    rfl
  have hmachine : t.machine.relocate f = t.machine := by
    rw [Template.machine, Machine.relocate, ht.globals_eq]
  rw [hlayers, hmachine, hrun] at hall
  rw [t.generate_eq, t.generate_eq, hall, clearRepeats_relocate, VNode.root, VNode.root,
    VNode.relocate, VNode.relocateAll_eq]
  rfl

end

end Trellis
