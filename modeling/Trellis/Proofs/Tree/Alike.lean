import Trellis.Proofs.Tree.Changes

/-!
# Trees up to the order of attributes

`VNode.Alike` is equality of trees, whatever hosts them, in which the attributes of each node may
stand in another order. It is looked at on plain trees (`VNode.Plain`): there a text is nothing but
its content, and no node repeats the name of an attribute.

Neither depends on hosts (`alike_detach`, `plain_detach`).
-/

namespace Trellis

namespace Attrs

/-! ## 1. Attributes in another order -/

/-- The same attributes, in whatever order. -/
def Reordered (l m : List Attr) : Prop := ∃ l' : List Attr, l'.Perm l ∧ (l' == m) = true

theorem beq_cons {a b : Attr} {l m : List Attr} :
    ((a :: l) == (b :: m)) = true ↔
      a.name = b.name ∧ Value.same a.value b.value = true ∧ (l == m) = true := by
  rw [List.cons_beq_cons, Bool.and_eq_true, ← and_assoc]
  refine and_congr ?_ Iff.rfl
  show (a.name == b.name && Value.same a.value b.value) = true ↔ _
  rw [Bool.and_eq_true, beq_iff_eq]

theorem beq_refl (l : List Attr) : (l == l) = true := by
  induction l with
  | nil => rfl
  | cons a l ih => exact beq_cons.mpr ⟨rfl, Value.same_refl _, ih⟩

theorem Reordered.refl (l : List Attr) : Reordered l l := ⟨l, List.Perm.refl l, beq_refl l⟩

theorem valuesOf_append (l m : List Attr) (name : String) :
    valuesOf (l ++ m) name = valuesOf l name ++ valuesOf m name := List.filterMap_append

/-- Lists of distinct names with the same value under every name are the same up to order. -/
theorem reordered_of_sameOption {l m : List Attr} (hl : (names l).Nodup) (hm : (names m).Nodup)
    (h : ∀ name, Value.sameOption (last? l name) (last? m name)) : Reordered l m := by
  induction m generalizing l with
  | nil =>
    cases l with
    | nil => exact .refl []
    | cons b l =>
      have hb := h b.name
      have hsome : last? (b :: l) b.name ≠ none := fun e =>
        last?_eq_none_iff.mp e List.mem_cons_self
      cases e : last? (b :: l) b.name with
      | none => exact absurd e hsome
      | some v =>
        rw [e] at hb
        exact hb.elim
  | cons a m ih =>
    obtain ⟨ham, hm⟩ := List.nodup_cons.mp hm
    have hlast : last? (a :: m) a.name = some a.value := by
      rw [last?, last?_eq_none_iff.mpr ham, if_pos rfl, Option.none_or]
    have ha := h a.name
    rw [hlast] at ha
    cases e : last? l a.name with
    | none =>
      rw [e] at ha
      exact ha.elim
    | some v =>
      rw [e] at ha
      obtain ⟨b, hb, hname, rfl⟩ := Diff.mem_names_of_last? e
      obtain ⟨l₁, l₂, rfl⟩ := List.append_of_mem hb
      have hperm : (b :: (l₁ ++ l₂)).Perm (l₁ ++ b :: l₂) := List.perm_middle.symm
      obtain ⟨hbl, hrest⟩ := List.nodup_cons.mp ((hperm.map Attr.name).nodup_iff.mpr hl)
      have hothers : ∀ name, Value.sameOption (last? (l₁ ++ l₂) name) (last? m name) := by
        intro name
        by_cases en : name = a.name
        · have hl₁₂ : last? (l₁ ++ l₂) name = none :=
            last?_eq_none_iff.mpr (en ▸ hname ▸ hbl)
          have hm' : last? m name = none := last?_eq_none_iff.mpr (en ▸ ham)
          rw [hl₁₂, hm']
          trivial
        · have hl' : last? (l₁ ++ b :: l₂) name = last? (l₁ ++ l₂) name := by
            rw [last?_eq_getLast?, last?_eq_getLast?, valuesOf_append, valuesOf_append, valuesOf_cons,
              if_neg fun eb => en (eb.symm.trans hname)]
          have hm' : last? (a :: m) name = last? m name := by
            rw [last?, if_neg fun ea => en ea.symm, Option.or_none]
          rw [← hl', ← hm']
          exact h name
      obtain ⟨l', hl', hbeq⟩ := ih hrest hm hothers
      exact ⟨b :: l', (hl'.cons b).trans hperm, beq_cons.mpr ⟨hname, ha, hbeq⟩⟩

theorem sameOption_of_beq {l m : List Attr} (h : (l == m) = true) (name : String) :
    Value.sameOption (last? l name) (last? m name) := by
  induction l generalizing m with
  | nil =>
    cases m with
    | nil => trivial
    | cons b m => cases h
  | cons a l ih =>
    cases m with
    | nil => cases h
    | cons b m =>
      obtain ⟨hname, hvalue, hrest⟩ := beq_cons.mp h
      have hlast := ih hrest
      rw [last?, last?, hname]
      cases hl : last? l name with
      | none =>
        cases hm : last? m name with
        | none =>
          rw [Option.none_or, Option.none_or]
          split
          · exact hvalue
          · trivial
        | some w =>
          rw [hl, hm] at hlast
          exact hlast.elim
      | some v =>
        cases hm : last? m name with
        | none =>
          rw [hl, hm] at hlast
          exact hlast.elim
        | some w =>
          rw [hl, hm] at hlast
          exact hlast

theorem sameOption_of_reordered {l m : List Attr} (h : Reordered l m) (hl : (names l).Nodup)
    (name : String) : Value.sameOption (last? l name) (last? m name) := by
  obtain ⟨l', hperm, hbeq⟩ := h
  have hvalues : valuesOf l' name = valuesOf l name := by
    have hp : (valuesOf l' name).Perm (valuesOf l name) := hperm.filterMap _
    have hle := length_valuesOf_le_one hl name
    match e : valuesOf l name, hle with
    | [], _ => exact List.perm_nil.mp (e ▸ hp)
    | [v], _ => exact List.perm_singleton.mp (e ▸ hp)
  have hlast : last? l name = last? l' name := by
    rw [last?_eq_getLast?, last?_eq_getLast?, hvalues]
  rw [hlast]
  exact sameOption_of_beq hbeq name

end Attrs

namespace VNode

/-! ## 2. Trees -/

/-- A property of a node that follows from that of its children holds of every node. -/
theorem induction {P : VNode → Prop} (h : ∀ v : VNode, (∀ c ∈ v.children, P c) → P v) (v : VNode) :
    P v := by
  refine @VNode.rec P (fun cs => ∀ c ∈ cs, P c) ?_ ?_ ?_ v
  · intro kind tag component content key attrs events children host ih
    exact h _ ih
  · exact fun c hc => absurd hc List.not_mem_nil
  · intro c cs hc hcs d hd
    rcases List.mem_cons.mp hd with rfl | hd
    · exact hc
    · exact hcs d hd

/-- A property holds of a node and of all nodes below it. -/
inductive Everywhere (P : VNode → Prop) : VNode → Prop
  | node {v : VNode} (top : P v) (below : ∀ c ∈ v.children, Everywhere P c) : Everywhere P v

theorem Everywhere.top {P : VNode → Prop} {v : VNode} (h : v.Everywhere P) : P v := by
  cases h with
  | node top below => exact top

theorem Everywhere.child {P : VNode → Prop} {v c : VNode} (h : v.Everywhere P) (hc : c ∈ v.children) :
    c.Everywhere P := by
  cases h with
  | node top below => exact below c hc

theorem detachAll_eq_map (vs : List VNode) : detachAll vs = vs.map detach := by
  induction vs with
  | nil => rfl
  | cons v vs ih => rw [detachAll, ih, List.map_cons]

mutual

/-- The same tree, whatever hosts it and in whatever order attributes stand. -/
def Alike : VNode → VNode → Prop
  | ⟨kind, tag, component, content, key, attrs, events, children, _⟩, w =>
    kind = w.kind ∧ tag = w.tag ∧ component = w.component ∧ content = w.content ∧ key = w.key ∧
      Attrs.Reordered attrs w.attrs ∧ events = w.events ∧ AlikeAll children w.children

/-- The same trees in the same order. -/
def AlikeAll : List VNode → List VNode → Prop
  | [], [] => True
  | v :: vs, w :: ws => Alike v w ∧ AlikeAll vs ws
  | _, _ => False

end

mutual

/-- A text is nothing but its content, another node has none, and no node repeats the name of an
    attribute. -/
def Plain : VNode → Prop
  | ⟨kind, tag, component, content, key, attrs, events, children, _⟩ =>
    (if kind = .text then tag = "" ∧ component = none ∧ key = "" ∧ attrs = [] ∧ events = [] ∧
        children = []
      else content = "") ∧ (Attrs.names attrs).Nodup ∧ PlainAll children

/-- Plain trees. -/
def PlainAll : List VNode → Prop
  | [] => True
  | v :: vs => Plain v ∧ PlainAll vs

end

theorem plainAll_iff {vs : List VNode} : PlainAll vs ↔ ∀ v ∈ vs, v.Plain := by
  induction vs with
  | nil => exact ⟨fun _ _ hv => absurd hv List.not_mem_nil, fun _ => trivial⟩
  | cons v vs ih => rw [PlainAll, ih, List.forall_mem_cons]

theorem plain_iff {v : VNode} :
    v.Plain ↔
      (if v.kind = .text then v.tag = "" ∧ v.component = none ∧ v.key = "" ∧ v.attrs = [] ∧
          v.events = [] ∧ v.children = []
        else v.content = "") ∧ (Attrs.names v.attrs).Nodup ∧ ∀ c ∈ v.children, c.Plain := by
  obtain ⟨kind, tag, component, content, key, attrs, events, children, host⟩ := v
  rw [Plain, plainAll_iff]

theorem Plain.children {v : VNode} (h : v.Plain) : ∀ c ∈ v.children, c.Plain :=
  (plain_iff.mp h).2.2

theorem Plain.nodup_names {v : VNode} (h : v.Plain) : (Attrs.names v.attrs).Nodup :=
  (plain_iff.mp h).2.1

theorem Plain.of_text {v : VNode} (h : v.Plain) (hv : v.kind = .text) :
    v.tag = "" ∧ v.component = none ∧ v.key = "" ∧ v.attrs = [] ∧ v.events = [] ∧ v.children = [] := by
  have hall := (plain_iff.mp h).1
  rwa [if_pos hv] at hall

theorem Plain.content_eq {v : VNode} (h : v.Plain) (hv : v.kind ≠ .text) : v.content = "" := by
  have hall := (plain_iff.mp h).1
  rwa [if_neg hv] at hall

theorem alikeAll_iff {vs ws : List VNode} :
    AlikeAll vs ws ↔ vs.length = ws.length ∧
      ∀ (k : Nat) (v w : VNode), vs[k]? = some v → ws[k]? = some w → Alike v w := by
  induction vs generalizing ws with
  | nil =>
    cases ws with
    | nil => exact ⟨fun _ => ⟨rfl, fun k v w hv => by cases hv⟩, fun _ => trivial⟩
    | cons w ws => exact ⟨False.elim, fun h => by cases h.1⟩
  | cons v vs ih =>
    cases ws with
    | nil => exact ⟨False.elim, fun h => by cases h.1⟩
    | cons w ws =>
      rw [AlikeAll, ih]
      constructor
      · rintro ⟨hhead, hlen, hrest⟩
        refine ⟨congrArg (· + 1) hlen, fun k a b ha hb => ?_⟩
        cases k with
        | zero =>
          cases ha
          cases hb
          exact hhead
        | succ k => exact hrest k a b ha hb
      · rintro ⟨hlen, hall⟩
        exact ⟨hall 0 v w rfl rfl, Nat.succ.inj hlen, fun k a b ha hb => hall (k + 1) a b ha hb⟩

theorem alike_iff {v w : VNode} :
    Alike v w ↔
      v.kind = w.kind ∧ v.tag = w.tag ∧ v.component = w.component ∧ v.content = w.content ∧
        v.key = w.key ∧ Attrs.Reordered v.attrs w.attrs ∧ v.events = w.events ∧
        AlikeAll v.children w.children := by
  cases v
  exact Iff.rfl

theorem map_key_of_alikeAll {vs ws : List VNode} (h : AlikeAll vs ws) :
    vs.map VNode.key = ws.map VNode.key := by
  induction vs generalizing ws with
  | nil =>
    cases ws with
    | nil => rfl
    | cons w ws => exact h.elim
  | cons v vs ih =>
    cases ws with
    | nil => exact h.elim
    | cons w ws =>
      rw [List.map_cons, List.map_cons, (alike_iff.mp h.1).2.2.2.2.1, ih h.2]

theorem alike_refl (v : VNode) : Alike v v := by
  induction v using VNode.induction with
  | h v ih =>
    obtain ⟨kind, tag, component, content, key, attrs, events, children, host⟩ := v
    refine ⟨rfl, rfl, rfl, rfl, rfl, .refl _, rfl, alikeAll_iff.mpr ⟨rfl, fun k a b ha hb => ?_⟩⟩
    obtain rfl := Option.some.inj (ha.symm.trans hb)
    exact ih a (List.mem_of_getElem? ha)

theorem alike_detach {v w : VNode} : Alike v.detach w ↔ Alike v w := by
  induction v using VNode.induction generalizing w with
  | h v ih =>
    obtain ⟨kind, tag, component, content, key, attrs, events, children, host⟩ := v
    have hall : AlikeAll (detachAll children) w.children ↔ AlikeAll children w.children := by
      rw [alikeAll_iff, alikeAll_iff, detachAll_eq_map, List.length_map]
      refine and_congr Iff.rfl ⟨fun h k a b ha hb => ?_, fun h k a b ha hb => ?_⟩
      · refine (ih a (List.mem_of_getElem? ha)).mp (h k a.detach b ?_ hb)
        rw [List.getElem?_map, ha, Option.map_some]
      · rw [List.getElem?_map, Option.map_eq_some_iff] at ha
        obtain ⟨c, hc, rfl⟩ := ha
        exact (ih c (List.mem_of_getElem? hc)).mpr (h k c b hc hb)
    rw [detach, Alike, Alike, hall]

/-- Trees that differ in their hosts alone are alike. -/
theorem alike_of_detach_eq {v w : VNode} (h : v.detach = w.detach) : Alike v w :=
  alike_detach.mp (h ▸ alike_detach.mpr (alike_refl w))

/-- Plain texts with the same content are alike. -/
theorem alike_of_text {v w : VNode} (hv : v.Plain) (hw : w.Plain) (hvt : v.kind = .text)
    (hwt : w.kind = .text) (hc : v.content = w.content) : Alike v w := by
  obtain ⟨htag, hcomponent, hkey, hattrs, hevents, hchildren⟩ := hv.of_text hvt
  obtain ⟨htag', hcomponent', hkey', hattrs', hevents', hchildren'⟩ := hw.of_text hwt
  obtain ⟨kind, tag, component, content, key, attrs, events, children, host⟩ := v
  refine ⟨hvt.trans hwt.symm, htag.trans htag'.symm, hcomponent.trans hcomponent'.symm, hc,
    hkey.trans hkey'.symm, ?_, hevents.trans hevents'.symm, ?_⟩
  · rw [hattrs', show attrs = [] from hattrs]
    exact .refl []
  · rw [hchildren', show children = [] from hchildren]
    trivial

theorem plain_detach {v : VNode} : Plain v.detach ↔ Plain v := by
  induction v using VNode.induction with
  | h v ih =>
    obtain ⟨kind, tag, component, content, key, attrs, events, children, host⟩ := v
    have hall : PlainAll (detachAll children) ↔ PlainAll children := by
      rw [plainAll_iff, plainAll_iff, detachAll_eq_map, List.forall_mem_map]
      exact forall₂_congr ih
    have hnil : detachAll children = [] ↔ children = [] := by
      rw [detachAll_eq_map, List.map_eq_nil_iff]
    rw [detach, Plain, Plain, hall, hnil]

/-- Trees that differ in their hosts alone agree in all else. -/
theorem fields_of_detach_eq {v w : VNode} (h : w.detach = v.detach) :
    w.kind = v.kind ∧ w.tag = v.tag ∧ w.component = v.component ∧ w.content = v.content ∧
      w.key = v.key ∧ w.attrs = v.attrs ∧ w.events = v.events ∧
      w.children.map detach = v.children.map detach := by
  cases v
  cases w
  rw [detach, detach, detachAll_eq_map, detachAll_eq_map] at h
  injection h with hkind htag hcomponent hcontent hkey hattrs hevents hchildren
  exact ⟨hkind, htag, hcomponent, hcontent, hkey, hattrs, hevents, hchildren⟩

theorem plain_of_map_detach {vs ws : List VNode} (h : ws.map VNode.detach = vs.map VNode.detach)
    (hvs : ∀ v ∈ vs, v.Plain) : ∀ w ∈ ws, w.Plain := by
  intro w hw
  have hmem : w.detach ∈ vs.map VNode.detach := h ▸ List.mem_map_of_mem hw
  obtain ⟨v, hv, e⟩ := List.mem_map.mp hmem
  exact plain_detach.mp (e ▸ plain_detach.mpr (hvs v hv))

theorem alikeAll_of_map_detach {vs ws : List VNode} (h : ws.map VNode.detach = vs.map VNode.detach) :
    AlikeAll ws vs := by
  induction ws generalizing vs with
  | nil =>
    obtain rfl := List.map_eq_nil_iff.mp h.symm
    trivial
  | cons w ws ih =>
    cases vs with
    | nil => cases h
    | cons v vs =>
      obtain ⟨hhead, hrest⟩ := List.cons.inj h
      exact ⟨alike_of_detach_eq hhead, ih hrest⟩

end VNode

end Trellis
