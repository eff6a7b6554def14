import Trellis.Component.Basic
import Trellis.Proofs.Host.Reachable
import Trellis.Proofs.Host.Update
import Trellis.Proofs.Template.Runs
import Trellis.Proofs.Template.Shape

/-!
# Updated and fresh components

A component that was given new data again and again is compared with one that is mounted with the
data it has by then. Every update ends well and leaves the tree of the component standing in its
container (`Component.Stands`), alike what the template shows for the data. So both have the same
page, but for the order of attributes inside their tags. That order is the one in which attributes
came to a node that stays.
-/

namespace Trellis

universe u

open Value VNode Host

/-! ## 1. Data -/

theorem asObject?_relocate (f : Place → Place) (v : Value) :
    (v.relocate f).asObject? = v.asObject?.map (relocateFields f) := by
  cases v <;> rfl

namespace Component

variable {f : Place → Place}

theorem writeData_relocate (data : Dict Value) (name : String) (v : Value) :
    writeData (relocateFields f data) name (v.relocate f) = relocateFields f (writeData data name v) := by
  unfold writeData
  cases Path.parse? name with
  | none => exact insert_relocate data name v
  | some path =>
    have hset := setPath_relocate (f := f) (.object data) path v
    rw [Value.relocate] at hset
    dsimp only
    rw [hset, asObject?_relocate]
    cases ((Value.object data).setPath path v).asObject? <;> rfl

theorem mergeData_cons (data : Dict Value) (p : String × Value) (patch : Dict Value) :
    mergeData data (p :: patch) = mergeData (writeData data p.1 p.2) patch := rfl

theorem mergeData_relocate (data patch : Dict Value) :
    mergeData (relocateFields f data) (relocateFields f patch) =
      relocateFields f (mergeData data patch) := by
  induction patch generalizing data with
  | nil => rfl
  | cons p patch ih =>
    rw [relocateFields, mergeData_cons, mergeData_cons, writeData_relocate, ih]

theorem foldl_mergeData_relocate {data : Dict Value} {patches : List (Dict Value)}
    (h : ∀ d ∈ data :: patches, relocateFields f d = d) :
    relocateFields f (patches.foldl mergeData data) = patches.foldl mergeData data := by
  induction patches generalizing data with
  | nil => exact h data List.mem_cons_self
  | cons patch patches ih =>
    obtain ⟨hdata, hpatch, hpatches⟩ : relocateFields f data = data ∧ relocateFields f patch = patch ∧
        ∀ d ∈ patches, relocateFields f d = d := by
      simpa using h
    refine ih fun d hd => ?_
    rcases List.mem_cons.mp hd with rfl | hd
    · rw [← mergeData_relocate, hdata, hpatch]
    · exact hpatches d hd

end Component

/-! ## 2. Runs -/

namespace Component

variable {α : Type u}

/-- Shows a template in the root of a fresh host, as the render number `run`. -/
def freshAt (run : Nat) (template : Template) (data : Dict Value) : Except HostError (Component α) :=
  match (Host.mount Host.root (template.generate run data) : HostM VNode) .empty with
  | (.ok tree, host) => .ok ⟨template, data, host, Host.root, tree, run + 1, .empty⟩
  | (.error e, _) => .error e

theorem fresh_eq (template : Template) (data : Dict Value) :
    (fresh template data : Except HostError (Component α)) = freshAt 0 template data := rfl

/-- Merges data again and again; a failure ends the run. -/
def setAll (c : Component α) : List (Dict Value) → Except HostError Unit × Component α
  | [] => (.ok (), c)
  | patch :: patches =>
    match c.setData patch with
    | (.ok _, c) => c.setAll patches
    | failed => failed

/-- What is on the page of a component. -/
def page (c : Component α) : List Html := pageAll c.tree.children

/-- The tree of a component stands in its container, and it is alike what the template shows in the
    last render. -/
structure Stands (c : Component α) (run : Nat) : Prop where
  runs : c.runs = run + 1
  kind : c.tree.kind = .root
  tag : c.tree.tag = ""
  component : c.tree.component = none
  key : c.tree.key = ""
  host : c.tree.host = some c.container
  hangs : ∃ O nd, Hangs c.host O c.container nd c.tree.children
  alike : c.template.distinct = true →
    AlikeAll c.tree.children (c.template.generate run c.data).children ∧
      ∀ v ∈ c.tree.children, v.Plain

/-- What is in a fresh component: the tree of its render, with the hosts of its nodes. -/
theorem freshAt_ok (run : Nat) (t : Template) (data : Dict Value) :
    ∃ h ws O nd, (freshAt run t data : Except HostError (Component α)) = .ok ⟨t, data, h, Host.root,
        { t.generate run data with children := ws, host := some Host.root }, run + 1, .empty⟩ ∧
      Hangs h O Host.root nd ws ∧
      ws.map VNode.detach = (t.generate run data).children.map VNode.detach := by
  have hempty : Host.empty.get? Host.root = some (.bare (.element "body")) := rfl
  have ho := Host.around_after [] hempty
  obtain ⟨h, ws, hmount, hredone, hdetach, hn⟩ :=
    @Host.mount_root_spec (t.generate run data) rfl .empty _ Host.root _ hempty ho
      fun m hm => absurd hm List.not_mem_nil
  have hh : Hangs .empty _ Host.root _ [] :=
    ⟨hempty, rfl, ho, fun m hm => absurd hm List.not_mem_nil, fun c hc => absurd hc List.not_mem_nil,
      List.nodup_nil⟩
  refine ⟨h, ws, _, _, ?_, hh.redone hredone hn rfl rfl, hdetach⟩
  rw [freshAt, hmount]

/-- **A fresh component stands**, with the page of its render. -/
theorem freshAt_stands (run : Nat) (t : Template) (data : Dict Value) :
    ∃ c : Component α, freshAt run t data = .ok c ∧ c.template = t ∧ c.data = data ∧ c.Stands run ∧
      c.page = pageAll (t.generate run data).children := by
  obtain ⟨h, ws, O, nd, hfresh, hhangs, hdetach⟩ := freshAt_ok (α := α) run t data
  exact ⟨_, hfresh, rfl, rfl, ⟨rfl, rfl, rfl, rfl, rfl, rfl, ⟨O, nd, hhangs⟩,
    fun ht => ⟨alikeAll_of_map_detach hdetach, plain_of_map_detach hdetach (generate_plain ht run data)⟩⟩,
    pageAll_of_map_detach hdetach⟩

/-- **New data are brought to the page.** -/
theorem setData_stands {c : Component α} {run : Nat} (hc : c.Stands run) (patch : Dict Value) :
    ∃ c' : Component α, c.setData patch = (.ok (), c') ∧ c'.template = c.template ∧
      c'.data = mergeData c.data patch ∧ c'.Stands (run + 1) := by
  obtain ⟨O, nd, hh⟩ := hc.hangs
  let next := c.template.generate c.runs (mergeData c.data patch)
  have hkind : c.tree.kind ≠ .text := by
    rw [hc.kind]
    exact VKind.noConfusion
  have hcompatible : Diff.compatible c.tree next = true :=
    Diff.compatible_iff.mpr ⟨hc.kind, hc.tag, hc.component, hc.key⟩
  obtain ⟨h, cs, hrun, hredone, hn, hall⟩ := Patch.node_spec (fun v _ => Patch.updates v) hkind
    VKind.noConfusion hcompatible hc.host hh c.container
  have hupdate : c.setData patch = (.ok (), { c with
      data := mergeData c.data patch, host := h, runs := c.runs + 1
      tree := Patch.updated c.tree next cs }) := by
    unfold setData update applyPatches diff
    dsimp only
    rw [hrun]
  refine ⟨_, hupdate, rfl, rfl, ⟨congrArg (· + 1) hc.runs, hc.kind, hc.tag, hc.component, hc.key, hc.host,
    ⟨O, _, hh.redone hredone hn rfl rfl⟩, fun ht => ?_⟩⟩
  have hplain := generate_plain ht c.runs (mergeData c.data patch)
  rw [← hc.runs]
  exact hall (hc.alike ht).2 hplain

/-- **A run of new data** ends well. -/
theorem setAll_stands {c : Component α} {run : Nat} (hc : c.Stands run)
    (patches : List (Dict Value)) :
    ∃ c' : Component α, c.setAll patches = (.ok (), c') ∧ c'.template = c.template ∧
      c'.data = patches.foldl mergeData c.data ∧ c'.Stands (run + patches.length) := by
  induction patches generalizing c run with
  | nil => exact ⟨c, rfl, rfl, rfl, hc⟩
  | cons patch patches ih =>
    obtain ⟨c₁, hrun₁, ht₁, hd₁, hc₁⟩ := setData_stands hc patch
    obtain ⟨c₂, hrun₂, ht₂, hd₂, hc₂⟩ := ih hc₁
    refine ⟨c₂, ?_, ht₂.trans ht₁, ?_, ?_⟩
    · rw [setAll, hrun₁]
      exact hrun₂
    · rw [hd₂, hd₁, List.foldl_cons]
    · rw [List.length_cons, Nat.add_comm patches.length, ← Nat.add_assoc]
      exact hc₂

/-! ## 3. Pages -/

/-- The page of a component that stands is what its host writes. -/
theorem Stands.toHtml_eq {c : Component α} {run : Nat} (hc : c.Stands run)
    (ht : c.template.distinct = true) : c.toHtml = Html.printAll c.page := by
  obtain ⟨O, nd, hh⟩ := hc.hangs
  exact innerHtml_eq_print hh (hc.alike ht).2

/-- **A component that was updated is like a fresh one.** Every update ends well. When no element of
    the template repeats the name of an attribute, the component then shows the page that a fresh one
    with its data shows, but for the order of attributes inside their tags. The data are older than
    the two renders that are compared, so no function of these renders is in the data. -/
theorem setAll_like_fresh {s : Setting} {name markup : String} {t : Template}
    (ht : Template.ofMarkup s name markup = .ok t) (data : Dict Value) (patches : List (Dict Value))
    (run : Nat) (houtside : ∀ d ∈ data :: patches, d.Outside patches.length ∧ d.Outside run) :
    ∃ c₀ c c' : Component α, fresh t data = .ok c₀ ∧ c₀.setAll patches = (.ok (), c) ∧
      freshAt run t c.data = .ok c' ∧
      (t.distinct = true → c.toHtml = Html.printAll c.page ∧ c'.toHtml = Html.printAll c'.page ∧
        Html.ReorderedAll c.page c'.page) := by
  obtain ⟨c₀, hfresh, ht₀, hd₀, hc₀, _⟩ := @freshAt_stands α 0 t data
  rw [← fresh_eq] at hfresh
  obtain ⟨c, hrun, htc, hd, hc⟩ := setAll_stands hc₀ patches
  obtain ⟨c', hfresh', ht', hd', hc', hpage'⟩ := @freshAt_stands α run t c.data
  refine ⟨c₀, c, c', hfresh, hrun, hfresh', fun hdistinct => ?_⟩
  have htc₀ : c.template = t := htc.trans ht₀
  rw [← htc₀] at hdistinct
  refine ⟨hc.toHtml_eq hdistinct, hc'.toHtml_eq (ht' ▸ htc₀ ▸ hdistinct), ?_⟩
  have hfixed : relocateFields (exchangeRuns patches.length run) c.data = c.data := by
    rw [hd, hd₀]
    exact foldl_mergeData_relocate fun d hd => relocate_of_outside (houtside d hd).1 (houtside d hd).2
  have halike := pages_reordered (hc.alike hdistinct).1
  rw [htc₀, Nat.zero_add, ← page_generate_eq ht hfixed, ← hpage'] at halike
  exact halike

/-! ## 4. An element that takes the place of another one -/

/-- Two branches whose elements have the same attributes in another order. -/
def branches : String :=
  "<p wx:if=\"\x7b\x7ba\x7d\x7d\" x=\"1\" y=\"2\"></p><p wx:else y=\"3\" x=\"4\"></p>"

/-- Plain markup without components. -/
def plainSetting : Setting := ⟨.standard, [], fun _ => false⟩

/-- Whether there is a value, and it passes. -/
def okAnd {ε β : Type} (x : Except ε β) (p : β → Bool) : Bool :=
  match x with
  | .ok b => p b
  | .error _ => false

theorem exists_of_okAnd {ε β : Type} {x : Except ε β} {p : β → Bool} (h : okAnd x p = true) :
    ∃ b, x = .ok b ∧ p b = true := by
  cases x with
  | error e => cases h
  | ok b => exact ⟨b, rfl, h⟩

/-- The other branch is shown like in a fresh component. -/
theorem branches_like_fresh :
    ∃ (t : Template) (c₀ c c' : Component Unit), Template.ofMarkup plainSetting "" branches = .ok t ∧
      fresh t [("a", .bool true)] = .ok c₀ ∧ c₀.setAll [[("a", .bool false)]] = (.ok (), c) ∧
      freshAt 0 t c.data = .ok c' ∧ c.toHtml = Html.printAll c.page ∧
      c'.toHtml = Html.printAll c'.page ∧ Html.ReorderedAll c.page c'.page := by
  have hmarkup : okAnd (Template.ofMarkup plainSetting "" branches) Template.distinct = true := by
    decide +kernel
  obtain ⟨t, ht, hdistinct⟩ := exists_of_okAnd hmarkup
  have houtside : ∀ d ∈ [[("a", Value.bool true)], [("a", .bool false)]],
      Dict.Outside 1 d ∧ Dict.Outside 0 d := by
    intro d hd
    have hnone : originsOfFields d = [] := by
      simp only [List.mem_cons, List.not_mem_nil, or_false] at hd
      rcases hd with rfl | rfl <;> rfl
    rw [Dict.Outside, Dict.Outside, hnone]
    exact ⟨nofun, nofun⟩
  obtain ⟨c₀, c, c', hfresh, hrun, hfresh', hpages⟩ :=
    @setAll_like_fresh Unit _ _ _ t ht [("a", .bool true)] [[("a", .bool false)]] 0 houtside
  exact ⟨t, c₀, c, c', ht, hfresh, hrun, hfresh', hpages hdistinct⟩

/-- The element stays when the other branch is shown, and its attributes keep their order. -/
theorem setData_keeps_order :
    ∃ (t : Template) (c₀ c c' : Component Unit), Template.ofMarkup plainSetting "" branches = .ok t ∧
      fresh t [("a", .bool true)] = .ok c₀ ∧ c₀.setAll [[("a", .bool false)]] = (.ok (), c) ∧
      fresh t c.data = .ok c' ∧ c.toHtml = "<p x=\"4\" y=\"3\"></p>" ∧
      c'.toHtml = "<p y=\"3\" x=\"4\"></p>" := by
  have hall : (okAnd (Template.ofMarkup plainSetting "" branches) fun t =>
      okAnd (fresh t [("a", .bool true)] : Except HostError (Component Unit)) fun c₀ =>
      okAnd (c₀.setAll [[("a", .bool false)]]).1 fun _ =>
      okAnd (fresh t (c₀.setAll [[("a", .bool false)]]).2.data : Except HostError (Component Unit))
        fun c' => (c₀.setAll [[("a", .bool false)]]).2.toHtml == "<p x=\"4\" y=\"3\"></p>" &&
          c'.toHtml == "<p y=\"3\" x=\"4\"></p>") = true := by decide +kernel
  obtain ⟨t, ht, hall⟩ := exists_of_okAnd hall
  obtain ⟨c₀, hfresh, hall⟩ := exists_of_okAnd hall
  obtain ⟨_, hrun, hall⟩ := exists_of_okAnd hall
  obtain ⟨c', hfresh', hall⟩ := exists_of_okAnd hall
  obtain ⟨hupdated, hfresh''⟩ := Bool.and_eq_true_iff.mp hall
  exact ⟨t, c₀, (c₀.setAll [[("a", .bool false)]]).2, c', ht, hfresh, Prod.ext hrun rfl, hfresh',
    beq_iff_eq.mp hupdated, beq_iff_eq.mp hfresh''⟩

end Component

end Trellis
