import Trellis.Command.Basic
import Trellis.Proofs.Component.Fresh
import Trellis.Proofs.Component.Merge
import Trellis.Proofs.Template.Names
import Trellis.Proofs.Template.Registration

/-!
# The two modes of a difference

What changes between two sets of data is listed, or it is brought to the page. The listing compares
what a template shows for the one set and for the other. The page comes from a component that shows the
template for the first set and is given the second, and a component keeps what it is not given. So the
page is patched by what the template shows for the merged data (`patchedPage_eq`): the two modes
agree where these are, under the names in the template, the second set (`diffFiles_modes`).
-/
namespace Trellis

open VNode Component

namespace Command

/-! ## 1. Data from files -/

theorem loadData_cases {files : Files} {path : String} {data : Dict Value}
    (h : loadData files path = .ok data) : ∃ fields, data = Value.ofFields [] fields := by
  obtain ⟨content, _, h⟩ := bind_eq_ok_iff.mp h
  cases hj : Json.parse? content with
  | none =>
    rw [hj] at h
    cases h
  | some j =>
    rw [hj] at h
    cases j with
    | object fields =>
      cases h
      exact ⟨fields, rfl⟩
    | _ => cases h

/-- Data in a file hold no functions. -/
theorem relocate_loadData {files : Files} {path : String} {data : Dict Value}
    (h : loadData files path = .ok data) (f : Place → Place) : Value.relocateFields f data = data := by
  obtain ⟨fields, rfl⟩ := loadData_cases h
  exact relocateFields_ofFields f fields rfl

/-- The names of data in a file stand in order. -/
theorem sorted_loadData {files : Files} {path : String} {data : Dict Value}
    (h : loadData files path = .ok data) : Dict.Sorted data := by
  obtain ⟨fields, rfl⟩ := loadData_cases h
  exact sorted_ofFields fields List.Pairwise.nil

/-- A template in a file was read from markup. -/
theorem compileFile_cases {files : Files} {d : Dialect} {input : String} {t : Template}
    (h : compileFile files d input = .ok t) :
    ∃ s name markup, Template.ofMarkup s name markup = .ok t := by
  obtain ⟨config, _, h⟩ := bind_eq_ok_iff.mp h
  obtain ⟨r, _, h⟩ := bind_eq_ok_iff.mp h
  obtain ⟨⟨t', r'⟩, hregister, h⟩ := bind_eq_ok_iff.mp h
  cases h
  obtain ⟨content, _, hregister⟩ := bind_eq_ok_iff.mp hregister
  rcases hr : r.register (Files.stem input) content [] with ⟨outcome, r''⟩
  rw [hr] at hregister
  cases outcome with
  | error e => cases hregister
  | ok u =>
    cases hregister
    exact ⟨_, _, _, (Registry.register_ok (congrArg Prod.fst hr)).2.1⟩

/-! ## 2. Pages of components -/

/-- The page once patches are carried out on a template that is shown for data. -/
def pageAfter (t : Template) (data : Dict Value) (patches : List Patch) : Except HostError String := do
  let c ← (Component.fresh t data : Except HostError (Component Unit))
  match applyPatches c.container patches ⟨c.host, c.tree⟩ with
  | (.ok _, m) => pure (m.host.innerHtml c.container)
  | (.error e, _) => throw e

/-- **A page is patched by the difference to what the template shows for the merged data**, and comes
    to show that. -/
theorem patchedPage_eq (t : Template) (before after : Dict Value) :
    ∃ page applied, patchedPage t before after = .ok page ∧
      pageAfter t before (diff (t.generate 0 before)
        (t.generate 1 (mergeData before after))) = .ok page ∧
      (t.distinct = true → page = Html.printAll applied ∧
        Html.ReorderedAll applied
          (pageAll (t.generate 1 (mergeData before after)).children)) := by
  obtain ⟨c, hfresh, ht, hdata, hc, _⟩ := freshAt_stands (α := Unit) 0 t before
  obtain ⟨h, ws, O, nd, hfresh', -, hdetach⟩ := freshAt_ok (α := Unit) 0 t before
  obtain ⟨c', hset, ht', hdata', hc'⟩ := setData_stands hc after
  obtain rfl := Except.ok.inj (hfresh.symm.trans hfresh')
  rw [← fresh_eq] at hfresh
  have hpatches : diff { t.generate 0 before with children := ws, host := some Host.root }
      (t.generate 1 (mergeData before after)) =
      diff (t.generate 0 before) (t.generate 1 (mergeData before after)) := by
    rw [diff, diff, ← Diff.tree_detach, ← Diff.tree_detach (t.generate 0 before)]
    congr 1
    rw [t.generate_eq] at hdetach ⊢
    rw [VNode.root, VNode.detach, VNode.detach, detachAll_eq_map, detachAll_eq_map, hdetach]
    rfl
  refine ⟨c'.toHtml, c'.page, ?_, ?_, fun hdistinct => ?_⟩
  · rw [patchedPage, start, hfresh]
    dsimp only [Except.mapError, bind, Except.bind]
    rw [hset]
    rfl
  · rw [pageAfter, hfresh, ← hpatches]
    unfold Component.setData Component.update at hset
    dsimp only at hset
    obtain ⟨hresult, rfl⟩ := Prod.mk.inj hset
    dsimp only [bind, Except.bind]
    rw [← Prod.eta (applyPatches _ _ _), hresult]
    rfl
  · have hdistinct' : c'.template.distinct = true := ht' ▸ hdistinct
    refine ⟨hc'.toHtml_eq hdistinct', ?_⟩
    have halike := pages_reordered (hc'.alike hdistinct').1
    rw [ht', hdata'] at halike
    exact halike

/-- **A page that is rendered is that of what the template shows.** -/
theorem renderFile_eq {files : Files} {d : Dialect} {input path : String} {t : Template}
    {data : Dict Value} (ht : compileFile files d input = .ok t)
    (hdata : loadData files path = .ok data) (hdistinct : t.distinct = true) (run : Nat) :
    renderFile files d input (some path) =
      .ok (Html.printAll (pageAll (t.generate run data).children)) := by
  obtain ⟨c, hfresh, htc, -, hc, hpage⟩ := freshAt_stands (α := Unit) 0 t data
  obtain ⟨s, name, markup, hmarkup⟩ := compileFile_cases ht
  rw [page_generate_eq (k := 0) hmarkup (relocate_loadData hdata _), ← hpage,
    ← hc.toHtml_eq (htc ▸ hdistinct), renderFile, ht, loadDataIfAny, hdata]
  dsimp only [bind, Except.bind]
  rw [start, fresh_eq, hfresh]
  rfl

/-! ## 3. Two modes -/

/-- **The two modes of a difference.** When the files can be read, both modes succeed. One lists how
    what the template shows for the first data differs from what it shows for the second. The other
    prints the page of the first data, patched by the difference to the merged data; so it comes to
    show these. Where they agree with the second data under the names in the template, that is the
    list of the other mode, and the page of the second data, but for the order of attributes. Under
    plain names this is where the second data have every name of the template that the first have. -/
theorem diffFiles_modes {files : Files} {d : Dialect} {input before after : String} {t : Template}
    {old new : Dict Value} (ht : compileFile files d input = .ok t)
    (hold : loadData files before = .ok old) (hnew : loadData files after = .ok new) :
    ∃ page applied, diffFiles files d input before after true = .ok page ∧
      pageAfter t old (diff (t.generate 0 old) (t.generate 1 (mergeData old new))) =
        .ok page ∧
      diffFiles files d input before after false =
        .ok (Patch.listAll (diff (t.generate 0 old) (t.generate 1 new))) ∧
      (t.distinct = true → page = Html.printAll applied ∧
        Html.ReorderedAll applied (pageAll (t.generate 1 (mergeData old new)).children) ∧
        renderFile files d input (some after) =
          .ok (Html.printAll (pageAll (t.generate 1 new).children))) ∧
      ((∀ x ∈ t.names, Dict.get? (mergeData old new) x = Dict.get? new x) →
        pageAfter t old (diff (t.generate 0 old) (t.generate 1 new)) = .ok page ∧
        (t.distinct = true →
          Html.ReorderedAll applied (pageAll (t.generate 1 new).children))) ∧
      ((∀ p ∈ new, PlainName p.1) →
        ((∀ x ∈ t.names, Dict.get? (mergeData old new) x = Dict.get? new x) ↔
          ∀ x ∈ t.names, Dict.has old x = true → Dict.has new x = true)) := by
  obtain ⟨page, applied, hpatched, hafter, hpage⟩ := patchedPage_eq t old new
  refine ⟨page, applied, ?_, hafter, ?_, fun hdistinct => ?_, fun hnames => ?_, fun hplain => ?_⟩
  · rw [diffFiles, ht, hold, hnew]
    exact hpatched
  · rw [diffFiles, ht, hold, hnew]
    rfl
  · obtain ⟨hprint, hreordered⟩ := hpage hdistinct
    exact ⟨hprint, hreordered, renderFile_eq ht hnew hdistinct 1⟩
  · rw [Template.generate_agree hnames] at hafter hpage
    exact ⟨hafter, fun hdistinct => (hpage hdistinct).2⟩
  · exact forall₂_congr fun x _ => get?_mergeData_eq_iff (sorted_loadData hnew) hplain old x

/-- An element with an attribute that the first data give a value, and the second do not. -/
def attributeFiles : Files
  | "t.wxml" => some "<p x=\"\x7b\x7ba\x7d\x7d\"></p>"
  | "a.json" => some "\x7b\"a\":\"1\"\x7d"
  | "b.json" => some "\x7b\x7d"
  | _ => none

/-- Templates in the standard dialect, without components. -/
def plainDialect : Dialect := ⟨none, none, none, []⟩

/-- The attribute is kept by the one mode, although it goes by the patches that the other lists. -/
theorem diffFiles_keeps_attribute :
    ∃ t old new, compileFile attributeFiles plainDialect "t.wxml" = .ok t ∧
      loadData attributeFiles "a.json" = .ok old ∧ loadData attributeFiles "b.json" = .ok new ∧
      diffFiles attributeFiles plainDialect "t.wxml" "a.json" "b.json" true =
        .ok "<p x=\"1\"></p>" ∧
      pageAfter t old (diff (t.generate 0 old) (t.generate 1 new)) = .ok "<p></p>" ∧
      renderFile attributeFiles plainDialect "t.wxml" (some "b.json") = .ok "<p></p>" := by
  have hall : (okAnd (compileFile attributeFiles plainDialect "t.wxml") fun t =>
      okAnd (loadData attributeFiles "a.json") fun old =>
      okAnd (loadData attributeFiles "b.json") fun new =>
      okAnd (pageAfter t old (diff (t.generate 0 old) (t.generate 1 (mergeData old new))))
        (· == "<p x=\"1\"></p>") &&
      okAnd (pageAfter t old (diff (t.generate 0 old) (t.generate 1 new))) (· == "<p></p>") &&
      okAnd (renderFile attributeFiles plainDialect "t.wxml" (some "b.json")) (· == "<p></p>")) =
        true := by decide +kernel
  obtain ⟨t, ht, hall⟩ := exists_of_okAnd hall
  obtain ⟨old, hold, hall⟩ := exists_of_okAnd hall
  obtain ⟨new, hnew, hall⟩ := exists_of_okAnd hall
  obtain ⟨hall, hrender⟩ := Bool.and_eq_true_iff.mp hall
  obtain ⟨hmerged, hlisted⟩ := Bool.and_eq_true_iff.mp hall
  obtain ⟨page, hpage, hp⟩ := exists_of_okAnd hmerged
  obtain ⟨page', hpage', hp'⟩ := exists_of_okAnd hlisted
  obtain ⟨page'', hpage'', hp''⟩ := exists_of_okAnd hrender
  obtain rfl := beq_iff_eq.mp hp
  obtain rfl := beq_iff_eq.mp hp'
  obtain rfl := beq_iff_eq.mp hp''
  obtain ⟨_, _, hdiff, hmerged, -⟩ := diffFiles_modes ht hold hnew
  obtain rfl := Except.ok.inj (hmerged.symm.trans hpage)
  exact ⟨t, old, new, ht, hold, hnew, hdiff, hpage', hpage''⟩

end Command

end Trellis
