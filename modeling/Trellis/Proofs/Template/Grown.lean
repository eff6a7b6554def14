import Trellis.Proofs.Template.Entries
import Trellis.Proofs.Template.Linked

/-!
# An arena holds the trees that are built

Event by event an arena grows like the trees do: its entries are those of the trees, with each element
that is open closed right now.
- `Focus`: the entries before the one that what comes next goes into, and that one itself.
  `Focus.below` steps into a new entry; every operation of an arena is such a step,
- `Growth.Tracks`: an arena and the trees being built belong together, kept by each event
  (`Tracks.step`), an error included,
- `Growth.ofMarkup_alike`: so the arena of markup is that of its template. With what holds of entries
  anyway (`Linked`), a template is a well-formed tree of its markup (`Growth.ofMarkup_wellFormed`).
-/
namespace Trellis

open Arena

/-! ## 1. The place for what comes next -/

/-- A place in an arena that more can go into: the entries before, and the entry itself. -/
structure Focus where
  before : List Entry
  self : Entry

namespace Focus

/-- The template itself. -/
def root : Focus := ⟨[], ⟨.root, none, 0, [], none⟩⟩

/-- The number of the entry. -/
def number (f : Focus) : Nat := f.before.length

/-- The number that comes next when trees stand in the entry. -/
def next (f : Focus) (ns : List Node) : Nat := f.number + 1 + sizeAll ns

/-- The branch that what comes next can go on from when trees stand in the entry. -/
def chain (f : Focus) (ns : List Node) : Option Nat := chainBehind (f.number + 1) none ns

/-- The entries up to the end when trees stand in the entry, and `more` numbers behind theirs. -/
def upTo (f : Focus) (ns : List Node) (more : List Nat) : List Entry :=
  f.before ++ { f.self with children := idsFrom (f.number + 1) ns ++ more }
    :: entriesAll (some f.number) (f.number + 1) 0 none ns

/-- The arena with trees in the entry. -/
def entries (f : Focus) (ns : List Node) : Arena := f.upTo ns []

/-- The place in a new entry behind the trees in this one. -/
def below (f : Focus) (ns : List Node) (kind : EntryKind) (chain : Option Nat) : Focus :=
  ⟨f.upTo ns [f.next ns], ⟨kind, some f.number, ns.length, [], chain⟩⟩

variable (f : Focus) (ns : List Node)

theorem length_upTo (more : List Nat) : (f.upTo ns more).length = f.next ns := by
  rw [upTo, List.length_append, List.length_cons, length_entriesAll, next, number]
  omega

theorem number_below (kind : EntryKind) (chain : Option Nat) :
    (f.below ns kind chain).number = f.next ns := length_upTo f ns _

theorem entries_root : root.entries ns = entriesOf ns := by
  rw [entries, upTo, List.append_nil]
  rfl

/-- One more tree comes last. -/
theorem upTo_concat (n : Node) (more : List Nat) :
    f.upTo (ns ++ [n]) more =
      f.upTo ns (f.next ns :: more)
        ++ n.entries (some f.number) (f.next ns) ns.length (f.chain ns) := by
  rw [upTo, idsFrom_append, entriesAll_append, upTo, List.append_assoc, List.append_assoc,
    List.cons_append, entriesAll, entriesAll, List.append_nil, Nat.zero_add]
  rfl

theorem entries_concat (n : Node) :
    f.entries (ns ++ [n]) =
      f.upTo ns [f.next ns] ++ n.entries (some f.number) (f.next ns) ns.length (f.chain ns) :=
  upTo_concat f ns n []

/-- What stands in a new entry. -/
theorem entries_below (kind : EntryKind) (chain : Option Nat) (ms : List Node) :
    (f.below ns kind chain).entries ms =
      f.upTo ns [f.next ns] ++
        ⟨kind, some f.number, ns.length, idsFrom (f.next ns + 1) ms, chain⟩
          :: entriesAll (some (f.next ns)) (f.next ns + 1) 0 none ms := by
  rw [entries, upTo, List.append_nil, number_below]
  rfl

theorem entries_text (p : Program) :
    (f.below ns (.text p) none).entries [] = f.entries (ns ++ [.text p]) := by
  rw [entries_below, entries_concat, Node.entries]
  rfl

theorem entries_element (e : Element) (ms : List Node) :
    (f.below ns (.element e) none).entries ms = f.entries (ns ++ [.element e ms]) := by
  rw [entries_below, entries_concat, Node.entries]

theorem entries_branch (b : Branch) (n : Node) :
    (f.below ns (.branch b) (if b.ifTest.isSome then none else f.chain ns)).entries [n] =
      f.entries (ns ++ [.branch b n]) := by
  rw [entries_below, entries_concat, Node.entries, entriesAll, entriesAll, List.append_nil]
  rfl

theorem entries_loop (l : Loop) (n : Node) :
    ((f.below ns (.loop l.source) none).below [] (.round l.item l.index l.key) none).entries [n] =
      f.entries (ns ++ [.loop l n]) := by
  rw [entries_below, entries_concat, Node.entries, entriesAll, entriesAll, List.append_nil, next,
    number_below, upTo, number_below, entriesAll, below]
  simp [sizeAll, idsFrom]

/-! ## 2. Operations -/

variable {f ns}

/-- The entry itself. -/
theorem getElem?_number (f : Focus) (ns : List Node) :
    (f.entries ns)[f.number]? = some { f.self with children := idsFrom (f.number + 1) ns } := by
  rw [entries, upTo, number, List.getElem?_append_right (Nat.le_refl _), Nat.sub_self,
    List.append_nil]
  rfl

theorem childrenOf_number (f : Focus) (ns : List Node) :
    (f.entries ns).childrenOf f.number = idsFrom (f.number + 1) ns := by
  rw [childrenOf_eq (getElem?_number f ns)]

theorem modify_length_append {α : Type} (g : α → α) (l m : List α) (x : α) :
    (l ++ x :: m).modify l.length g = l ++ g x :: m := by
  induction l with
  | nil => rfl
  | cons y l ih =>
    rw [List.cons_append, List.length_cons, List.modify_succ_cons, ih, List.cons_append]

/-- The entry takes the number of one more, which is put behind all others. -/
theorem modify_upTo (f : Focus) (ns : List Node) (e : Entry) (i : Nat) :
    (f.upTo ns [] ++ [e]).modify f.number (Entry.holding · [i]) = f.upTo ns [i] ++ [e] := by
  rw [upTo, upTo, List.append_assoc, List.append_assoc, List.cons_append, List.cons_append, number,
    modify_length_append, Entry.holding, List.append_nil]

/-- **A new entry** goes behind the trees that stand in the entry. -/
theorem add_entries (f : Focus) (ns : List Node) (kind : EntryKind) :
    (f.entries ns).add kind f.number = (f.below ns kind none).entries [] := by
  rw [add, childrenOf_number, length_idsFrom, entries, length_upTo, modify_upTo, entries_below]
  rfl

/-- The branch in a tree that a chain can go on from is found by the entries of the tree. -/
theorem filter_unlooped {a : Arena} {n : Node} {parent chain : Option Nat} {id index : Nat}
    (h : n.entries parent id index chain <+: a.drop id) :
    (a.unlooped? id).filter a.continues = n.chainId id := by
  have hbranch {i : Nat} {e : Entry} {b : Branch} (hi : a[i]? = some e) (hkind : e.kind = .branch b) :
      (some i).filter a.continues = if b.ifTest.isSome || b.elifTest.isSome then some i else none := by
    rw [Option.filter_some, continues, kind?_eq hi, hkind]
    rfl
  have hother {i : Nat} {e : Entry} (hi : a[i]? = some e) (hkind : e.kind.isBranch = false) :
      (some i).filter a.continues = none := by
    rw [Option.filter_some, continues, kind?_eq hi]
    cases hk : e.kind with
    | branch b => rw [hk] at hkind; cases hkind
    | _ => rfl
  cases n with
  | text p =>
    obtain ⟨hfirst, -⟩ := of_prefix_cons h
    rw [unlooped?, kind?_eq hfirst]
    exact hother hfirst rfl
  | element e children =>
    obtain ⟨hfirst, -⟩ := of_prefix_cons h
    rw [unlooped?, kind?_eq hfirst]
    exact hother hfirst rfl
  | branch b body =>
    obtain ⟨hfirst, -⟩ := of_prefix_cons h
    rw [unlooped?, kind?_eq hfirst]
    exact hbranch hfirst rfl
  | loop l body =>
    obtain ⟨hfirst, hround⟩ := of_prefix_cons h
    obtain ⟨hround, hbody⟩ := of_prefix_cons hround
    rw [unlooped?, kind?_eq hfirst]
    dsimp only
    rw [childrenOf_eq hfirst]
    show Option.filter a.continues (a.childrenOf (id + 1)).head? = _
    rw [childrenOf_eq hround]
    cases body with
    | branch b body => exact hbranch (of_prefix_cons hbody).1 rfl
    | text p => exact hother (of_prefix_cons hbody).1 rfl
    | element e children => exact hother (of_prefix_cons hbody).1 rfl
    | loop l body => exact hother (of_prefix_cons hbody).1 rfl

theorem previous?_first {a : Arena} {i : Nat} {e : Entry} (h : a[i]? = some e) (hindex : e.index = 0) :
    a.previous? i = none := by
  obtain ⟨kind, parent, index, children, chain⟩ := e
  obtain rfl : index = 0 := hindex
  rw [previous?, h]
  cases parent <;> rfl

theorem previous?_eq {a : Arena} {i p k : Nat} {e : Entry} (h : a[i]? = some e)
    (hparent : e.parent = some p) (hindex : e.index = k + 1) :
    a.previous? i = (a.childrenOf p)[k]? := by
  obtain ⟨kind, parent, index, children, chain⟩ := e
  obtain rfl : parent = some p := hparent
  obtain rfl : index = k + 1 := hindex
  rw [previous?, h]

/-- **The branch that a new entry goes on from** is that in the tree before it. -/
theorem chainHead_below (f : Focus) (ns : List Node) (kind : EntryKind) :
    ((f.below ns kind none).entries []).chainHead (f.next ns) = f.chain ns := by
  have hnew := getElem?_number (f.below ns kind none) []
  rw [number_below] at hnew
  have hself : ((f.below ns kind none).entries []).childrenOf f.number
      = idsFrom (f.number + 1) ns ++ [f.next ns] := by
    refine childrenOf_eq
      (e := { f.self with children := idsFrom (f.number + 1) ns ++ [f.next ns] }) ?_
    rw [entries_below, upTo, List.append_assoc, number, List.getElem?_append_right (Nat.le_refl _),
      Nat.sub_self]
    rfl
  rcases List.eq_nil_or_concat ns with rfl | ⟨ms, m, rfl⟩
  · rw [chainHead, previous?_first hnew rfl]
    rfl
  · rw [List.concat_eq_append] at hself hnew ⊢
    have hm : m.entries (some f.number) (f.next ms) ms.length (f.chain ms)
        <+: ((f.below (ms ++ [m]) kind none).entries []).drop (f.next ms) := by
      rw [entries_below, upTo_concat, List.append_assoc, List.drop_left' (length_upTo f ms _)]
      exact List.prefix_append _ _
    have hprevious : (idsFrom (f.number + 1) (ms ++ [m]) ++ [f.next (ms ++ [m])])[ms.length]?
        = some (f.next ms) :=
      getElem?_append_of_some (getElem?_idsFrom.mpr ⟨ms, m, [], rfl, rfl, rfl⟩)
    rw [chainHead, previous?_eq hnew rfl List.length_append, hself, hprevious, Option.bind_some,
      filter_unlooped hm, chain, chainBehind_concat]
    rfl

/-- **A new branch** goes on from the tree before it, unless it has a test of its own. -/
theorem addBranch_entries (f : Focus) (ns : List Node) (b : Branch) :
    (f.entries ns).addBranch b f.number =
      (f.below ns (.branch b) (if b.ifTest.isSome then none else f.chain ns)).entries [] := by
  have hlength : (f.entries ns).length = f.next ns := length_upTo f ns []
  unfold Arena.addBranch
  dsimp only
  rw [add_entries, hlength, chainHead_below]
  cases b.ifTest with
  | some p => rfl
  | none =>
    show Arena.chained _ _ _ = Focus.entries (f.below ns (.branch b) (f.chain ns)) []
    rw [Arena.chained, entries_below, entries_below]
    have hmodify := modify_length_append (fun e : Entry => { e with chain := f.chain ns })
      (f.upTo ns [f.next ns])
    rw [length_upTo] at hmodify
    exact hmodify _ _

end Focus

/-! ## 3. Statements -/

/-- What is around a tree: a branch, if there is one. -/
def Branch.around (b? : Option Branch) (n : Node) : Node :=
  match b? with
  | some b => .branch b n
  | none => n

/-- What is around a tree: a loop, if there is one. -/
def Loop.around (l? : Option Loop) (n : Node) : Node :=
  match l? with
  | some l => .loop l n
  | none => n

theorem wrap_eq (st : Statements) (n : Node) :
    st.wrap n = Branch.around (st.branch?.filter (·.ifTest.isNone))
      (Loop.around st.loop? (Branch.around (st.branch?.filter (·.ifTest.isSome)) n)) := by
  unfold Statements.wrap Statements.looped
  cases st.branch? with
  | none => rfl
  | some b =>
    rw [Option.filter_some, Option.filter_some]
    dsimp only
    cases b.ifTest with
    | none => cases st.loop? <;> rfl
    | some p => cases st.loop? <;> rfl

/-- What a holder takes comes to stand in an arena as `fill` says, behind trees in some entry. -/
def Arena.Holder.Fills (h : Arena.Holder) (fill : Node → Arena) : Prop :=
  ∃ f ns, h.nodes = Focus.entries f ns ∧ h.node = f.number ∧ ∀ n, f.entries (ns ++ [n]) = fill n

namespace Arena.Holder

variable {h : Holder} {fill : Node → Arena}

theorem Fills.inBranch (hfills : h.Fills fill) (b? : Option Branch) :
    (h.inBranch b?).Fills fun n => fill (Branch.around b? n) := by
  cases b? with
  | none => exact hfills
  | some b =>
    obtain ⟨f, ns, hnodes, hnode, hfill⟩ := hfills
    refine ⟨f.below ns (.branch b) (if b.ifTest.isSome then none else f.chain ns), [], ?_, ?_,
      fun n => ?_⟩
    · rw [Holder.inBranch, hnodes, hnode, Focus.addBranch_entries]
    · rw [Holder.inBranch, hnodes, Focus.number_below]
      exact Focus.length_upTo f ns []
    · rw [List.nil_append, Focus.entries_branch, hfill]
      rfl

theorem Fills.inLoop (hfills : h.Fills fill) (l? : Option Loop) :
    (h.inLoop l?).Fills fun n => fill (Loop.around l? n) := by
  cases l? with
  | none => exact hfills
  | some l =>
    obtain ⟨f, ns, hnodes, hnode, hfill⟩ := hfills
    have hlength : h.nodes.length = (f.below ns (.loop l.source) none).number := by
      rw [hnodes, Focus.number_below]
      exact Focus.length_upTo f ns []
    have hlooped : h.nodes.add (.loop l.source) h.node =
        (f.below ns (.loop l.source) none).entries [] := by
      rw [hnodes, hnode, Focus.add_entries]
    refine ⟨(f.below ns (.loop l.source) none).below [] (.round l.item l.index l.key) none, [], ?_, ?_,
      fun n => ?_⟩
    · rw [Holder.inLoop]
      dsimp only
      rw [hlooped, hlength, Focus.add_entries]
    · rw [Holder.inLoop]
      dsimp only
      rw [hlooped, Focus.number_below]
      exact Focus.length_upTo _ [] []
    · rw [List.nil_append, Focus.entries_loop, hfill]
      rfl

/-- **The entries for statements** hold what the statements are around. -/
theorem Fills.wrap (hfills : h.Fills fill) (st : Statements) :
    (h.wrap st).Fills fun n => fill (st.wrap n) := by
  have hwrapped := ((hfills.inBranch (st.branch?.filter (·.ifTest.isNone))).inLoop st.loop?).inBranch
    (st.branch?.filter (·.ifTest.isSome))
  simp only [wrap_eq]
  exact hwrapped

/-- An element comes to stand there, and is the place for what comes into it. -/
theorem Fills.element (hfills : h.Fills fill) (e : Element) :
    ∃ f : Focus, f.number = h.nodes.length ∧ f.self.kind = .element e ∧
      h.nodes.add (.element e) h.node = f.entries [] ∧
      ∀ ms, f.entries ms = fill (.element e ms) := by
  obtain ⟨f, ns, hnodes, hnode, hfill⟩ := hfills
  refine ⟨f.below ns (.element e) none, ?_, rfl, ?_, fun ms => ?_⟩
  · rw [hnodes, Focus.number_below]
    exact (Focus.length_upTo f ns []).symm
  · rw [hnodes, hnode, Focus.add_entries]
  · rw [Focus.entries_element, hfill]

end Arena.Holder

/-! ## 4. Growing together -/

/-- The trees in the innermost open element, or outside of all elements. -/
def innermost (top : List Node) : List Opened → List Node
  | [] => top.reverse
  | o :: _ => o.children.reverse

/-- The open elements and the numbers of their entries, with the place for what comes next. An open
    element is closed in the arena: its place takes what it holds, with its statements around it. -/
inductive Spine (top : List Node) : List Opened → List OpenEntry → Focus → Prop
  | outside : Spine top [] [] Focus.root
  | inside {o : Opened} {os : List Opened} {p : OpenEntry} {ps : List OpenEntry} {f f' : Focus} :
      Spine top os ps f → p.node = f'.number → p.script = o.script →
      f'.self.kind = .element o.heading.element →
      (∀ ms, f'.entries ms = f.entries (innermost top os ++
        [o.heading.statements.wrap (.element o.heading.element ms)])) →
      Spine top (o :: os) (p :: ps) f'

/-- Either nothing is open, or an element on both sides. -/
theorem Spine.cases {top : List Node} {os : List Opened} {ps : List OpenEntry} {f : Focus}
    (h : Spine top os ps f) :
    (os = [] ∧ ps = []) ∨ ∃ o os' p ps', os = o :: os' ∧ ps = p :: ps' := by
  cases h with
  | outside => exact .inl ⟨rfl, rfl⟩
  | inside => exact .inr ⟨_, _, _, _, rfl, rfl⟩

/-- The number of the place is that of the innermost open element. -/
theorem Spine.parent_eq {top : List Node} {os : List Opened} {g : Growth} {f : Focus}
    (h : Spine top os g.opened f) : g.parent = f.number := by
  unfold Growth.parent
  cases hopened : g.opened with
  | nil =>
    rw [hopened] at h
    cases h
    rfl
  | cons p ps =>
    rw [hopened] at h
    cases h with
    | inside _ hnode _ _ _ => exact hnode

namespace Growth

/-- An arena and the trees that are built belong together. -/
def Tracks (g : Growth) (b : Builder) : Prop :=
  ∃ f, Spine b.top b.opened g.opened f ∧ g.nodes = f.entries (innermost b.top b.opened) ∧
    g.exports = b.exports ∧ g.globals = b.globals

variable {s : Setting} {g : Growth} {b : Builder}

theorem tracks_start : start.Tracks Builder.start := ⟨Focus.root, .outside, rfl, rfl, rfl⟩

/-- A tree more is one more in the innermost open element; the place stays. -/
theorem innermost_addNode (b : Builder) (n : Node) :
    innermost (b.addNode n).top (b.addNode n).opened = innermost b.top b.opened ++ [n] := by
  unfold Builder.addNode
  cases b.opened with
  | nil => exact List.reverse_cons
  | cons o os => exact List.reverse_cons

theorem exports_addNode (b : Builder) (n : Node) : (b.addNode n).exports = b.exports := by
  unfold Builder.addNode
  cases b.opened <;> rfl

theorem globals_addNode (b : Builder) (n : Node) : (b.addNode n).globals = b.globals := by
  unfold Builder.addNode
  cases b.opened <;> rfl

theorem spine_addNode {ps : List OpenEntry} {f : Focus} (n : Node)
    (h : Spine b.top b.opened ps f) : Spine (b.addNode n).top (b.addNode n).opened ps f := by
  unfold Builder.addNode
  cases hopened : b.opened with
  | nil =>
    rw [hopened] at h
    cases h
    exact .outside
  | cons o os =>
    rw [hopened] at h
    cases h with
    | inside h hnode hscript hkind hentries => exact .inside h hnode hscript hkind hentries

/-- Entries for a tree more in the innermost open element. -/
theorem tracks_addNode {f : Focus} {n : Node} (hspine : Spine b.top b.opened g.opened f)
    (hnodes : g.nodes = f.entries (innermost b.top b.opened ++ [n]))
    (hexports : g.exports = b.exports) (hglobals : g.globals = b.globals) : g.Tracks (b.addNode n) := by
  refine ⟨f, spine_addNode n hspine, by rw [innermost_addNode, hnodes], ?_, ?_⟩
  · rw [hexports, exports_addNode]
  · rw [hglobals, globals_addNode]

/-- An element goes in with its statements, and may be the place for what comes next. -/
theorem tracks_opening (h : g.Tracks b) (heading : Heading) :
    (g.addElement heading).Tracks (b.addNode (Opened.tree ⟨heading, [], ""⟩)) ∧
      Tracks { g.addElement heading with opened := ⟨(g.holder heading).nodes.length, ""⟩ :: g.opened }
        { b with opened := ⟨heading, [], ""⟩ :: b.opened } := by
  obtain ⟨f, hspine, hnodes, hexports, hglobals⟩ := h
  have hholder : Holder.Fills ⟨g.nodes, g.parent⟩
      (fun n => f.entries (innermost b.top b.opened ++ [n])) :=
    ⟨f, _, hnodes, hspine.parent_eq, fun _ => rfl⟩
  obtain ⟨f', hnumber, hkind, hadd, hentries⟩ :=
    (hholder.wrap heading.statements).element heading.element
  refine ⟨tracks_addNode hspine (hadd.trans (hentries [])) hexports hglobals, f', ?_, hadd, hexports,
    hglobals⟩
  exact .inside hspine hnumber.symm rfl hkind hentries

theorem tracks_addText (h : g.Tracks b) (content : String) :
    EndAlike Tracks (g.addText s content) (b.addText s content) := by
  obtain ⟨f, hspine, hnodes, hexports, hglobals⟩ := h
  unfold Growth.addText Builder.addText
  dsimp only
  split
  · exact .ok ⟨f, hspine, hnodes, hexports, hglobals⟩
  · refine (EndAlike.refl _).map fun p p' hp => ?_
    subst hp
    refine tracks_addNode hspine ?_ hexports hglobals
    show g.nodes.add (.text p) g.parent = _
    rw [hspine.parent_eq, hnodes, Focus.add_entries, Focus.entries_text]

/-- The element at the entry of an open element. -/
theorem element?_place {f : Focus} {e : Element} {ns : List Node} {i : Nat} (hi : i = f.number)
    (hnodes : g.nodes = f.entries ns) (hkind : f.self.kind = .element e) :
    g.nodes.element? i = some e := by
  rw [element?, hi, hnodes, kind?_eq (Focus.getElem?_number f ns)]
  dsimp only
  rw [hkind]

/-- What stands around the innermost open element is tracked by an arena that lets it close. -/
theorem tracks_closing {o : Opened} {os : List Opened} {p : OpenEntry} {ps : List OpenEntry} {f : Focus}
    (hspine : Spine b.top (o :: os) (p :: ps) f) (hnodes : g.nodes = f.entries o.children.reverse)
    (hexports : g.exports = b.exports) (hglobals : g.globals = b.globals) (hopened : g.opened = ps) :
    g.Tracks ({ b with opened := os }.addNode o.tree) := by
  cases hspine with
  | inside h hnode hscript hkind hentries =>
    subst hopened
    exact tracks_addNode (b := { b with opened := os }) h (hnodes.trans (hentries _)) hexports hglobals

/-- The same script runs, on the same globals. -/
theorem runScript_alike {o : Opened} {os : List Opened} {p : OpenEntry} {ps : List OpenEntry} {f : Focus}
    (hspine : Spine b.top (o :: os) (p :: ps) f)
    (hnodes : g.nodes = f.entries o.children.reverse) (hexports : g.exports = b.exports)
    (hglobals : g.globals = b.globals) :
    EndAlike Tracks (runScript { g with opened := ps } p)
      ((b.runScript o).map fun b => { b with opened := os }.addNode o.tree) := by
  have hscript : p.script = o.script := by
    cases hspine with
    | inside _ _ hscript _ _ => exact hscript
  have helement : g.nodes.element? p.node = some o.heading.element := by
    cases hspine with
    | inside _ hnode _ hkind _ => exact element?_place hnode hnodes hkind
  have hclosed (exports : Dict Value) (globals : List (Dict Value)) :
      Tracks ⟨g.nodes, ps, exports, globals⟩
        (Builder.addNode ⟨os, b.top, exports, globals⟩ o.tree) :=
    tracks_closing (b := ⟨b.opened, b.top, exports, globals⟩) hspine hnodes rfl rfl rfl
  unfold Growth.runScript Growth.isScript Builder.runScript
  dsimp only
  rw [helement, hscript, hglobals, hexports]
  dsimp only [Option.bind_some]
  cases hkind : o.heading.element.kind with
  | script =>
    cases o.heading.element.module with
    | none => exact .ok (hclosed _ _)
    | some name =>
      simp only [decide_true]
      cases evaluateModule b.globals name o.script with
      | error e => exact .error e
      | ok run => exact .ok (hclosed _ _)
  | _ => exact .ok (hclosed _ _)

/-- An element that closes has its entries already. -/
theorem closing_alike (tag : String) (kind : Markup.EndKind) (h : g.Tracks b) :
    EndAlike Tracks (g.step s (.closing tag kind)) (b.step s (.closing tag kind)) := by
  obtain ⟨f, hspine, hnodes, hexports, hglobals⟩ := id h
  cases kind with
  | endOfInput => exact .error _
  | explicit | implicit =>
    unfold Growth.step Builder.step
    dsimp only
    rcases hspine.cases with ⟨hos, hps⟩ | ⟨o, os, p, ps, hos, hps⟩
    · rw [hos, hps]
      exact .ok h
    · rw [hos, hps] at hspine
      rw [hos] at hnodes
      rw [hos, hps]
      exact runScript_alike hspine hnodes hexports hglobals

/-- A text goes to the same script, or into the same element. -/
theorem text_alike (content : String) (h : g.Tracks b) :
    EndAlike Tracks (g.step s (.text content)) (b.step s (.text content)) := by
  obtain ⟨f, hspine, hnodes, hexports, hglobals⟩ := id h
  unfold Growth.step Builder.step
  dsimp only
  rcases hspine.cases with ⟨hos, hps⟩ | ⟨o, os, p, ps, hos, hps⟩
  · rw [hos, hps]
    exact tracks_addText h content
  · rw [hos, hps] at hspine
    rw [hos] at hnodes
    rw [hos, hps]
    cases hspine with
    | inside houter hnode hscript hkind hentries =>
      dsimp only
      rw [isScript, element?_place hnode hnodes hkind]
      dsimp only
      by_cases hscripts : o.heading.element.kind = .script
      · rw [if_pos (decide_eq_true hscripts), if_pos hscripts, hscript]
        exact .ok ⟨f, .inside houter hnode rfl hkind hentries, hnodes, hexports, hglobals⟩
      · rw [if_neg (by simpa using hscripts), if_neg hscripts]
        exact tracks_addText h content

/-- **Whatever an event is, the arena and the trees belong together behind it**, or both end with the
    same error. -/
theorem step_alike (g : Growth) (b : Builder) (event : Markup.Event) (h : g.Tracks b) :
    EndAlike Tracks (g.step s event) (b.step s event) := by
  cases event with
  | opening tag attrs selfClosing =>
    refine (EndAlike.refl (s.kindOf tag)).bind fun kind kind' hkind => ?_
    subst hkind
    refine (EndAlike.refl (Heading.read s.config kind tag attrs)).bind fun heading heading' heq => ?_
    subst heq
    obtain ⟨hsingle, hopening⟩ := tracks_opening h heading
    cases selfClosing with
    | true => exact .ok hsingle
    | false => exact .ok hopening
  | closing tag kind => exact closing_alike tag kind h
  | text content => exact text_alike content h

/-! ## 5. Whole templates -/

/-- An arena is that of a template: its entries are those of the trees, and nothing is open. -/
structure Holds (g : Growth) (t : Template) : Prop where
  nodes : g.nodes = entriesOf t.children
  opened : g.opened = []
  exports : g.exports = t.exports
  globals : g.globals = t.globals

open Markup

/-- When all events of whole trees are read, nothing is open. -/
theorem opened_eq_nil {forest : List Nested}
    (h : (Nested.eventsAll forest).foldlM (Builder.step s) Builder.start = .ok b) : b.opened = [] := by
  obtain ⟨ns, ⟨hopened, _⟩, _⟩ := Builder.gains_eventsAll forest h
  exact hopened

/-- **The arena of markup is that of its template**; what has no template has no arena, with the same
    error. -/
theorem ofMarkup_alike (s : Setting) (name markup : String) :
    EndAlike Holds (ofMarkup s markup) (Template.ofMarkup s name markup) := by
  have hrun := EndAlike.foldlM (step_alike (s := s)) (scan markup s.config.scriptTag).events
    tracks_start
  unfold ofMarkup Template.ofMarkup
  dsimp only
  generalize hg : (scan markup s.config.scriptTag).events.foldlM (step s) start = g? at hrun
  generalize hb : (scan markup s.config.scriptTag).events.foldlM (Builder.step s) Builder.start = b?
    at hrun
  cases hrun with
  | error e => exact .error e
  | @ok g b htracks =>
    unfold Scan.failure
    cases hread : (scan markup s.config.scriptTag).unread with
    | some rest => exact .error _
    | none =>
      obtain ⟨forest, hforest, _⟩ := existsUnique_forest (scan_follows hread)
      rw [← show Nested.eventsAll forest = _ from hforest] at hb
      obtain ⟨f, hspine, hnodes, hexports, hglobals⟩ := htracks
      rw [opened_eq_nil hb] at hspine hnodes
      generalize hps : g.opened = ps at hspine
      cases hspine
      exact .ok ⟨hnodes.trans (Focus.entries_root _), hps, hexports, hglobals⟩

/-- A template that is built has an arena, in which nothing is open and all entries fit together. -/
theorem sound_ofMarkup {s : Setting} {name markup : String} {t : Template}
    (ht : Template.ofMarkup s name markup = .ok t) :
    ∃ g, ofMarkup s markup = .ok g ∧ g.Holds t ∧ g.Sound := by
  have halike := ofMarkup_alike s name markup
  rw [ht] at halike
  generalize hg : ofMarkup s markup = g? at halike
  cases halike with
  | @ok g _ hholds =>
    obtain ⟨g', hgrown, hend⟩ := bind_eq_ok_iff.mp hg
    obtain ⟨_, _, hread, _⟩ := ofMarkup_cases ht
    unfold Scan.failure at hend
    rw [hread] at hend
    obtain rfl := Except.ok.inj hend
    exact ⟨_, rfl, hholds, sound_start.foldlM hgrown⟩

/-- **A template that is built is a well-formed tree of its markup.** Its arena has the rows of the
    template, the entries fit together, and nothing is open. The markup reads to its end, its events
    are those of one forest, and none of them is an end for lack of input; without the statements the
    arena is what that forest describes. -/
theorem ofMarkup_wellFormed {s : Setting} {name markup : String} {t : Template}
    (ht : Template.ofMarkup s name markup = .ok t) :
    ∃ g, ofMarkup s markup = .ok g ∧
      (g.nodes.rows = t.rows ∧ g.exports = t.exports ∧ g.globals = t.globals) ∧
      g.nodes.Linked none ∧ g.opened = [] ∧
      (scan markup s.config.scriptTag).unread = none ∧
      (∃! forest, Nested.eventsAll forest = (scan markup s.config.scriptTag).events) ∧
      (∀ tag, .closing tag .endOfInput ∉ (scan markup s.config.scriptTag).events) ∧
      ∀ forest, Nested.eventsAll forest = (scan markup s.config.scriptTag).events →
        g.nodes.bare = Nested.describedAll s false forest := by
  obtain ⟨g, hg, hholds, hsound⟩ := sound_ofMarkup ht
  obtain ⟨b, hfold, hread, _⟩ := ofMarkup_cases ht
  obtain ⟨hrows, hbare⟩ := walks_entriesOf t
  rw [← hholds.nodes] at hrows hbare
  exact ⟨g, hg, ⟨hrows, hholds.exports, hholds.globals⟩, hsound.linked, hholds.opened, hread,
    existsUnique_forest (scan_follows hread), Builder.not_mem_endOfInput hfold,
    fun forest hforest => hbare.trans (bareAll_ofMarkup ht hforest)⟩

/-- A list whose items are shown where a test holds, and another item if none was. -/
def listOrNone : String :=
  "<ul><li wx:for=\"xs\" wx:if=\"a\">x</li> <li wx:else>y</li></ul>"

theorem ofMarkup_wellFormed_listOrNone :
    ∃ g, ofMarkup ⟨.standard, [], fun _ => false⟩ listOrNone = .ok g ∧ g.nodes.Linked none ∧
      g.nodes.map Entry.chain = [none, none, none, none, none, none, none, some 4, none, none] ∧
      g.nodes.bare = [.element "ul" [.element "li" [.text "x"], .element "li" [.text "y"]]] := by
  have hok : (Template.ofMarkup ⟨.standard, [], fun _ => false⟩ "" listOrNone).isOk = true := by
    decide +kernel
  have hchains : (ofMarkup ⟨.standard, [], fun _ => false⟩ listOrNone).toOption.map
      (·.nodes.map Entry.chain) =
        some [none, none, none, none, none, none, none, some 4, none, none] := by
    decide +kernel
  cases ht : Template.ofMarkup ⟨.standard, [], fun _ => false⟩ "" listOrNone with
  | error e => rw [ht] at hok; cases hok
  | ok t =>
    obtain ⟨g, hg, -, hlinked, -, -, -, -, hdescribed⟩ := ofMarkup_wellFormed ht
    rw [hg] at hchains
    refine ⟨g, hg, hlinked, Option.some.inj hchains, (hdescribed [.element "ul" []
      [.element "li" [⟨"wx:for", some "xs"⟩, ⟨"wx:if", some "a"⟩] [.text "x"] .explicit, .text " ",
        .element "li" [⟨"wx:else", none⟩] [.text "y"] .explicit] .explicit] ?_).trans ?_⟩
    · decide +kernel
    · rfl

end Growth

end Trellis
