import Trellis.Proofs.Results
import Trellis.Template.Arena

/-!
# The entries of an arena fit together

An arena grows entry by entry, and what the numbers in it say holds after each one. Only between the
entries for the statements of an element and that of the element itself is there one that should
hold another and does not: it is the one that waits.
- `Arena.Linked`: the numbers of the entries fit together, but for the entry that waits,
- `Linked.add`, `Linked.chained`: what an operation does to that, and from these
  `Linked.addBranch`, `Ready.inBranch` and `Ready.inLoop` for the statements,
- `Growth.Sound`: the numbers fit together, nothing waits, and what is open are elements of the
  arena. Each event keeps it so (`Sound.step`), and with that whatever is read (`Sound.foldlM`).
-/
namespace Trellis

/-! ## 1. Entries that fit together -/

namespace EntryKind

/-- Whether an entry is one of a statement, which holds one other entry. -/
def isStatement : EntryKind → Bool
  | .branch _ | .loop _ | .round .. => true
  | _ => false

/-- Whether an entry is a loop. -/
def isLoop : EntryKind → Bool
  | .loop _ => true
  | _ => false

/-- Whether an entry is the round of a loop. -/
def isRound : EntryKind → Bool
  | .round .. => true
  | _ => false

theorem isStatement_of_isLoop {k : EntryKind} (h : k.isLoop = true) : k.isStatement = true := by
  cases k with
  | loop source => rfl
  | _ => cases h

theorem isStatement_of_isRound {k : EntryKind} (h : k.isRound = true) : k.isStatement = true := by
  cases k with
  | round item index key => rfl
  | _ => cases h

end EntryKind

namespace Arena

/-- The branch with a test that an entry goes on from is what stands right before it, or stands in
    the rounds of the loop there. -/
def LeadsTo (a : Arena) (e : Entry) (c : Nat) : Prop :=
  (∃ (f : Entry) (b : Branch), a[c]? = some f ∧ f.kind = .branch b ∧ b.continues = true) ∧
    ∃ (j : Nat) (f : Entry), a[j]? = some f ∧ e.parent = f.parent ∧ e.index = f.index + 1 ∧
      (j = c ∨ f.kind.isLoop = true ∧ ∃ (k : Nat) (r : Entry), f.children = [k] ∧ a[k]? = some r ∧
        r.kind.isRound = true ∧ r.children = [c])

/-- The numbers of the entries fit together, while one entry may wait for what goes into it. -/
structure Linked (a : Arena) (waiting : Option Nat) : Prop where
  /-- The first entry is the template, which stands in no other one. -/
  first : ∃ e, a[0]? = some e ∧ e.kind = .root ∧ e.parent = none
  /-- Any other entry stands in one with a smaller number, at its index there. -/
  parent {i : Nat} {e : Entry} : a[i]? = some e → 0 < i →
    ∃ (p : Nat) (q : Entry), e.parent = some p ∧ p < i ∧ a[p]? = some q ∧
      q.children[e.index]? = some i
  /-- What stands in an entry stands in no other one, nor at another index. -/
  child {p k i : Nat} {q : Entry} : a[p]? = some q → q.children[k]? = some i →
    ∃ e, a[i]? = some e ∧ e.parent = some p ∧ e.index = k
  /-- One entry stands in that of a statement, -/
  single {i : Nat} {e : Entry} : a[i]? = some e → e.kind.isStatement = true → waiting ≠ some i →
    ∃ c, e.children = [c]
  /-- and none in the one that waits. -/
  empty {i : Nat} {e : Entry} : a[i]? = some e → waiting = some i → e.children = []
  /-- What stands in a loop is its round. -/
  loop {i c : Nat} {e : Entry} : a[i]? = some e → e.kind.isLoop = true → c ∈ e.children →
    ∃ r, a[c]? = some r ∧ r.kind.isRound = true
  /-- A round stands in a loop. -/
  round {i : Nat} {e : Entry} : a[i]? = some e → e.kind.isRound = true →
    ∃ (p : Nat) (q : Entry), e.parent = some p ∧ a[p]? = some q ∧ q.kind.isLoop = true
  /-- Only a branch without a test of its own goes on from another one, which has a smaller number. -/
  chain {i c : Nat} {e : Entry} : a[i]? = some e → e.chain = some c →
    (∃ b : Branch, e.kind = .branch b ∧ b.ifTest = none) ∧ c < i ∧ a.LeadsTo e c

variable {a : Arena} {kind : EntryKind} {p i c : Nat} {e q : Entry} {w : Option Nat}

theorem linked_start : start.Linked none where
  first := ⟨_, rfl, rfl, rfl⟩
  parent h hpos := by
    obtain ⟨i, rfl⟩ := Nat.exists_eq_succ_of_ne_zero (Nat.ne_of_gt hpos)
    cases h
  child {p k i q} h hk := by
    cases p with
    | zero => cases h; cases hk
    | succ p => cases h
  single {i e} h hkind := by
    cases i with
    | zero => cases h; cases hkind
    | succ i => cases h
  empty _ hw := by cases hw
  loop {i c e} h hkind := by
    cases i with
    | zero => cases h; cases hkind
    | succ i => cases h
  round {i e} h hkind := by
    cases i with
    | zero => cases h; cases hkind
    | succ i => cases h
  chain {i c e} h hc := by
    cases i with
    | zero => cases h; cases hc
    | succ i => cases h

/-! ## 2. One more entry -/

theorem length_add (a : Arena) (kind : EntryKind) (p : Nat) :
    (a.add kind p).length = a.length + 1 := by
  rw [add, List.length_modify, List.length_append, List.length_singleton]

theorem childrenOf_eq (h : a[i]? = some e) : a.childrenOf i = e.children := by
  rw [childrenOf, h]

theorem lt_length (h : a[i]? = some e) : i < a.length := (List.getElem?_eq_some_iff.mp h).1

/-- What was there stays there, with the new entry in the one it goes into. -/
theorem getElem?_add_old (h : a[i]? = some e) (kind : EntryKind) (p : Nat) :
    (a.add kind p)[i]? = some (e.holding (if i = p then [a.length] else [])) := by
  rw [add, List.getElem?_modify, List.getElem?_append_left (lt_length h), h]
  by_cases hip : i = p
  · rw [if_pos hip, hip]
    simp
  · rw [if_neg hip]
    simp [Ne.symm hip, Entry.holding]

/-- The new entry has the next number. -/
theorem getElem?_add_new (hq : a[p]? = some q) (kind : EntryKind) :
    (a.add kind p)[a.length]? = some (.fresh kind p q.children.length) := by
  have hne : p ≠ a.length := Nat.ne_of_lt (lt_length hq)
  rw [add, List.getElem?_modify, List.getElem?_concat_length, childrenOf_eq hq]
  simp [hne]

/-- An entry is the new one, or was there before. -/
theorem add_cases (hq : a[p]? = some q) (h : (a.add kind p)[i]? = some e) :
    (i = a.length ∧ e = .fresh kind p q.children.length) ∨
      ∃ e₀, a[i]? = some e₀ ∧ e = e₀.holding (if i = p then [a.length] else []) := by
  have hlt : i < a.length + 1 := length_add a kind p ▸ lt_length h
  by_cases hi : i = a.length
  · subst hi
    rw [getElem?_add_new hq] at h
    exact .inl ⟨rfl, (Option.some.inj h).symm⟩
  · have hold : a[i]? = some a[i] := List.getElem?_eq_getElem (by omega)
    rw [getElem?_add_old hold] at h
    exact .inr ⟨_, hold, (Option.some.inj h).symm⟩

/-- What stands in an entry stood there before, or is the new one behind all that did. -/
theorem holding_cases {k n : Nat} (h : (e.holding (if i = p then [n] else [])).children[k]? = some c) :
    e.children[k]? = some c ∨ i = p ∧ k = e.children.length ∧ c = n := by
  rcases Nat.lt_or_ge k e.children.length with hlt | hge
  · exact .inl (by rwa [Entry.holding, List.getElem?_append_left hlt] at h)
  · rw [Entry.holding, List.getElem?_append_right hge] at h
    split at h
    · rename_i hip
      rw [List.getElem?_singleton] at h
      split at h
      · exact .inr ⟨hip, by omega, (Option.some.inj h).symm⟩
      · cases h
    · cases h

theorem getElem?_append_of_some {α : Type} {l m : List α} {k : Nat} {x : α} (h : l[k]? = some x) :
    (l ++ m)[k]? = some x := by
  rw [List.getElem?_append_left (List.getElem?_eq_some_iff.mp h).1, h]

/-- An entry may go into the one that waits, or into one that is no statement when none waits. -/
def Takes (w : Option Nat) (p : Nat) (q : Entry) : Prop :=
  w = some p ∨ w = none ∧ q.kind.isStatement = false

/-- What stands in that of a statement stays the only thing there. -/
theorem Linked.holding_eq (h : a.Linked w) (hq : a[p]? = some q) (htakes : Takes w p q)
    (hi : a[i]? = some e) (hkind : e.kind.isStatement = true) (hc : e.children = [c]) :
    e.holding (if i = p then [a.length] else []) = e := by
  have hne : i ≠ p := by
    intro hip
    subst hip
    rcases htakes with hw | ⟨-, hno⟩
    · rw [h.empty hi hw] at hc
      cases hc
    · obtain rfl := Option.some.inj (hi.symm.trans hq)
      rw [hkind] at hno
      cases hno
  rw [if_neg hne, Entry.holding, List.append_nil]

/-- The branch that an entry goes on from stays it when there is one more entry. -/
theorem Linked.leadsTo_add (h : a.Linked w) (hq : a[p]? = some q) (htakes : Takes w p q)
    (hlead : a.LeadsTo e c) : (a.add kind p).LeadsTo e c := by
  obtain ⟨⟨f, b, hf, hkind, hcontinues⟩, j, g, hg, hparent, hindex, hwhere⟩ := hlead
  refine ⟨⟨_, b, getElem?_add_old hf kind p, hkind, hcontinues⟩, j, _, getElem?_add_old hg kind p,
    hparent, hindex, ?_⟩
  rcases hwhere with rfl | ⟨hloop, k, r, hk, hr, hround, hc⟩
  · exact .inl rfl
  · have hsame := h.holding_eq hq htakes hg (EntryKind.isStatement_of_isLoop hloop) hk
    have hsame' := h.holding_eq hq htakes hr (EntryKind.isStatement_of_isRound hround) hc
    refine .inr ⟨hloop, k, r, by rw [hsame, hk], ?_, hround, hc⟩
    rw [getElem?_add_old hr, hsame']

/-- **One more entry** waits for another when it is one of a statement; the one that waited has got
    what it waited for. -/
theorem Linked.add (h : a.Linked w) (hq : a[p]? = some q) (htakes : Takes w p q) (kind : EntryKind)
    (hround : q.kind.isLoop = kind.isRound) :
    (a.add kind p).Linked (if kind.isStatement then some a.length else none) where
  first := by
    obtain ⟨e, he, hkind, hparent⟩ := h.first
    exact ⟨_, getElem?_add_old he kind p, hkind, hparent⟩
  parent {i e} hi hpos := by
    rcases add_cases hq hi with ⟨rfl, rfl⟩ | ⟨e, hold, rfl⟩
    · refine ⟨p, _, rfl, lt_length hq, getElem?_add_old hq kind p, ?_⟩
      rw [if_pos rfl]
      exact List.getElem?_concat_length
    · obtain ⟨p', q', hparent, hlt, hq', hindex⟩ := h.parent hold hpos
      exact ⟨p', _, hparent, hlt, getElem?_add_old hq' kind p, getElem?_append_of_some hindex⟩
  child {p' k i q'} hp' hk := by
    rcases add_cases hq hp' with ⟨rfl, rfl⟩ | ⟨q', hold, rfl⟩
    · cases hk
    · rcases holding_cases hk with hk | ⟨rfl, rfl, rfl⟩
      · obtain ⟨e, he, hparent, hindex⟩ := h.child hold hk
        exact ⟨_, getElem?_add_old he kind p, hparent, hindex⟩
      · obtain rfl := Option.some.inj (hold.symm.trans hq)
        exact ⟨_, getElem?_add_new hq kind, rfl, rfl⟩
  single {i e} hi hkind hw := by
    rcases add_cases hq hi with ⟨rfl, rfl⟩ | ⟨e, hold, rfl⟩
    · exact absurd (if_pos hkind) hw
    · by_cases hip : i = p
      · subst hip
        obtain rfl := Option.some.inj (hold.symm.trans hq)
        rcases htakes with hwaits | ⟨-, hno⟩
        · exact ⟨a.length, by rw [if_pos rfl, Entry.holding, h.empty hold hwaits]; rfl⟩
        · exact absurd (hno.symm.trans hkind) Bool.false_ne_true
      · have hother : w ≠ some i := by
          rcases htakes with rfl | ⟨rfl, -⟩
          · exact fun heq => hip (Option.some.inj heq).symm
          · nofun
        obtain ⟨c, hc⟩ := h.single hold hkind hother
        exact ⟨c, by rw [if_neg hip, Entry.holding, hc]; rfl⟩
  empty {i e} hi hw := by
    split at hw
    · obtain rfl := Option.some.inj hw
      rw [getElem?_add_new hq] at hi
      obtain rfl := Option.some.inj hi
      rfl
    · cases hw
  loop {i c e} hi hkind hc := by
    rcases add_cases hq hi with ⟨rfl, rfl⟩ | ⟨e, hold, rfl⟩
    · cases hc
    · obtain ⟨k, hk⟩ := List.mem_iff_getElem?.mp hc
      rcases holding_cases hk with hk | ⟨rfl, rfl, rfl⟩
      · obtain ⟨r, hr, hisRound⟩ := h.loop hold hkind (List.mem_of_getElem? hk)
        exact ⟨_, getElem?_add_old hr kind p, hisRound⟩
      · obtain rfl := Option.some.inj (hold.symm.trans hq)
        exact ⟨_, getElem?_add_new hq kind, hround.symm.trans hkind⟩
  round {i e} hi hkind := by
    rcases add_cases hq hi with ⟨rfl, rfl⟩ | ⟨e, hold, rfl⟩
    · exact ⟨p, _, rfl, getElem?_add_old hq kind p, hround.trans hkind⟩
    · obtain ⟨p', q', hparent, hq', hloop⟩ := h.round hold hkind
      exact ⟨p', _, hparent, getElem?_add_old hq' kind p, hloop⟩
  chain {i c e} hi hc := by
    rcases add_cases hq hi with ⟨rfl, rfl⟩ | ⟨e, hold, rfl⟩
    · cases hc
    · obtain ⟨hbranch, hlt, hlead⟩ := h.chain hold hc
      exact ⟨hbranch, hlt, h.leadsTo_add hq htakes hlead⟩

/-! ## 3. Chains -/

/-- What was there stays there, and so does what it is and where it stands. -/
theorem getElem?_chained (h : a[i]? = some e) (k : Nat) (chain : Option Nat) :
    (a.chained k chain)[i]? = some { e with chain := if i = k then chain else e.chain } := by
  rw [Arena.chained, List.getElem?_modify, h]
  by_cases hik : i = k
  · simp [hik]
  · simp [hik, Ne.symm hik]

theorem chained_cases {k : Nat} {chain : Option Nat} (h : (a.chained k chain)[i]? = some e) :
    ∃ e₀, a[i]? = some e₀ ∧ e = { e₀ with chain := if i = k then chain else e₀.chain } := by
  have hlt : i < a.length := by
    have := lt_length h
    rwa [Arena.chained, List.length_modify] at this
  have hold : a[i]? = some a[i] := List.getElem?_eq_getElem hlt
  rw [getElem?_chained hold] at h
  exact ⟨_, hold, (Option.some.inj h).symm⟩

theorem leadsTo_chained {k : Nat} {chain : Option Nat} (hlead : a.LeadsTo e c) :
    (a.chained k chain).LeadsTo { e with chain := if i = k then chain else e.chain } c := by
  obtain ⟨⟨f, b, hf, hkind, hcontinues⟩, j, g, hg, hparent, hindex, hwhere⟩ := hlead
  refine ⟨⟨_, b, getElem?_chained hf k chain, hkind, hcontinues⟩, j, _, getElem?_chained hg k chain,
    hparent, hindex, ?_⟩
  rcases hwhere with rfl | ⟨hloop, l, r, hl, hr, hround, hc⟩
  · exact .inl rfl
  · exact .inr ⟨hloop, l, _, hl, getElem?_chained hr k chain, hround, hc⟩

/-- A branch that goes on from another one leaves everything else as it is. -/
theorem Linked.chained {k : Nat} {chain : Option Nat} (h : a.Linked w)
    (hchain : ∀ e c, a[k]? = some e → chain = some c →
      (∃ b : Branch, e.kind = .branch b ∧ b.ifTest = none) ∧ c < k ∧ a.LeadsTo e c) :
    (a.chained k chain).Linked w where
  first := by
    obtain ⟨e, he, hkind, hparent⟩ := h.first
    exact ⟨_, getElem?_chained he k chain, hkind, hparent⟩
  parent hi hpos := by
    obtain ⟨e, hold, rfl⟩ := chained_cases hi
    obtain ⟨p, q, hparent, hlt, hq, hindex⟩ := h.parent hold hpos
    exact ⟨p, _, hparent, hlt, getElem?_chained hq k chain, hindex⟩
  child hp hk := by
    obtain ⟨q, hold, rfl⟩ := chained_cases hp
    obtain ⟨e, he, hparent, hindex⟩ := h.child hold hk
    exact ⟨_, getElem?_chained he k chain, hparent, hindex⟩
  single {i e} hi hkind hw := by
    obtain ⟨e, hold, rfl⟩ := chained_cases hi
    exact h.single (e := e) hold hkind hw
  empty {i e} hi hw := by
    obtain ⟨e, hold, rfl⟩ := chained_cases hi
    exact h.empty (e := e) hold hw
  loop hi hkind hc := by
    obtain ⟨e, hold, rfl⟩ := chained_cases hi
    obtain ⟨r, hr, hround⟩ := h.loop hold hkind hc
    exact ⟨_, getElem?_chained hr k chain, hround⟩
  round hi hkind := by
    obtain ⟨e, hold, rfl⟩ := chained_cases hi
    obtain ⟨p, q, hparent, hq, hloop⟩ := h.round hold hkind
    exact ⟨p, _, hparent, getElem?_chained hq k chain, hloop⟩
  chain {i c e} hi hc := by
    obtain ⟨e, hold, rfl⟩ := chained_cases hi
    by_cases hik : i = k
    · subst hik
      obtain ⟨hbranch, hlt, hlead⟩ := hchain e c hold (by rwa [if_pos rfl] at hc)
      exact ⟨hbranch, hlt, leadsTo_chained hlead⟩
    · obtain ⟨hbranch, hlt, hlead⟩ := h.chain hold (by rwa [if_neg hik] at hc)
      exact ⟨hbranch, hlt, leadsTo_chained hlead⟩

/-- What stands right before an entry. -/
theorem Linked.previous {j : Nat} (h : a.Linked w) (hi : a[i]? = some e)
    (hj : a.previous? i = some j) :
    ∃ f, a[j]? = some f ∧ e.parent = f.parent ∧ e.index = f.index + 1 := by
  unfold previous? at hj
  rw [hi] at hj
  split at hj
  · rename_i kind p index children chain heq
    obtain rfl := Option.some.inj heq
    cases hp : a[p]? with
    | none =>
      rw [childrenOf, hp] at hj
      cases hj
    | some q =>
      rw [childrenOf_eq hp] at hj
      obtain ⟨f, hf, hparent, hindex⟩ := h.child hp hj
      exact ⟨f, hf, hparent.symm, by rw [hindex]⟩
  · cases hj

theorem kind?_eq (h : a[i]? = some e) : a.kind? i = some e.kind := by
  rw [kind?, h]
  rfl

/-- What a loop shows in its rounds, while a branch waits. -/
theorem Linked.unlooped {j : Nat} {f : Entry} (h : a.Linked (some i)) (hi : a[i]? = some e)
    (hbranch : e.kind.isBranch = true) (hj : a[j]? = some f) (hc : a.unlooped? j = some c) :
    j = c ∨ f.kind.isLoop = true ∧ ∃ (k : Nat) (r : Entry), f.children = [k] ∧ a[k]? = some r ∧
      r.kind.isRound = true ∧ r.children = [c] := by
  have hne {k : Nat} {r : Entry} (hk : a[k]? = some r) (hno : r.kind.isBranch = false) :
      some i ≠ some k := by
    intro heq
    obtain rfl := Option.some.inj heq
    obtain rfl := Option.some.inj (hi.symm.trans hk)
    exact Bool.false_ne_true (hno.symm.trans hbranch)
  unfold unlooped? at hc
  rw [kind?_eq hj] at hc
  cases hkind : f.kind with
  | loop source =>
    have hloop : f.kind.isLoop = true := by rw [hkind]; rfl
    obtain ⟨k, hk⟩ := h.single hj (EntryKind.isStatement_of_isLoop hloop)
      (hne hj (by rw [hkind]; rfl))
    obtain ⟨r, hr, hround⟩ := h.loop hj hloop (hk ▸ List.mem_singleton_self k)
    have hno : r.kind.isBranch = false := by
      cases hrkind : r.kind with
      | round item index key => rfl
      | _ => rw [hrkind] at hround; cases hround
    obtain ⟨c', hc'⟩ := h.single hr (EntryKind.isStatement_of_isRound hround) (hne hr hno)
    rw [hkind, childrenOf_eq hj, hk] at hc
    replace hc : (a.childrenOf k).head? = some c := hc
    rw [childrenOf_eq hr, hc'] at hc
    obtain rfl := Option.some.inj hc
    exact .inr ⟨rfl, k, r, hk, hr, hround, hc'⟩
  | _ =>
    rw [hkind] at hc
    exact .inl (Option.some.inj hc)

/-- **The head of a chain** is an earlier branch right before the last entry, or in that loop. -/
theorem Linked.chainHead (h : a.Linked (some i)) (hi : a[i]? = some e)
    (hbranch : e.kind.isBranch = true) (hlast : a.length = i + 1) (hc : a.chainHead i = some c) :
    c < i ∧ a.LeadsTo e c := by
  obtain ⟨hc, hcontinues⟩ := Option.filter_eq_some_iff.mp hc
  obtain ⟨j, hj, hc⟩ := Option.bind_eq_some_iff.mp hc
  obtain ⟨f, hf, hparent, hindex⟩ := h.previous hi hj
  have hwhere := h.unlooped hi hbranch hf hc
  obtain ⟨g, b, hg, hkind, hb⟩ : ∃ (g : Entry) (b : Branch), a[c]? = some g ∧
      g.kind = .branch b ∧ b.continues = true := by
    unfold continues kind? at hcontinues
    cases hg : a[c]? with
    | none => rw [hg] at hcontinues; cases hcontinues
    | some g =>
      rw [hg] at hcontinues
      cases hkind : g.kind with
      | branch b => exact ⟨g, b, rfl, hkind, by simpa [hkind] using hcontinues⟩
      | _ => simp [hkind] at hcontinues
  have hne : c ≠ i := by
    rintro rfl
    rcases hwhere with rfl | ⟨_, k, r, _, hr, _, hrc⟩
    · obtain rfl := Option.some.inj (hf.symm.trans hi)
      omega
    · obtain ⟨e', he', _, hzero⟩ := h.child (k := 0) hr (by rw [hrc]; rfl)
      obtain rfl := Option.some.inj (he'.symm.trans hi)
      omega
  have hlt := lt_length hg
  exact ⟨by omega, ⟨g, b, hg, hkind, hb⟩, j, f, hf, hparent, hindex, hwhere⟩

/-- A branch goes in like any other entry, and then from the one before it. -/
theorem Linked.addBranch (h : a.Linked w) (hq : a[p]? = some q) (htakes : Takes w p q)
    (hno : q.kind.isLoop = false) (b : Branch) :
    (a.addBranch b p).Linked (some a.length) ∧
      ∃ e, (a.addBranch b p)[a.length]? = some e ∧ e.kind = .branch b := by
  have hadd : (a.add (.branch b) p).Linked (some a.length) := h.add hq htakes (.branch b) hno
  have hnew := getElem?_add_new hq (.branch b)
  unfold Arena.addBranch
  dsimp only
  by_cases htest : b.ifTest.isNone
  · rw [if_pos htest]
    refine ⟨hadd.chained fun e c he hc => ?_, _, getElem?_chained hnew .., rfl⟩
    obtain rfl := Option.some.inj (hnew.symm.trans he)
    exact ⟨⟨b, rfl, Option.isNone_iff_eq_none.mp htest⟩,
      hadd.chainHead hnew rfl (length_add ..) hc⟩
  · rw [if_neg htest]
    exact ⟨hadd, _, hnew, rfl⟩

/-! ## 4. Statements -/

/-- What entries are stays the same while an arena grows. -/
def Grows (a b : Arena) : Prop := ∀ i k, a.kind? i = some k → b.kind? i = some k

theorem Grows.refl (a : Arena) : a.Grows a := fun _ _ h => h

theorem Grows.trans {a b c : Arena} (hab : a.Grows b) (hbc : b.Grows c) : a.Grows c :=
  fun i k h => hbc i k (hab i k h)

theorem kind?_cases {k : EntryKind} (h : a.kind? i = some k) : ∃ e, a[i]? = some e ∧ e.kind = k :=
  Option.map_eq_some_iff.mp h

theorem grows_add (a : Arena) (kind : EntryKind) (p : Nat) : a.Grows (a.add kind p) := by
  intro i k h
  obtain ⟨e, he, rfl⟩ := kind?_cases h
  rw [kind?_eq (getElem?_add_old he kind p)]
  rfl

theorem grows_chained (a : Arena) (i : Nat) (chain : Option Nat) : a.Grows (a.chained i chain) := by
  intro j k h
  obtain ⟨e, he, rfl⟩ := kind?_cases h
  rw [kind?_eq (getElem?_chained he i chain)]

theorem grows_addBranch (a : Arena) (b : Branch) (p : Nat) : a.Grows (a.addBranch b p) := by
  unfold addBranch
  dsimp only
  split
  · exact (grows_add a _ p).trans (grows_chained _ _ _)
  · exact grows_add a _ p

namespace Holder

variable {h : Holder}

/-- The numbers fit together, and the entry takes a branch, a loop or an element. -/
def Ready (h : Holder) : Prop :=
  ∃ w q, h.nodes.Linked w ∧ h.nodes[h.node]? = some q ∧ Takes w h.node q ∧ q.kind.isLoop = false

theorem Ready.inBranch (hready : h.Ready) (b? : Option Branch) : (h.inBranch b?).Ready := by
  cases b? with
  | none => exact hready
  | some b =>
    obtain ⟨w, q, hlinked, hq, htakes, hno⟩ := hready
    obtain ⟨hlinked', e, he, hkind⟩ := hlinked.addBranch hq htakes hno b
    exact ⟨_, e, hlinked', he, .inl rfl, by rw [hkind]; rfl⟩

/-- The round goes into the loop, which waits for it, and waits itself. -/
theorem Ready.inLoop (hready : h.Ready) (l? : Option Loop) : (h.inLoop l?).Ready := by
  cases l? with
  | none => exact hready
  | some l =>
    obtain ⟨w, q, hlinked, hq, htakes, hno⟩ := hready
    have hlooped : (h.nodes.add (.loop l.source) h.node).Linked (some h.nodes.length) :=
      hlinked.add hq htakes (.loop l.source) hno
    have hloop := getElem?_add_new hq (.loop l.source)
    have hround := hlooped.add hloop (.inl rfl) (.round l.item l.index l.key) rfl
    exact ⟨_, _, hround, getElem?_add_new hloop _, .inl rfl, rfl⟩

theorem Ready.wrap (hready : h.Ready) (st : Statements) : (h.wrap st).Ready :=
  ((hready.inBranch _).inLoop _).inBranch _

theorem grows_inBranch (h : Holder) (b? : Option Branch) : h.nodes.Grows (h.inBranch b?).nodes := by
  cases b? with
  | none => exact .refl _
  | some b => exact grows_addBranch h.nodes b h.node

theorem grows_inLoop (h : Holder) (l? : Option Loop) : h.nodes.Grows (h.inLoop l?).nodes := by
  cases l? with
  | none => exact .refl _
  | some l => exact (grows_add h.nodes _ h.node).trans (grows_add _ _ _)

theorem grows_wrap (h : Holder) (st : Statements) : h.nodes.Grows (h.wrap st).nodes :=
  ((grows_inBranch h _).trans (grows_inLoop _ _)).trans (grows_inBranch _ _)

/-- An element or a text is what the last statement waits for. -/
theorem Ready.linked_add (hready : h.Ready) (kind : EntryKind) (hkind : kind.isStatement = false) :
    (h.nodes.add kind h.node).Linked none ∧
      (h.nodes.add kind h.node).kind? h.nodes.length = some kind := by
  obtain ⟨w, q, hlinked, hq, htakes, hno⟩ := hready
  have hround : kind.isRound = false := by
    cases kind with
    | round item index key => cases hkind
    | _ => rfl
  have hadd := hlinked.add hq htakes kind (hno.trans hround.symm)
  rw [hkind] at hadd
  exact ⟨hadd, kind?_eq (getElem?_add_new hq kind)⟩

end Holder

end Arena

/-! ## 5. Growth -/

namespace Growth

open Arena

/-- The numbers of the entries fit together, nothing waits, and what is open are elements. -/
structure Sound (g : Growth) : Prop where
  linked : g.nodes.Linked none
  opened : ∀ o ∈ g.opened, ∃ e, g.nodes.kind? o.node = some (.element e)

variable {s : Setting} {g g' : Growth}

theorem sound_start : start.Sound := ⟨linked_start, fun _ h => by cases h⟩

/-- What comes next goes into an element, or into the template. -/
theorem Sound.ready (h : g.Sound) : Holder.Ready ⟨g.nodes, g.parent⟩ := by
  unfold parent
  cases hopened : g.opened with
  | nil =>
    obtain ⟨e, he, hkind, _⟩ := h.linked.first
    exact ⟨none, e, h.linked, he, .inr ⟨rfl, by rw [hkind]; rfl⟩, by rw [hkind]; rfl⟩
  | cons o rest =>
    obtain ⟨x, hx⟩ := h.opened o (hopened ▸ List.mem_cons_self)
    obtain ⟨e, he, hkind⟩ := kind?_cases hx
    exact ⟨none, e, h.linked, he, .inr ⟨rfl, by rw [hkind]; rfl⟩, by rw [hkind]; rfl⟩

theorem Sound.addElement (h : g.Sound) (heading : Heading) :
    (g.addElement heading).Sound ∧
      (g.addElement heading).nodes.kind? (g.holder heading).nodes.length
        = some (.element heading.element) := by
  obtain ⟨hlinked, hnew⟩ :=
    (h.ready.wrap heading.statements).linked_add (.element heading.element) rfl
  have hgrows : g.nodes.Grows (g.addElement heading).nodes :=
    (Holder.grows_wrap ⟨g.nodes, g.parent⟩ heading.statements).trans (grows_add _ _ _)
  refine ⟨⟨hlinked, fun o ho => ?_⟩, hnew⟩
  obtain ⟨e, he⟩ := h.opened o ho
  exact ⟨e, hgrows _ _ he⟩

theorem Sound.addText {content : String} (h : g.Sound) (htext : g.addText s content = .ok g') :
    g'.Sound := by
  unfold Growth.addText at htext
  dsimp only at htext
  split at htext
  · obtain rfl := Except.ok.inj htext
    exact h
  · obtain ⟨p, _, rfl⟩ := map_eq_ok_iff.mp htext
    refine ⟨(h.ready.linked_add (.text p) rfl).1, fun o ho => ?_⟩
    obtain ⟨e, he⟩ := h.opened o ho
    exact ⟨e, grows_add _ _ _ _ _ he⟩

/-- A script that runs leaves the arena alone. -/
theorem runScript_keeps {o : OpenEntry} (h : g.runScript o = .ok g') :
    g'.nodes = g.nodes ∧ g'.opened = g.opened := by
  unfold runScript at h
  split at h
  · obtain ⟨run, _, rfl⟩ := map_eq_ok_iff.mp h
    exact ⟨rfl, rfl⟩
  · obtain rfl := Except.ok.inj h
    exact ⟨rfl, rfl⟩

/-- The innermost open element closes. -/
theorem Sound.runScript {o : OpenEntry} {rest : List OpenEntry} (h : g.Sound)
    (hopened : g.opened = o :: rest) (hrun : Growth.runScript { g with opened := rest } o = .ok g') :
    g'.Sound := by
  obtain ⟨hnodes, hrest⟩ := runScript_keeps hrun
  refine ⟨hnodes ▸ h.linked, fun o' ho' => ?_⟩
  rw [hrest] at ho'
  rw [hnodes]
  exact h.opened o' (hopened ▸ List.mem_cons_of_mem o ho')

/-- **Whatever an event is, the entries fit together behind it.** -/
theorem Sound.step {event : Markup.Event} (h : g.Sound) (hstep : g.step s event = .ok g') :
    g'.Sound := by
  cases event with
  | opening tag attrs selfClosing =>
    obtain ⟨kind, _, hstep⟩ := bind_eq_ok_iff.mp hstep
    obtain ⟨heading, _, hstep⟩ := bind_eq_ok_iff.mp hstep
    obtain rfl := Except.ok.inj hstep
    obtain ⟨hsound, hnew⟩ := h.addElement heading
    cases selfClosing with
    | true => exact hsound
    | false =>
      refine ⟨hsound.linked, fun o ho => ?_⟩
      rcases List.mem_cons.mp ho with rfl | ho
      · exact ⟨_, hnew⟩
      · exact hsound.opened o ho
  | closing tag kind =>
    cases kind with
    | endOfInput => cases hstep
    | explicit | implicit =>
      unfold Growth.step at hstep
      dsimp only at hstep
      split at hstep
      · obtain rfl := Except.ok.inj hstep
        exact h
      · rename_i o rest hopened
        exact h.runScript hopened hstep
  | text content =>
    unfold Growth.step at hstep
    dsimp only at hstep
    split at hstep
    · rename_i o rest hopened
      split at hstep
      · obtain rfl := Except.ok.inj hstep
        refine ⟨h.linked, fun o' ho' => ?_⟩
        rcases List.mem_cons.mp ho' with rfl | ho'
        · exact h.opened o (hopened ▸ List.mem_cons_self)
        · exact h.opened o' (hopened ▸ List.mem_cons_of_mem o ho')
      · exact h.addText hstep
    · exact h.addText hstep

/-- **Whatever has been read, the entries fit together.** -/
theorem Sound.foldlM {events : List Markup.Event} (h : g.Sound)
    (hfold : events.foldlM (Growth.step s) g = .ok g') : g'.Sound := by
  induction events generalizing g with
  | nil =>
    obtain rfl := Except.ok.inj hfold
    exact h
  | cons event events ih =>
    rw [List.foldlM_cons] at hfold
    obtain ⟨g₁, hstep, hfold⟩ := bind_eq_ok_iff.mp hfold
    exact ih (h.step hstep) hfold

end Growth

end Trellis
