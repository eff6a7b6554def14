import Mathlib.Logic.Basic
import Trellis.Value.Path

/-!
# Paths as they are written

A path is written key by key: a name behind a point, an index between brackets. A key can be told from
what stands around it when its name is not empty and has neither a point nor an opening bracket in it, or
when its index is below `2 ^ 64` (`Key.Plain`).
- What is written of such keys is read as these keys, in whatever order names and indices follow each
  other (`outside_text`).
- Nothing but such keys is ever read (`plain_of_outside`).

So the written form of a path that was read is a path again, and the same one (`parse?_text_iff`).
-/

namespace Trellis

/-- A character that goes on with a name. -/
def InName (c : Char) : Prop := c ≠ '.' ∧ c ≠ '['

/-- A key that can be told from what stands around it in a path. -/
def Key.Plain : Key → Prop
  | .name n => n ≠ "" ∧ ∀ c ∈ n.toList, InName c
  | .index i => i < Number.indexBound

/-! ## 1. Indices -/

namespace Number

variable {ds : List Char} {i : Nat}

/-- What is read as an index: digits, at least one of them, that write a number below the bound. -/
theorem index?_eq_some_iff :
    index? ds = some i ↔
      ds ≠ [] ∧ (∀ d ∈ ds, isDigit d = true) ∧ digitsValue ds = i ∧ i < indexBound := by
  by_cases hdigits : ds ≠ [] ∧ ∀ d ∈ ds, isDigit d = true
  · have hread : (ds.isEmpty || !ds.all isDigit) = false := by
      rw [List.isEmpty_eq_false_iff.mpr hdigits.1, List.all_eq_true.mpr hdigits.2]
      rfl
    rw [index?, hread, if_neg Bool.false_ne_true, ← and_assoc, and_iff_right hdigits]
    dsimp only
    split
    · rename_i hsmall
      rw [Option.some.injEq]
      exact ⟨fun h => ⟨h, h ▸ hsmall⟩, And.left⟩
    · rename_i hlarge
      exact ⟨nofun, fun h => absurd (h.1 ▸ h.2) hlarge⟩
  · have hread : (ds.isEmpty || !ds.all isDigit) = true := by
      rw [Bool.or_eq_true, List.isEmpty_iff, Bool.not_eq_true', ← Bool.not_eq_true, List.all_eq_true]
      exact (not_and_or.mp hdigits).imp_left not_not.mp
    rw [index?, hread, if_pos rfl]
    exact ⟨nofun, fun h => absurd ⟨h.1, h.2.1⟩ hdigits⟩

/-- A written number consists of digits. -/
theorem isDigit_of_mem_toDigits {n : Nat} {d : Char} (h : d ∈ Nat.toDigits 10 n) :
    isDigit d = true := by
  have hd := Nat.isDigit_of_mem_toDigits (by decide) (by decide) h
  rw [Char.isDigit, Bool.and_eq_true, decide_eq_true_iff, decide_eq_true_iff] at hd
  rw [isDigit, Bool.and_eq_true, decide_eq_true_iff, decide_eq_true_iff]
  exact hd

theorem digitsValue_toDigits (n : Nat) : digitsValue (Nat.toDigits 10 n) = n :=
  Nat.ofDigitChars_ten_toDigits

/-- **A written index is read as that index.** -/
theorem index?_toDigits (h : i < indexBound) : index? (Nat.toDigits 10 i) = some i :=
  index?_eq_some_iff.mpr
    ⟨Nat.toDigits_ne_nil, fun _ => isDigit_of_mem_toDigits, digitsValue_toDigits i, h⟩

end Number

/-! ## 2. Reading what was written -/

namespace Path

variable {name digits cs ds rest : List Char} {keys : List Key}

/-- The characters of a name are taken one after the other. -/
theorem outside_name (h : ∀ c ∈ cs, InName c) (name rest : List Char) :
    outside name (cs ++ rest) = outside (name ++ cs) rest := by
  induction cs generalizing name with
  | nil => rw [List.nil_append, List.append_nil]
  | cons c cs ih =>
    obtain ⟨hpoint, hbracket⟩ := h c List.mem_cons_self
    rw [List.cons_append, outside, if_neg hpoint, if_neg hbracket,
      ih fun d hd => h d (List.mem_cons_of_mem c hd), List.append_assoc, List.singleton_append]

/-- So are the digits of an index, up to the closing bracket. -/
theorem inside_digits (h : ∀ d ∈ ds, Number.isDigit d = true) (digits rest : List Char) :
    inside digits (ds ++ ']' :: rest) = inside (digits ++ ds) (']' :: rest) := by
  induction ds generalizing digits with
  | nil => rw [List.nil_append, List.append_nil]
  | cons d ds ih =>
    have hd := h d List.mem_cons_self
    have hne : d ≠ ']' := by
      rintro rfl
      cases hd
    rw [List.cons_append, inside, if_neg hne, if_pos hd,
      ih fun e he => h e (List.mem_cons_of_mem d he), List.append_assoc, List.singleton_append]

theorem pending_eq_name {n : String} (h : n ≠ "") : pending n.toList = [.name n] := by
  rw [pending, if_neg (by simpa using h), String.ofList_toList]

/-- **A written path is read as its keys**, behind the name that was read before it. By induction on the
    keys: the first character of a key ends what stands before it. -/
theorem outside_text (h : ∀ k ∈ keys, k.Plain) (name : List Char) :
    outside name (keys.flatMap fun k => k.text.toList) = some (pending name ++ keys) := by
  induction keys generalizing name with
  | nil => rw [List.flatMap_nil, outside, List.append_nil]
  | cons k keys ih =>
    obtain ⟨hk, hkeys⟩ := List.forall_mem_cons.mp h
    rw [List.flatMap_cons]
    cases k with
    | name n =>
      rw [Key.text, String.toList_append]
      show outside name ('.' :: (n.toList ++ _)) = _
      rw [outside, if_pos rfl, outside_name hk.2, ih hkeys, List.nil_append, pending_eq_name hk.1]
      rfl
    | index i =>
      have htext : (Key.index i).text.toList = '[' :: (Nat.toDigits 10 i ++ [']']) := by
        rw [Key.text, String.toList_append, String.toList_append]
        exact congrArg (fun ds => '[' :: (ds ++ [']'])) Nat.toList_repr
      rw [htext, List.cons_append, List.append_assoc, outside, if_neg (by decide), if_pos rfl,
        List.singleton_append, inside_digits fun _ => Number.isDigit_of_mem_toDigits, inside,
        if_pos rfl, List.nil_append, Number.index?_toDigits hk, ih hkeys]
      rfl

/-! ## 3. What can be read -/

theorem plain_of_mem_pending (h : ∀ c ∈ name, InName c) {k : Key} (hk : k ∈ pending name) :
    k.Plain := by
  unfold pending at hk
  split at hk
  · cases hk
  · rename_i hne
    obtain rfl := List.mem_singleton.mp hk
    refine ⟨fun hempty => hne ?_, ?_⟩
    · rw [← String.toList_ofList (l := name), hempty]
      rfl
    · rw [String.toList_ofList]
      exact h

mutual

/-- **Every key that is read is plain**: outside brackets, behind characters of a name. -/
theorem plain_of_outside : ∀ {cs name : List Char} {keys : List Key}, (∀ c ∈ name, InName c) →
    outside name cs = some keys → ∀ k ∈ keys, k.Plain
  | [], name, keys, hname, h => by
    obtain rfl := Option.some.inj h
    exact fun k => plain_of_mem_pending hname
  | c :: rest, name, keys, hname, h => by
    rw [outside] at h
    split at h
    · obtain ⟨ks, hks, rfl⟩ := Option.map_eq_some_iff.mp h
      exact List.forall_mem_append.mpr
        ⟨fun k => plain_of_mem_pending hname, plain_of_outside (List.forall_mem_nil InName) hks⟩
    · rename_i hpoint
      split at h
      · obtain ⟨ks, hks, rfl⟩ := Option.map_eq_some_iff.mp h
        exact List.forall_mem_append.mpr
          ⟨fun k => plain_of_mem_pending hname, plain_of_inside hks⟩
      · rename_i hbracket
        refine plain_of_outside (List.forall_mem_append.mpr ⟨hname, fun d hd => ?_⟩) h
        obtain rfl := List.mem_singleton.mp hd
        exact ⟨hpoint, hbracket⟩

/-- Inside brackets, behind digits. -/
theorem plain_of_inside : ∀ {cs digits : List Char} {keys : List Key},
    inside digits cs = some keys → ∀ k ∈ keys, k.Plain
  | [], _, _, h => by cases h
  | c :: rest, digits, keys, h => by
    rw [inside] at h
    split at h
    · split at h
      · rename_i i hi
        obtain ⟨ks, hks, rfl⟩ := Option.map_eq_some_iff.mp h
        exact List.forall_mem_cons.mpr
          ⟨(Number.index?_eq_some_iff.mp hi).2.2.2, plain_of_outside (List.forall_mem_nil InName) hks⟩
      · cases h
    · split at h
      · exact plain_of_inside h
      · cases h

end

theorem toList_text (keys : List Key) :
    (text keys).toList = keys.flatMap fun k => k.text.toList := by
  rw [text, String.toList_join, List.flatMap_map]

theorem parse?_eq_some_iff {s : String} :
    parse? s = some keys ↔ outside [] s.toList = some keys ∧ keys ≠ [] := by
  unfold parse?
  cases houtside : outside [] s.toList with
  | none => exact ⟨nofun, fun h => by cases h.1⟩
  | some ks =>
    cases ks with
    | nil => exact ⟨nofun, fun h => absurd (Option.some.inj h.1).symm h.2⟩
    | cons k ks =>
      rw [Option.some.injEq]
      exact ⟨fun h => ⟨h, h ▸ List.cons_ne_nil k ks⟩, And.left⟩

/-- **Paths and what is written of them.** For every list of keys: its written form is read as this list
    if and only if the list is not empty and each of its keys is plain; and only such lists are read from
    any text at all. So a path that was read is read again from its written form. -/
theorem parse?_text_iff (keys : List Key) :
    (parse? (text keys) = some keys ↔ keys ≠ [] ∧ ∀ k ∈ keys, k.Plain) ∧
      ((∃ s, parse? s = some keys) ↔ keys ≠ [] ∧ ∀ k ∈ keys, k.Plain) := by
  have hread : ∀ s, parse? s = some keys → keys ≠ [] ∧ ∀ k ∈ keys, k.Plain := by
    intro s hs
    obtain ⟨houtside, hne⟩ := parse?_eq_some_iff.mp hs
    exact ⟨hne, plain_of_outside (List.forall_mem_nil InName) houtside⟩
  have hwritten : keys ≠ [] ∧ (∀ k ∈ keys, k.Plain) → parse? (text keys) = some keys := by
    rintro ⟨hne, hplain⟩
    rw [parse?_eq_some_iff, toList_text, outside_text hplain]
    exact ⟨rfl, hne⟩
  exact ⟨⟨hread _, hwritten⟩, fun ⟨s, hs⟩ => hread s hs, fun h => ⟨_, hwritten h⟩⟩

example : parse? "list[1].name" = some [.name "list", .index 1, .name "name"] := by decide

end Path

end Trellis
