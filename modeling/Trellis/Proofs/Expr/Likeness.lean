import Trellis.Proofs.Expr.Gaps
import Trellis.Proofs.Number.Text

/-!
# Sources with the same tokens

Two sources are read side by side. `Likens R f` says of a relation between sources that they have the
same tokens in front, but for the texts, which are `f` of each other, and that what stands behind the
tokens is related again. It asks about single characters only; what the readers of tokens make of
related sources follows: marks, words, numbers and operators are read alike (`Likens.mark?`,
`Likens.word?`, `Likens.number?`, `Likens.connective?`).

Behind a stroke that divides, the rests need not be related when both begin with a star: there a comment
has begun that does not end, and no operand can be read (`Behind`).
-/

namespace Trellis.Token

variable {c : Char} {cs ds rest : List Char}

/-! ## 1. Two results -/

section

variable {α β γ δ : Type} {P : α → β → Prop} {Q : γ → δ → Prop} {r : Option α} {r' : Option β}

theorem rel_cases (h : Option.Rel P r r') :
    (r = none ∧ r' = none) ∨ ∃ a b, r = some a ∧ r' = some b ∧ P a b := by
  cases h with
  | none => exact .inl ⟨rfl, rfl⟩
  | some h => exact .inr ⟨_, _, rfl, rfl, h⟩

theorem rel_bind {f : α → Option γ} {f' : β → Option δ} (h : Option.Rel P r r')
    (hf : ∀ a b, P a b → Option.Rel Q (f a) (f' b)) : Option.Rel Q (r >>= f) (r' >>= f') := by
  cases h with
  | none => exact .none
  | some h => exact hf _ _ h

theorem rel_map {f : α → γ} {f' : β → δ} (h : Option.Rel P r r')
    (hf : ∀ a b, P a b → Q (f a) (f' b)) : Option.Rel Q (r.map f) (r'.map f') := by
  cases h with
  | none => exact .none
  | some h => exact .some (hf _ _ h)

theorem rel_or {s : Option α} {s' : Option β} (h : Option.Rel P r r') (hs : Option.Rel P s s') :
    Option.Rel P (r.or s) (r'.or s') := by
  cases h with
  | none => exact hs
  | some h => exact .some h

theorem rel_findSome? {ι : Type} {is : List ι} {f : ι → Option α} {f' : ι → Option β}
    (h : ∀ i ∈ is, Option.Rel P (f i) (f' i)) : Option.Rel P (is.findSome? f) (is.findSome? f') := by
  induction is with
  | nil => exact .none
  | cons i is ih =>
    obtain ⟨hi, his⟩ := List.forall_mem_cons.mp h
    rw [List.findSome?_cons, List.findSome?_cons]
    rcases rel_cases hi with ⟨h₁, h₂⟩ | ⟨a, b, h₁, h₂, hab⟩
    · rw [h₁, h₂]
      exact ih his
    · rw [h₁, h₂]
      exact .some hab

theorem rel_mono {P' : α → β → Prop} (h : Option.Rel P r r')
    (hP : ∀ a b, r = some a → r' = some b → P a b → P' a b) : Option.Rel P' r r' := by
  cases h with
  | none => exact .none
  | some h => exact .some (hP _ _ rfl rfl h)

end

/-! ## 2. Related sources -/

/-- A character that stands for itself outside of a text: no blank, no quote, and no stroke. -/
def Plain (c : Char) : Prop := c ≠ '/' ∧ c ≠ '\x27' ∧ c ≠ '"' ∧ Text.isBlank c = false

instance (c : Char) : Decidable (Plain c) := inferInstanceAs (Decidable (_ ∧ _))

/-- Rests behind a stroke: related, or there both begin with a star. -/
def Behind (R : List Char → List Char → Prop) (x y : List Char) : Prop :=
  R x y ∨ (x.head? = some '*' ∧ y.head? = some '*')

/-- **Sources with the same tokens**, texts apart: a text of the one is `f` of the text of the other. -/
structure Likens (R : List Char → List Char → Prop) (f : String → String) : Prop where
  skip : ∀ {cs ds}, R cs ds → R (skip cs) (skip ds)
  ends : ∀ {cs ds}, R cs ds → (Token.skip cs = [] ↔ Token.skip ds = [])
  front : ∀ {cs ds}, R cs ds → (∃ c x y, Plain c ∧ cs = c :: x ∧ ds = c :: y ∧ R x y) ∨
    (∀ c ∈ cs.head?, ¬ Plain c) ∧ ∀ c ∈ ds.head?, ¬ Plain c
  slash : ∀ {cs ds}, R cs ds → Option.Rel (Behind R) (mark? '/' cs) (mark? '/' ds)
  text : ∀ {cs ds}, R cs ds →
    Option.Rel (fun p q => q.1 = f p.1 ∧ R p.2 q.2) (text? cs) (text? ds)
  keeps : ∀ s : String, (∀ c ∈ s.toList, Text.isBlank c = false) → f s = s

/-- Rests that are related, each at least `k` characters behind the source in which a reader began. -/
structure Past (R : List Char → List Char → Prop) (k : Nat) (cs ds x y : List Char) : Prop where
  related : R x y
  left : x.length + k ≤ cs.length
  right : y.length + k ≤ ds.length

/-- Further behind a place is behind every place before it. -/
theorem Past.behind {R : List Char → List Char → Prop} {k l : Nat} {cs ds x y x' y' : List Char}
    (h : Past R l x y x' y') (hx : x.length + k ≤ cs.length) (hy : y.length + k ≤ ds.length) :
    Past R l cs ds x' y' :=
  ⟨h.related, Nat.le_trans h.left (Nat.le_of_add_right_le hx),
    Nat.le_trans h.right (Nat.le_of_add_right_le hy)⟩

/-- What is read from the one source, and what of the other: `g` of it, with rests that are related. -/
def Alike {α β : Type} (R : List Char → List Char → Prop) (k : Nat) (g : α → β) (cs ds : List Char)
    (p : α × List Char) (q : β × List Char) : Prop := q.1 = g p.1 ∧ Past R k cs ds p.2 q.2

section

variable {α β γ δ : Type} {Q : γ → δ → Prop} {R : List Char → List Char → Prop} {k : Nat} {g : α → β}
  {r : Option (α × List Char)} {r' : Option (β × List Char)} {a : α} {b : β} {x y : List Char}

theorem alike_some (hb : b = g a) (hR : R x y) (hx : x.length + k ≤ cs.length)
    (hy : y.length + k ≤ ds.length) : Option.Rel (Alike R k g cs ds) (some (a, x)) (some (b, y)) :=
  .some ⟨hb, hR, hx, hy⟩

theorem alike_cases (h : Option.Rel (Alike R k g cs ds) r r') :
    (r = none ∧ r' = none) ∨ ∃ a x y, r = some (a, x) ∧ r' = some (g a, y) ∧ R x y ∧
      x.length + k ≤ cs.length ∧ y.length + k ≤ ds.length := by
  rcases rel_cases h with hnone | ⟨⟨a, x⟩, ⟨_, y⟩, h₁, h₂, rfl, hR, hx, hy⟩
  · exact .inl hnone
  · exact .inr ⟨a, x, y, h₁, h₂, hR, hx, hy⟩

theorem alike_bind {f : α × List Char → Option γ} {f' : β × List Char → Option δ}
    (h : Option.Rel (Alike R k g cs ds) r r')
    (hf : ∀ a x y, R x y → x.length + k ≤ cs.length → y.length + k ≤ ds.length →
      Option.Rel Q (f (a, x)) (f' (g a, y))) : Option.Rel Q (r >>= f) (r' >>= f') := by
  rcases alike_cases h with ⟨rfl, rfl⟩ | ⟨a, x, y, rfl, rfl, hR, hx, hy⟩
  · exact .none
  · exact hf a x y hR hx hy

theorem alike_map {f : α → γ} {f' : β → δ} {g' : γ → δ} (h : Option.Rel (Alike R k g cs ds) r r')
    (hf : ∀ a, f' (g a) = g' (f a)) :
    Option.Rel (Alike R k g' cs ds) (r.map fun (a, rest) => (f a, rest))
      (r'.map fun (b, rest) => (f' b, rest)) := by
  rcases alike_cases h with ⟨rfl, rfl⟩ | ⟨a, x, y, rfl, rfl, hR, hx, hy⟩
  · exact .none
  · exact alike_some (hf a) hR hx hy

/-- What is read behind a place has been read behind every place before it. -/
theorem alike_from {l : Nat} (h : Option.Rel (Alike R k g x y) r r')
    (hx : x.length + l ≤ cs.length + k) (hy : y.length + l ≤ ds.length + k) :
    Option.Rel (Alike R l g cs ds) r r' := by
  rcases alike_cases h with ⟨rfl, rfl⟩ | ⟨a, x', y', rfl, rfl, hR, hx', hy'⟩
  · exact .none
  · exact alike_some rfl hR (by omega) (by omega)

/-- What may be left out: when it is, something else stands for it, and the source goes on. -/
theorem alike_getD {a : α} (h : Option.Rel (Alike R k g cs ds) r r') (hR : R cs ds) :
    Alike R 0 g cs ds (r.getD (a, cs)) (r'.getD (g a, ds)) := by
  rcases alike_cases h with ⟨rfl, rfl⟩ | ⟨a, x, y, rfl, rfl, hR, hx, hy⟩
  · exact ⟨rfl, hR, Nat.le_refl _, Nat.le_refl _⟩
  · exact ⟨rfl, hR, Nat.le_trans (Nat.le_add_right _ _) hx, Nat.le_trans (Nat.le_add_right _ _) hy⟩

theorem past_bind {r r' : Option (List Char)} {f : List Char → Option γ} {f' : List Char → Option δ}
    (h : Option.Rel (Past R k cs ds) r r')
    (hf : ∀ x y, R x y → x.length + k ≤ cs.length → y.length + k ≤ ds.length →
      Option.Rel Q (f x) (f' y)) : Option.Rel Q (r >>= f) (r' >>= f') :=
  rel_bind h fun x y ⟨hR, hx, hy⟩ => hf x y hR hx hy

end

/-! ## 3. Readers of tokens -/

section

theorem length_lt_of_skip {rest : List Char} (h : skip cs = c :: rest) :
    rest.length < cs.length := by
  have hle := length_skip_le cs
  rw [h, List.length_cons] at hle
  exact hle

theorem length_lt_of_symbol {mark : List Char} (hne : mark ≠ [])
    (h : Text.after? mark (skip cs) = some rest) : rest.length < cs.length := by
  have hle := length_skip_le cs
  have hpos := List.length_pos_of_ne_nil hne
  rw [Text.after?_eq_some h, List.length_append] at hle
  omega

theorem word?_of_not_start (h : ∀ c ∈ (skip cs).head?, isWordStart c = false) :
    word? cs = none := by
  rw [word?]
  split
  · rename_i c more hskip
    exact if_neg (by rw [h c (by rw [hskip]; rfl)]; exact Bool.false_ne_true)
  · rfl

/-- What a word is made of, and how far it goes. -/
theorem word?_eq_some {x : String} (h : word? cs = some (x, rest)) :
    IsWord x ∧ rest.length < cs.length := by
  rw [word?] at h
  split at h
  · rename_i c more hskip
    split at h
    · rename_i hstart
      cases h
      refine ⟨⟨⟨c, by simp, hstart⟩, ?_⟩, ?_⟩
      · rw [String.toList_ofList, List.forall_mem_cons]
        exact ⟨by simp [isWordChar, hstart], fun d hd => List.mem_takeWhile_imp hd⟩
      · exact Nat.lt_of_le_of_lt (List.dropWhile_suffix _).length_le (length_lt_of_skip hskip)
    · cases h
  · cases h

/-- The sign of an exponent, and the rest. -/
def signPart (cs : List Char) : List Char × List Char :=
  match cs with
  | c :: rest => if c = '+' ∨ c = '-' then ([c], rest) else ([], c :: rest)
  | [] => ([], [])

/-- The point of a number with the digits behind it, and the rest. -/
def fractionPart (cs : List Char) : List Char × List Char :=
  match cs with
  | '.' :: more => ('.' :: more.takeWhile Number.isDigit, more.dropWhile Number.isDigit)
  | _ => ([], cs)

theorem exponentPart_cons (e : Char) (more : List Char) :
    exponentPart (e :: more) =
      if e = 'e' ∨ e = 'E' then
        if ((signPart more).2.takeWhile Number.isDigit).isEmpty then ([], e :: more)
        else (e :: ((signPart more).1 ++ (signPart more).2.takeWhile Number.isDigit),
          (signPart more).2.dropWhile Number.isDigit)
      else ([], e :: more) := rfl

theorem numberText?_eq (cs : List Char) :
    numberText? cs =
      if ((skip cs).takeWhile Number.isDigit).isEmpty &&
          (fractionPart ((skip cs).dropWhile Number.isDigit)).1.length < 2 then none
      else some ((skip cs).takeWhile Number.isDigit ++
          (fractionPart ((skip cs).dropWhile Number.isDigit)).1 ++
          (exponentPart (fractionPart ((skip cs).dropWhile Number.isDigit)).2).1,
        (exponentPart (fractionPart ((skip cs).dropWhile Number.isDigit)).2).2) := rfl

theorem signPart_of_ne (h : ∀ c ∈ cs.head?, c ≠ '+' ∧ c ≠ '-') : signPart cs = ([], cs) := by
  cases cs with
  | nil => rfl
  | cons c cs => exact if_neg (by simpa using h)

theorem fractionPart_of_ne (h : ∀ c ∈ cs.head?, c ≠ '.') : fractionPart cs = ([], cs) := by
  unfold fractionPart
  split
  · exact absurd rfl (h '.' rfl)
  · rfl

theorem exponentPart_of_ne (h : ∀ c ∈ cs.head?, c ≠ 'e' ∧ c ≠ 'E') : exponentPart cs = ([], cs) := by
  cases cs with
  | nil => rfl
  | cons c cs => exact if_neg (by simpa using h)

theorem signPart_append (cs : List Char) : (signPart cs).1 ++ (signPart cs).2 = cs := by
  unfold signPart
  split
  · split <;> rfl
  · rfl

theorem fractionPart_append (cs : List Char) : (fractionPart cs).1 ++ (fractionPart cs).2 = cs := by
  unfold fractionPart
  split
  · rw [List.cons_append, List.takeWhile_append_dropWhile]
  · rfl

theorem exponentPart_append (cs : List Char) : (exponentPart cs).1 ++ (exponentPart cs).2 = cs := by
  cases cs with
  | nil => rfl
  | cons e more =>
    rw [exponentPart_cons]
    split
    · split
      · rfl
      · rw [List.cons_append, List.append_assoc, List.takeWhile_append_dropWhile, signPart_append]
    · rfl

theorem length_lt_of_numberText? {t : List Char} (h : numberText? cs = some (t, rest)) :
    rest.length < cs.length := by
  rw [numberText?_eq] at h
  split at h
  · cases h
  · rename_i hsome
    cases h
    have hle := length_skip_le cs
    have hexponent := congrArg List.length
      (exponentPart_append (fractionPart ((skip cs).dropWhile Number.isDigit)).2)
    have hfraction := congrArg List.length
      (fractionPart_append ((skip cs).dropWhile Number.isDigit))
    have hunits := congrArg List.length
      (List.takeWhile_append_dropWhile (p := Number.isDigit) (l := skip cs))
    rw [List.length_append] at hexponent hfraction hunits
    rw [Bool.and_eq_true, List.isEmpty_iff_length_eq_zero, decide_eq_true_iff, not_and_or] at hsome
    omega

theorem length_lt_of_number? {n : Float} (h : number? cs = some (n, rest)) :
    rest.length < cs.length := by
  obtain ⟨⟨t, rest'⟩, ht, heq⟩ := Option.map_eq_some_iff.mp h
  cases heq
  exact length_lt_of_numberText? ht

/-- What stands behind a closing quote is behind the opening one. -/
theorem length_lt_of_rawText? {quote : Char} {t : List Char} (h : rawText? quote cs = some (t, rest)) :
    rest.length < cs.length := by
  fun_induction rawText? quote cs generalizing t with
  | case1 => cases h
  | case2 =>
    cases h
    exact Nat.lt_succ_self _
  | case3 => cases h
  | case4 e more _ ih =>
    obtain ⟨⟨t', rest'⟩, ht, heq⟩ := Option.map_eq_some_iff.mp h
    cases heq
    exact Nat.lt_trans (ih ht) (Nat.lt_trans (Nat.lt_succ_self _) (Nat.lt_succ_self _))
  | case5 c more _ _ ih =>
    obtain ⟨⟨t', rest'⟩, ht, heq⟩ := Option.map_eq_some_iff.mp h
    cases heq
    exact Nat.lt_trans (ih ht) (Nat.lt_succ_self _)

theorem length_lt_of_text? {s : String} (h : text? cs = some (s, rest)) :
    rest.length < cs.length := by
  rw [text?] at h
  split at h
  · rename_i c more hskip
    split at h
    · obtain ⟨⟨t, rest'⟩, ht, heq⟩ := Option.map_eq_some_iff.mp h
      cases heq
      exact Nat.lt_trans (length_lt_of_rawText? ht) (length_lt_of_skip hskip)
    · cases h
  · cases h

/-- The operators between two operands, in the order in which they are tried. -/
def connectives : List Connective := [
  .logic .or, .logic .and, .value .strictEq, .value .strictNe, .value .eq, .value .ne, .value .le,
  .value .ge, .value .lt, .value .gt, .value .add, .value .sub, .value .mul, .value .div, .value .rem]

theorem after?_eq_none {mark cs : List Char} (h : ∀ rest, cs ≠ mark ++ rest) :
    Text.after? mark cs = none :=
  Option.eq_none_iff_forall_ne_some.mpr fun rest hrest => h rest (Text.after?_eq_some hrest)

/-- The first operator that the source begins with. -/
theorem connective?_eq (cs : List Char) :
    connective? cs = connectives.findSome? fun op =>
      (Text.after? op.symbol (skip cs)).map fun rest => (op, rest) := by
  rw [connective?]
  generalize skip cs = cs
  split
  case h_16 h₁ h₂ h₃ h₄ h₅ h₆ h₇ h₈ h₉ h₁₀ h₁₁ h₁₂ h₁₃ h₁₄ h₁₅ =>
    symm
    rw [List.findSome?_eq_none_iff]
    simp only [connectives, List.forall_mem_cons]
    simp only [Option.map_eq_none_iff]
    exact ⟨after?_eq_none h₁, after?_eq_none h₂, after?_eq_none h₃, after?_eq_none h₄, after?_eq_none h₅,
      after?_eq_none h₆, after?_eq_none h₇, after?_eq_none h₈, after?_eq_none h₉, after?_eq_none h₁₀,
      after?_eq_none h₁₁, after?_eq_none h₁₂, after?_eq_none h₁₃, after?_eq_none h₁₄,
      after?_eq_none h₁₅, List.forall_mem_nil _⟩
  case h_5 rest h | h_6 rest h | h_9 rest h | h_10 rest h =>
    -- a longer operator is tried first, and an equals sign is missing
    cases rest with
    | nil => rfl
    | cons d rest =>
      have hd : '=' ≠ d := by
        rintro rfl
        exact h rest rfl
      simp [connectives, Connective.symbol, Text.after?, hd]
  all_goals rfl

/-- The operator in front of an operand that the source begins with. -/
theorem unaryOp?_eq (cs : List Char) :
    unaryOp? cs = [UnaryOp.not, .neg, .pos].findSome? fun op =>
      (Text.after? [op.symbol] (skip cs)).map fun rest => (op, rest) := by
  rw [unaryOp?]
  generalize skip cs = cs
  split
  case h_4 h₁ h₂ h₃ =>
    have hnone : ∀ op ∈ [UnaryOp.not, .neg, .pos], Text.after? [op.symbol] cs = none :=
      List.forall_mem_cons.mpr ⟨after?_eq_none h₁, List.forall_mem_cons.mpr
        ⟨after?_eq_none h₂, List.forall_mem_singleton.mpr (after?_eq_none h₃)⟩⟩
    symm
    rw [List.findSome?_eq_none_iff]
    exact fun op hop => Option.map_eq_none_iff.mpr (hnone op hop)
  all_goals rfl

theorem mark?_eq (m : Char) (cs : List Char) : mark? m cs = Text.after? [m] (skip cs) := by
  rw [mark?]
  cases skip cs with
  | nil => rfl
  | cons c rest => simp [Text.after?, eq_comm]

/-- The operator of an assignment that the source begins with. -/
theorem assignOp?_eq (cs : List Char) :
    assignOp? cs = ((Text.after? ['+', '='] (skip cs)).map fun rest => (AssignOp.add, rest)).or
      (((Text.after? ['-', '='] (skip cs)).map fun rest => (AssignOp.sub, rest)).or
        ((mark? '=' cs).bind fun rest =>
          if (mark? '=' rest).isSome then none else some (AssignOp.set, rest))) := by
  rw [assignOp?, mark?_eq]
  generalize skip cs = cs
  split
  · rfl
  · rfl
  · rename_i rest
    split
    · rename_i heq
      simp [Text.after?, mark?_eq, heq]
    · rename_i h
      have hnone : Text.after? ['='] (skip rest) = none := after?_eq_none h
      simp [Text.after?, mark?_eq, hnone]
  · rename_i h₁ h₂ h₃
    rw [after?_eq_none h₁, after?_eq_none h₂, after?_eq_none h₃]
    rfl

end

/-! ## 4. Tokens of related sources -/

theorem lt_of_isWordChar (h : isWordChar c = true) : c.toNat < 128 := by
  have hbelow : ∀ {d : Char}, d.toNat < 128 → c.val ≤ d.val → c.toNat < 128 := fun hd hle =>
    Nat.lt_of_le_of_lt (UInt32.le_iff_toNat_le.mp hle) hd
  rw [isWordChar, isWordStart, Bool.or_eq_true, Bool.or_eq_true, Bool.or_eq_true, beq_iff_eq,
    beq_iff_eq] at h
  rcases h with ((hletter | rfl) | rfl) | hdigit
  · rcases Bool.or_eq_true_iff.mp hletter with hupper | hlower
    · exact hbelow (d := 'Z') (by decide) (of_decide_eq_true hupper).2
    · exact hbelow (d := 'z') (by decide) (of_decide_eq_true (Bool.and_eq_true_iff.mp hlower).2)
  · decide
  · decide
  · exact hbelow (d := '9') (by decide) (of_decide_eq_true (Bool.and_eq_true_iff.mp hdigit).2)

theorem plain_of_isWordChar (h : isWordChar c = true) : Plain c := by
  have hascii : ∀ n < 128, isWordChar (Char.ofNat n) = true → Plain (Char.ofNat n) := by decide
  have hc := hascii c.toNat (lt_of_isWordChar h)
  rw [Char.ofNat_toNat] at hc
  exact hc h

theorem plain_of_isDigit (h : Number.isDigit c = true) : Plain c :=
  plain_of_isWordChar (by simp [isWordChar, h])

theorem not_isBlank_of_isWord {x : String} (hx : IsWord x) :
    ∀ c ∈ x.toList, Text.isBlank c = false := fun c hc => (plain_of_isWordChar (hx.2 c hc)).2.2.2

/-- There is no blank in the text of a number. -/
theorem not_isBlank_of_number (n : Float) : ∀ c ∈ (Number.text n).toList, Text.isBlank c = false := by
  intro c hc
  rw [Number.text_eq_written, Number.written_eq (Number.proper_ofFloat n), String.toList_append,
    List.mem_append] at hc
  rcases hc with hsign | hunsigned
  · split at hsign
    · obtain rfl := List.mem_singleton.mp hsign
      rfl
    · cases hsign
  · generalize (Number.Exact.ofFloat n).unsignedZero = x at hunsigned
    cases x with
    | nan =>
      have hall : ∀ c ∈ "NaN".toList, Text.isBlank c = false := by decide
      exact hall c hunsigned
    | infinite negative =>
      have hall : ∀ c ∈ "Infinity".toList, Text.isBlank c = false := by decide
      exact hall c hunsigned
    | finite negative m e =>
      rcases Number.mem_positional hunsigned with hdigit | rfl
      · exact (plain_of_isDigit hdigit).2.2.2
      · rfl

namespace Likens

variable {R : List Char → List Char → Prop} {f : String → String} (h : Likens R f)
include h

theorem after? {mark : List Char} (hmark : ∀ c ∈ mark, Plain c) (hR : R cs ds) :
    Option.Rel R (Text.after? mark cs) (Text.after? mark ds) := by
  induction mark generalizing cs ds with
  | nil => exact .some hR
  | cons m mark ih =>
    obtain ⟨hm, hmark⟩ := List.forall_mem_cons.mp hmark
    rcases h.front hR with ⟨c, x, y, -, rfl, rfl, hxy⟩ | ⟨hcs, hds⟩
    · rw [Text.after?, Text.after?]
      split
      · exact ih hmark hxy
      · exact .none
    · have hnone : ∀ {cs : List Char}, (∀ c ∈ cs.head?, ¬ Plain c) → Text.after? (m :: mark) cs = none :=
        fun hcs => after?_eq_none fun rest hrest => hcs m (by rw [hrest]; rfl) hm
      rw [hnone hcs, hnone hds]
      exact .none

/-- What the first tokens open with: one of some plain characters in both sources, or with none of them
    in either. -/
theorem opens (marks : List Char) (hmarks : ∀ c ∈ marks, Plain c) (hR : R cs ds) :
    (∃ c ∈ marks, ∃ x y, Token.skip cs = c :: x ∧ Token.skip ds = c :: y ∧ Past R 1 cs ds x y) ∨
      (∀ c ∈ (Token.skip cs).head?, c ∉ marks) ∧ ∀ c ∈ (Token.skip ds).head?, c ∉ marks := by
  rcases h.front (h.skip hR) with ⟨c, x, y, -, hcs, hds, hxy⟩ | ⟨hcs, hds⟩
  · by_cases hc : c ∈ marks
    · exact .inl ⟨c, hc, x, y, hcs, hds, hxy, length_lt_of_skip hcs, length_lt_of_skip hds⟩
    · exact .inr ⟨by rw [hcs]; simpa using hc, by rw [hds]; simpa using hc⟩
  · exact .inr ⟨fun c hc hmem => hcs c hc (hmarks c hmem), fun c hc hmem => hds c hc (hmarks c hmem)⟩

/-- A run of plain characters, by induction on how many characters there are. -/
theorem run {p : Char → Bool} (hp : ∀ c, p c = true → Plain c) (hR : R cs ds) :
    cs.takeWhile p = ds.takeWhile p ∧ R (cs.dropWhile p) (ds.dropWhile p) := by
  induction hn : cs.length using Nat.strong_induction_on generalizing cs ds with
  | _ n ih =>
    rcases h.front hR with ⟨c, x, y, -, rfl, rfl, hxy⟩ | ⟨hcs, hds⟩
    · rw [List.takeWhile_cons, List.takeWhile_cons, List.dropWhile_cons, List.dropWhile_cons]
      split
      · obtain ⟨htake, hdrop⟩ := ih x.length (hn ▸ Nat.lt_succ_self x.length) hxy rfl
        exact ⟨by rw [htake], hdrop⟩
      · exact ⟨rfl, hR⟩
    · have hstops : ∀ {cs : List Char}, (∀ c ∈ cs.head?, ¬ Plain c) → Text.Stops p cs :=
        fun hcs c hc => Bool.eq_false_iff.mpr fun hpc => hcs c hc (hp c hpc)
      rw [(hstops hcs).takeWhile_eq_nil, (hstops hds).takeWhile_eq_nil,
        (hstops hcs).dropWhile_eq_self, (hstops hds).dropWhile_eq_self]
      exact ⟨rfl, hR⟩

/-- A symbol of plain characters. -/
theorem symbol {mark : List Char} (hne : mark ≠ []) (hmark : ∀ c ∈ mark, Plain c) (hR : R cs ds) :
    Option.Rel (Past R 1 cs ds) (Text.after? mark (Token.skip cs))
      (Text.after? mark (Token.skip ds)) :=
  rel_mono (h.after? hmark (h.skip hR)) fun _ _ hx hy hxy =>
    ⟨hxy, length_lt_of_symbol hne hx, length_lt_of_symbol hne hy⟩

theorem mark? {m : Char} (hm : Plain m) (hR : R cs ds) :
    Option.Rel (Past R 1 cs ds) (mark? m cs) (mark? m ds) := by
  rw [mark?_eq, mark?_eq]
  exact h.symbol (List.cons_ne_nil _ _) (List.forall_mem_singleton.mpr hm) hR

theorem word? (hR : R cs ds) :
    Option.Rel (Alike R 1 id cs ds) (Token.word? cs) (Token.word? ds) := by
  have hword : Option.Rel (fun p q => q.1 = p.1 ∧ R p.2 q.2) (Token.word? cs) (Token.word? ds) := by
    rcases h.front (h.skip hR) with ⟨c, x, y, -, hcs, hds, hxy⟩ | ⟨hcs, hds⟩
    · obtain ⟨htake, hdrop⟩ := h.run (fun _ => plain_of_isWordChar) hxy
      rw [Token.word?, Token.word?, hcs, hds]
      dsimp only
      split
      · exact .some ⟨by rw [htake], hdrop⟩
      · exact .none
    · have hstart : ∀ c, ¬ Plain c → isWordStart c = false := fun c hc =>
        Bool.eq_false_iff.mpr fun hs => hc (plain_of_isWordChar (by simp [isWordChar, hs]))
      rw [word?_of_not_start fun c hc => hstart c (hcs c hc),
        word?_of_not_start fun c hc => hstart c (hds c hc)]
      exact .none
  exact rel_mono hword fun p q hp hq hpq =>
    ⟨hpq.1, hpq.2, (word?_eq_some hp).2, (word?_eq_some hq).2⟩

/-- A word has no blanks, so as a text it is kept. -/
theorem keeps_word {x : String} {rest : List Char} (hx : Token.word? cs = some (x, rest)) : f x = x :=
  h.keeps x (not_isBlank_of_isWord (word?_eq_some hx).1)

theorem text? (hR : R cs ds) :
    Option.Rel (Alike R 1 f cs ds) (Token.text? cs) (Token.text? ds) :=
  rel_mono (h.text hR) fun _ _ hp hq ⟨heq, hpq⟩ =>
    ⟨heq, hpq, length_lt_of_text? hp, length_lt_of_text? hq⟩

theorem signPart (hR : R cs ds) :
    (Token.signPart cs).1 = (Token.signPart ds).1 ∧ R (Token.signPart cs).2 (Token.signPart ds).2 := by
  rcases h.front hR with ⟨c, x, y, -, rfl, rfl, hxy⟩ | ⟨hcs, hds⟩
  · unfold Token.signPart
    dsimp only
    split
    · exact ⟨rfl, hxy⟩
    · exact ⟨rfl, hR⟩
  · have hne : ∀ c, ¬ Plain c → c ≠ '+' ∧ c ≠ '-' := fun c hc =>
      ⟨by rintro rfl; exact hc (by decide), by rintro rfl; exact hc (by decide)⟩
    rw [signPart_of_ne fun c hc => hne c (hcs c hc), signPart_of_ne fun c hc => hne c (hds c hc)]
    exact ⟨rfl, hR⟩

theorem fractionPart (hR : R cs ds) :
    (Token.fractionPart cs).1 = (Token.fractionPart ds).1 ∧
      R (Token.fractionPart cs).2 (Token.fractionPart ds).2 := by
  rcases h.front hR with ⟨c, x, y, -, rfl, rfl, hxy⟩ | ⟨hcs, hds⟩
  · by_cases hpoint : c = '.'
    · subst hpoint
      obtain ⟨htake, hdrop⟩ := h.run (fun _ => plain_of_isDigit) hxy
      exact ⟨congrArg (List.cons '.') htake, hdrop⟩
    · rw [fractionPart_of_ne (by simpa using hpoint), fractionPart_of_ne (by simpa using hpoint)]
      exact ⟨rfl, hR⟩
  · have hne : ∀ c, ¬ Plain c → c ≠ '.' := fun c hc => by
      rintro rfl
      exact hc (by decide)
    rw [fractionPart_of_ne fun c hc => hne c (hcs c hc), fractionPart_of_ne fun c hc => hne c (hds c hc)]
    exact ⟨rfl, hR⟩

theorem exponentPart (hR : R cs ds) :
    (Token.exponentPart cs).1 = (Token.exponentPart ds).1 ∧
      R (Token.exponentPart cs).2 (Token.exponentPart ds).2 := by
  rcases h.front hR with ⟨c, x, y, -, rfl, rfl, hxy⟩ | ⟨hcs, hds⟩
  · obtain ⟨hsign, hrest⟩ := h.signPart hxy
    obtain ⟨htake, hdrop⟩ := h.run (fun _ => plain_of_isDigit) hrest
    rw [exponentPart_cons, exponentPart_cons, hsign, htake]
    split
    · split
      · exact ⟨rfl, hR⟩
      · exact ⟨rfl, hdrop⟩
    · exact ⟨rfl, hR⟩
  · have hne : ∀ c, ¬ Plain c → c ≠ 'e' ∧ c ≠ 'E' := fun c hc =>
      ⟨by rintro rfl; exact hc (by decide), by rintro rfl; exact hc (by decide)⟩
    rw [exponentPart_of_ne fun c hc => hne c (hcs c hc), exponentPart_of_ne fun c hc => hne c (hds c hc)]
    exact ⟨rfl, hR⟩

theorem number? (hR : R cs ds) :
    Option.Rel (Alike R 1 id cs ds) (Token.number? cs) (Token.number? ds) := by
  have htext : Option.Rel (fun p q => q.1 = p.1 ∧ R p.2 q.2) (numberText? cs) (numberText? ds) := by
    obtain ⟨hunits, hrest⟩ := h.run (fun _ => plain_of_isDigit) (h.skip hR)
    obtain ⟨hfraction, hrest⟩ := h.fractionPart hrest
    obtain ⟨hexponent, hrest⟩ := h.exponentPart hrest
    rw [numberText?_eq, numberText?_eq, hunits, hfraction, hexponent]
    split
    · exact .none
    · exact .some ⟨rfl, hrest⟩
  have hnumber : Option.Rel (fun p q => q.1 = p.1 ∧ R p.2 q.2) (Token.number? cs) (Token.number? ds) :=
    rel_map htext fun _ _ ⟨heq, hpq⟩ =>
      ⟨congrArg (fun t => (Number.parse? t).getD Number.nan) heq, hpq⟩
  exact rel_mono hnumber fun _ _ hp hq ⟨heq, hpq⟩ =>
    ⟨heq, hpq, length_lt_of_number? hp, length_lt_of_number? hq⟩

theorem name? (hR : R cs ds) :
    Option.Rel (Alike R 1 id cs ds) (Token.name? cs) (Token.name? ds) := by
  rw [Token.name?, Token.name?]
  rcases rel_cases (h.word? hR) with ⟨h₁, h₂⟩ | ⟨⟨x, rest⟩, ⟨_, rest'⟩, h₁, h₂, rfl, hpast⟩
  · rw [h₁, h₂]
    exact .none
  · rw [h₁, h₂]
    dsimp only [id]
    split
    · exact .none
    · exact .some ⟨rfl, hpast⟩

theorem given? (w : String) (hR : R cs ds) :
    Option.Rel (Past R 1 cs ds) (Token.given? w cs) (Token.given? w ds) := by
  rw [Token.given?, Token.given?]
  rcases rel_cases (h.word? hR) with ⟨h₁, h₂⟩ | ⟨⟨x, rest⟩, ⟨_, rest'⟩, h₁, h₂, rfl, hpast⟩
  · rw [h₁, h₂]
    exact .none
  · rw [h₁, h₂]
    dsimp only [id]
    split
    · exact .some hpast
    · exact .none

theorem unaryOp? (hR : R cs ds) :
    Option.Rel (Alike R 1 id cs ds) (Token.unaryOp? cs) (Token.unaryOp? ds) := by
  rw [unaryOp?_eq, unaryOp?_eq]
  refine rel_findSome? fun op _ => ?_
  have hplain : ∀ c ∈ [op.symbol], Plain c := by cases op <;> decide
  exact rel_map (h.symbol (List.cons_ne_nil _ _) hplain hR) fun _ _ hpast => ⟨rfl, hpast⟩

/-- An operator between operands: the rests are related unless a comment has begun. -/
theorem connective? (hR : R cs ds) :
    Option.Rel (fun p q => q.1 = p.1 ∧ Behind R p.2 q.2 ∧ p.2.length < cs.length ∧
      q.2.length < ds.length) (Token.connective? cs) (Token.connective? ds) := by
  rw [connective?_eq, connective?_eq]
  refine rel_findSome? fun op _ => ?_
  by_cases hdiv : op = .value .div
  · subst hdiv
    have hstroke := h.slash hR
    rw [mark?_eq, mark?_eq] at hstroke
    refine rel_map (rel_mono hstroke fun _ _ hx hy hxy => ⟨hxy, length_lt_of_symbol ?_ hx,
      length_lt_of_symbol ?_ hy⟩) fun _ _ hxy => ⟨rfl, hxy⟩
    · exact List.cons_ne_nil _ _
    · exact List.cons_ne_nil _ _
  · have hsymbol : op.symbol ≠ [] ∧ ∀ c ∈ op.symbol, Plain c := by
      rcases op with op | op <;> cases op <;> first | exact absurd rfl hdiv | decide
    exact rel_map (h.symbol hsymbol.1 hsymbol.2 hR) fun _ _ hpast =>
      ⟨rfl, .inl hpast.related, hpast.left, hpast.right⟩

theorem assignOp? (hR : R cs ds) :
    Option.Rel (Alike R 1 id cs ds) (Token.assignOp? cs) (Token.assignOp? ds) := by
  have hplain : Plain '+' ∧ Plain '-' ∧ Plain '=' := by decide
  obtain ⟨hplus, hminus, hequals⟩ := hplain
  have hsymbol : ∀ {m : Char} (op : AssignOp), Plain m → Option.Rel (Alike R 1 id cs ds)
      ((Text.after? [m, '='] (Token.skip cs)).map fun rest => (op, rest))
      ((Text.after? [m, '='] (Token.skip ds)).map fun rest => (op, rest)) := fun op hm =>
    rel_map (h.symbol (List.cons_ne_nil _ _)
      (List.forall_mem_cons.mpr ⟨hm, List.forall_mem_singleton.mpr hequals⟩) hR)
      fun _ _ hpast => ⟨rfl, hpast⟩
  rw [assignOp?_eq, assignOp?_eq]
  refine rel_or (hsymbol .add hplus) (rel_or (hsymbol .sub hminus) ?_)
  refine rel_bind (h.mark? hequals hR) fun x y hpast => ?_
  rcases rel_cases (h.mark? hequals hpast.related) with ⟨h₁, h₂⟩ | ⟨_, _, h₁, h₂, -⟩
  · rw [h₁, h₂]
    exact .some ⟨rfl, hpast⟩
  · rw [h₁, h₂]
    exact .none

end Likens

end Trellis.Token
