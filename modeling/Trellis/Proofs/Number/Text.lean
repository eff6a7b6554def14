import Trellis.Number.Layout
import Trellis.Proofs.Number.Rounding
import Trellis.Proofs.Number.Same

/-!
# Numbers by their text

The text of a number in a page tells it apart from every number that does not count as the same
(`text_eq_iff`). Read as digits with a point, a text denotes the decimal that was written
(`denoted_positional`), the decimal rounds to one double only, and the special values are words.
-/

namespace Trellis.Number

/-! ## 1. Reading digits with a point -/

/-- The number that digits denote, with a point among them or without. -/
def denoted (cs : List Char) : ℚ :=
  Nat.ofDigitChars 10 (cs.filter (· ≠ '.')) 0 / 10 ^ (cs.dropWhile (· ≠ '.')).tail.length

section

variable {us fs : List Char}

theorem filter_pointless (h : ∀ c ∈ us, c ≠ '.') : us.filter (· ≠ '.') = us :=
  List.filter_eq_self.mpr fun c hc => decide_eq_true (h c hc)

theorem dropWhile_pointless (h : ∀ c ∈ us, c ≠ '.') (rest : List Char) :
    (us ++ rest).dropWhile (· ≠ '.') = rest.dropWhile (· ≠ '.') :=
  List.dropWhile_append_of_pos fun c hc => decide_eq_true (h c hc)

theorem denoted_whole (h : ∀ c ∈ us, c ≠ '.') : denoted us = Nat.ofDigitChars 10 us 0 := by
  have hdrop := dropWhile_pointless h []
  rw [List.append_nil, List.dropWhile_nil] at hdrop
  rw [denoted, filter_pointless h, hdrop, List.tail_nil, List.length_nil, pow_zero, div_one]

theorem denoted_pointed (hu : ∀ c ∈ us, c ≠ '.') (hf : ∀ c ∈ fs, c ≠ '.') :
    denoted (us ++ '.' :: fs) = Nat.ofDigitChars 10 (us ++ fs) 0 / 10 ^ fs.length := by
  rw [denoted, List.filter_append, List.filter_cons_of_neg (by decide), filter_pointless hu,
    filter_pointless hf, dropWhile_pointless hu, List.dropWhile_cons_of_neg (by decide),
    List.tail_cons]

end

/-! ## 2. Decimals -/

theorem isDigit_zero {n : Nat} {c : Char} (h : c ∈ List.replicate n '0') : c.isDigit = true := by
  rw [List.eq_of_mem_replicate h]
  rfl

theorem isDigit_toDigits {n : Nat} {c : Char} (h : c ∈ Nat.toDigits 10 n) : c.isDigit = true :=
  Nat.isDigit_of_mem_toDigits (by decide) (by decide) h

theorem ne_point_of_isDigit {c : Char} (h : c.isDigit = true) : c ≠ '.' := by
  rintro rfl
  exact absurd h (by decide)

/-- The characters of a decimal: no point, a point among the digits, or a point behind a zero. -/
theorem toList_positional (d : Decimal) : (d.positional "").toList =
    let digits := Nat.toDigits 10 d.coefficient
    let places := (-d.exponent).toNat
    if 0 ≤ d.exponent then digits ++ List.replicate d.exponent.toNat '0'
    else if 0 < digits.length - places then
      digits.take (digits.length - places) ++ '.' :: digits.drop (digits.length - places)
    else '0' :: '.' :: (List.replicate (places - digits.length) '0' ++ digits) := by
  rw [Decimal.positional]
  dsimp only
  split
  · simp [zeros]
  · split <;> simp [zeros]

/-- **The text of a decimal denotes the decimal.** -/
theorem denoted_positional (d : Decimal) : denoted (d.positional "").toList = d.toRat := by
  rw [toList_positional]
  dsimp only
  split
  · rename_i he
    rw [denoted_whole, Nat.ofDigitChars_append, Nat.ofDigitChars_ten_toDigits,
      Nat.ofDigitChars_replicate_zero, Decimal.toRat]
    · lift d.exponent to Nat using he with k
      push_cast
      rw [zpow_natCast, mul_comm]
      rfl
    · intro c hc
      exact ne_point_of_isDigit ((List.mem_append.mp hc).elim isDigit_toDigits isDigit_zero)
  · rename_i he
    -- the digits behind the point are as many as the exponent says
    have hvalue : ∀ k : Nat, k = (-d.exponent).toNat →
        (d.coefficient : ℚ) / 10 ^ k = d.toRat := by
      intro k hk
      rw [Decimal.toRat, show d.exponent = -(k : Int) by omega, zpow_neg, zpow_natCast, div_eq_mul_inv]
    split
    · rw [denoted_pointed, List.take_append_drop, Nat.ofDigitChars_ten_toDigits, List.length_drop]
      · exact hvalue _ (by omega)
      · exact fun c hc => ne_point_of_isDigit (isDigit_toDigits (List.mem_of_mem_take hc))
      · exact fun c hc => ne_point_of_isDigit (isDigit_toDigits (List.mem_of_mem_drop hc))
    · rw [← List.singleton_append, denoted_pointed, List.singleton_append, Nat.ofDigitChars_cons,
        Nat.ofDigitChars_append, Nat.ofDigitChars_replicate_zero, List.length_append,
        List.length_replicate]
      · show ((Nat.ofDigitChars 10 (Nat.toDigits 10 d.coefficient) (10 ^ _ * 0) : Nat) : ℚ) / _ = _
        rw [Nat.mul_zero, Nat.ofDigitChars_ten_toDigits]
        exact hvalue _ (by omega)
      · exact fun c hc => List.mem_singleton.mp hc ▸ by decide
      · intro c hc
        exact ne_point_of_isDigit ((List.mem_append.mp hc).elim isDigit_zero isDigit_toDigits)

/-- The text of a decimal has digits and a point in it only. -/
theorem mem_positional {d : Decimal} {c : Char} (h : c ∈ (d.positional "").toList) :
    c.isDigit = true ∨ c = '.' := by
  rw [toList_positional] at h
  dsimp only at h
  split at h
  · exact .inl ((List.mem_append.mp h).elim isDigit_toDigits isDigit_zero)
  · split at h
    · rcases List.mem_append.mp h with h | h
      · exact .inl (isDigit_toDigits (List.mem_of_mem_take h))
      · rcases List.mem_cons.mp h with h | h
        · exact .inr h
        · exact .inl (isDigit_toDigits (List.mem_of_mem_drop h))
    · rcases List.mem_cons.mp h with rfl | h
      · exact .inl rfl
      · rcases List.mem_cons.mp h with h | h
        · exact .inr h
        · exact .inl ((List.mem_append.mp h).elim isDigit_zero isDigit_toDigits)

/-! ## 3. Exact values -/

/-- The values that doubles have: one zero, and mantissas and exponents of doubles. -/
def Exact.Proper : Exact → Prop
  | .nan | .infinite _ => True
  | .finite negative m e => negative = false ∧ m = 0 ∧ e = -1074 ∨ Canonical m e

theorem proper_ofFloat (x : Float) : (Exact.ofFloat x).unsignedZero.Proper := by
  unfold Exact.ofFloat
  dsimp only
  have hfraction : x.toBits.toNat % leadingBit < leadingBit := Nat.mod_lt _ (by decide)
  have hbiased : x.toBits.toNat / leadingBit % 2048 < 2048 := Nat.mod_lt _ (by decide)
  generalize x.toBits.toNat % leadingBit = fraction at hfraction ⊢
  generalize x.toBits.toNat / leadingBit % 2048 = biased at hbiased ⊢
  rw [leadingBit_eq] at hfraction ⊢
  split
  · split <;> trivial
  · split
    · obtain _ | m := fraction
      · exact .inl ⟨rfl, rfl, rfl⟩
      · refine .inr ⟨Nat.succ_pos m, ?_, le_refl _, .inr rfl⟩
        rw [leadingBit_eq]
        omega
    · obtain ⟨k, hk⟩ : ∃ k, 4503599627370496 + fraction = k + 1 :=
        ⟨4503599627370495 + fraction, by omega⟩
      rw [hk]
      refine .inr ⟨Nat.succ_pos k, ?_, ?_, .inl ?_⟩
      · rw [leadingBit_eq]
        omega
      · have := Int.ofNat_eq_natCast biased
        omega
      · rw [leadingBit_eq]
        omega

/-- Whether a text has a sign in front. -/
def Exact.isNegative : Exact → Bool
  | .nan => false
  | .infinite negative => negative
  | .finite negative _ _ => negative

/-- The text of a value behind its sign. -/
def Exact.unsigned : Exact → String
  | .nan => "NaN"
  | .infinite _ => "Infinity"
  | .finite _ m e => (shortest m e).positional ""

theorem written_eq {x : Exact} (hx : x.Proper) :
    x.written = (if x.isNegative then "-" else "") ++ x.unsigned := by
  cases x with
  | nan => rfl
  | infinite negative => rfl
  | finite negative m e =>
    obtain ⟨rfl, rfl, rfl⟩ | hx := hx
    · rfl
    · exact if_neg (Nat.ne_of_gt hx.pos)

theorem not_mem_unsigned (x : Exact) : '-' ∉ x.unsigned.toList := by
  cases x with
  | nan => show '-' ∉ "NaN".toList; decide
  | infinite negative => show '-' ∉ "Infinity".toList; decide
  | finite negative m e => exact fun h => (mem_positional h).elim (by decide) (by decide)

/-- Texts without a sign of their own are told apart behind their signs. -/
theorem sign_append_inj {s t : Bool} {a b : String} (ha : '-' ∉ a.toList) (hb : '-' ∉ b.toList)
    (h : (if s then "-" else "") ++ a = (if t then "-" else "") ++ b) : s = t ∧ a = b := by
  have hchars := congrArg String.toList h
  rw [String.toList_append, String.toList_append] at hchars
  cases s <;> cases t
  · exact ⟨rfl, String.toList_inj.mp hchars⟩
  · have hchars : a.toList = '-' :: b.toList := hchars
    exact absurd (hchars ▸ List.mem_cons_self) ha
  · have hchars : '-' :: a.toList = b.toList := hchars
    exact absurd (hchars ▸ List.mem_cons_self) hb
  · exact ⟨rfl, String.toList_inj.mp (List.cons.inj hchars).2⟩

theorem toRat_shortest_zero (e : Int) : (shortest 0 e).toRat = 0 := by
  rw [shortest, if_pos rfl, Decimal.toRat, Nat.cast_zero, zero_mul]

theorem toRat_shortest_pos {m : Nat} {e : Int} (h : Canonical m e) : 0 < (shortest m e).toRat := by
  have hlower : 0 < Interval.lower m e := by
    have hpos := h.pos
    refine mul_pos ?_ (by positivity)
    have : Interval.quartersBelow m e < 4 * m := by
      rcases Interval.quartersBelow_cases m e with ⟨-, h⟩ | h <;> omega
    rw [sub_pos]
    exact_mod_cast this
  have hq := (Interval.contains_ofBinary_iff h.pos).mp (contains_shortest h.pos h.lt e)
  split at hq
  · exact hlower.trans_le hq.1
  · exact hlower.trans hq.1

/-- **The shortest decimals of two doubles denote different numbers.** -/
theorem toRat_shortest_inj {m n : Nat} {e f : Int} (h : Canonical m e) (h' : Canonical n f)
    (hq : (shortest m e).toRat = (shortest n f).toRat) : m = n ∧ e = f :=
  Interval.eq_of_contains h h' (contains_shortest h.pos h.lt e)
    (hq ▸ contains_shortest h'.pos h'.lt f)

theorem word_ne_positional {word : String} {c : Char} (d : Decimal) (hc : c ∈ word.toList)
    (hdigit : c.isDigit = false) (hpoint : c ≠ '.') : word ≠ d.positional "" := by
  rintro rfl
  rcases mem_positional hc with h | h
  · rw [hdigit] at h
    cases h
  · exact hpoint h

/-- **The text of a value tells it apart from other values.** -/
theorem written_inj {x y : Exact} (hx : x.Proper) (hy : y.Proper) (h : x.written = y.written) :
    x = y := by
  rw [written_eq hx, written_eq hy] at h
  obtain ⟨hsign, h⟩ := sign_append_inj (not_mem_unsigned x) (not_mem_unsigned y) h
  have hnan : "NaN" ≠ "Infinity" := by decide
  have hN (d : Decimal) : "NaN" ≠ d.positional "" :=
    word_ne_positional d (by decide : 'N' ∈ _) rfl (by decide)
  have hI (d : Decimal) : "Infinity" ≠ d.positional "" :=
    word_ne_positional d (by decide : 'I' ∈ _) rfl (by decide)
  cases x with
  | nan =>
    cases y with
    | nan => rfl
    | infinite t => exact absurd h hnan
    | finite t n f => exact absurd h (hN _)
  | infinite s =>
    cases y with
    | nan => exact absurd h.symm hnan
    | infinite t => exact congrArg Exact.infinite hsign
    | finite t n f => exact absurd h (hI _)
  | finite s m e =>
    cases y with
    | nan => exact absurd h.symm (hN _)
    | infinite t => exact absurd h.symm (hI _)
    | finite t n f =>
      have hq : (shortest m e).toRat = (shortest n f).toRat := by
        rw [← denoted_positional, ← denoted_positional]
        exact congrArg (fun s : String => denoted s.toList) h
      obtain ⟨rfl, rfl, rfl⟩ | hx := hx <;> obtain ⟨rfl, rfl, rfl⟩ | hy := hy
      · rfl
      · exact absurd (toRat_shortest_zero _ ▸ hq) (ne_of_lt (toRat_shortest_pos hy))
      · exact absurd (toRat_shortest_zero _ ▸ hq) (ne_of_gt (toRat_shortest_pos hx))
      · obtain ⟨rfl, rfl⟩ := toRat_shortest_inj hx hy hq
        exact congrArg (Exact.finite · m e) hsign

/-! ## 4. Doubles -/

/-- **Two doubles have the same text exactly when they count as the same.** -/
theorem text_eq_iff (a b : Float) : text a = text b ↔ Value.sameNumber a b = true := by
  refine ⟨fun h => ?_, text_eq_of_sameNumber⟩
  rw [text_eq_written, text_eq_written] at h
  exact (sameNumber_iff a b).mpr (written_inj (proper_ofFloat a) (proper_ofFloat b) h)

end Trellis.Number
