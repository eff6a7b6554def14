import Mathlib.Algebra.Order.Field.Power
import Mathlib.Data.Rat.Cast.Order
import Mathlib.Tactic.FieldSimp
import Mathlib.Tactic.Linarith
import Mathlib.Tactic.Positivity
import Mathlib.Tactic.Ring
import Trellis.Number.Shortest

/-!
# Decimals that round to a double

A decimal denotes a rational number. The interval of a double holds the rationals that round to it,
and the decimal that is searched for lies in it (`contains_shortest`): on the grid of seventeen
digits the two neighbours of the value are closer together than the ends of the interval, so the
search does not come to its last resort. The intervals of two doubles have no rational in common,
an end that they share included (`lt_of_contains`). Hence the decimal tells the double apart from
all others (`eq_of_contains`).
-/

namespace Trellis.Number

/-! ## 1. Powers -/

theorem leadingBit_eq : leadingBit = 4503599627370496 := rfl

theorem cast_two_pow (k : Nat) : ((Nat.pow 2 k : Nat) : ℚ) = 2 ^ k := Nat.cast_pow 2 k

theorem cast_ten_pow (k : Nat) : ((Nat.pow 10 k : Nat) : ℚ) = 10 ^ k := Nat.cast_pow 10 k

/-- A power as a quotient of two powers, one of which is one. -/
theorem zpow_mul_pow_toNat {b : ℚ} (hb : b ≠ 0) (g : Int) :
    b ^ g * b ^ (-g).toNat = b ^ g.toNat := by
  rw [← zpow_natCast, ← zpow_natCast, ← zpow_add₀ hb]
  congr 1
  omega

/-! ## 2. The rationals of an interval -/

/-- The number that a decimal denotes. -/
def Decimal.toRat (d : Decimal) : ℚ := d.coefficient * 10 ^ d.exponent

/-- A rational of the interval; an end is one of them when the interval owns its ends. -/
def Interval.Contains (i : Interval) (q : ℚ) : Prop :=
  if i.closed then i.low ≤ q * i.denominator ∧ q * i.denominator ≤ i.high
  else i.low < q * i.denominator ∧ q * i.denominator < i.high

namespace Interval

variable {i : Interval}

/-- **A whole number is held on a grid when the interval contains it, counted in steps of the
    grid.** -/
theorem holds_onGrid (i : Interval) (grid : Int) (n : Nat) :
    (i.onGrid grid).holds n = true ↔ i.Contains (n * 10 ^ grid) := by
  have hup : (0 : ℚ) < 10 ^ (-grid).toNat := by positivity
  have hscaled : ((n * (i.denominator * Nat.pow 10 grid.toNat) : Nat) : ℚ) =
      n * 10 ^ grid * i.denominator * 10 ^ (-grid).toNat := by
    rw [Nat.cast_mul, Nat.cast_mul, cast_ten_pow,
      ← zpow_mul_pow_toNat (by norm_num : (10 : ℚ) ≠ 0) grid]
    ring
  have hend : ∀ k : Nat, ((k * Nat.pow 10 (-grid).toNat : Nat) : ℚ) = k * 10 ^ (-grid).toNat := by
    intro k
    rw [Nat.cast_mul, cast_ten_pow]
  unfold holds Contains onGrid
  dsimp only
  cases i.closed
  · rw [if_neg Bool.false_ne_true, if_neg Bool.false_ne_true, Bool.and_eq_true, decide_eq_true_eq,
      decide_eq_true_eq, ← Nat.cast_lt (α := ℚ), ← Nat.cast_lt (α := ℚ), hscaled, hend, hend,
      mul_lt_mul_iff_left₀ hup, mul_lt_mul_iff_left₀ hup]
  · rw [if_pos rfl, if_pos rfl, Bool.and_eq_true, decide_eq_true_eq, decide_eq_true_eq,
      ← Nat.cast_le (α := ℚ), ← Nat.cast_le (α := ℚ), hscaled, hend, hend,
      mul_le_mul_iff_left₀ hup, mul_le_mul_iff_left₀ hup]

/-! ## 3. The search on one grid -/

theorem holds_of_lt {n : Nat} (hlow : i.low < n * i.denominator) (hhigh : n * i.denominator < i.high) :
    i.holds n = true := by
  unfold holds
  cases i.closed
  · exact Bool.and_eq_true_iff.mpr ⟨decide_eq_true hlow, decide_eq_true hhigh⟩
  · exact Bool.and_eq_true_iff.mpr ⟨decide_eq_true hlow.le, decide_eq_true hhigh.le⟩

theorem holds_nearest? {n : Nat} (h : i.nearest? = some n) : i.holds n = true := by
  unfold nearest? at h
  dsimp only at h
  split at h
  · split at h
    · cases h
      assumption
    · cases h
      assumption
  · cases h
    assumption
  · cases h
    assumption
  · cases h

/-- **One of two neighbours is found when the interval is wider than a step.** -/
theorem nearest?_isSome (hd : 0 < i.denominator) (hlow : i.low < i.value) (hhigh : i.value < i.high)
    (hwide : i.low + i.denominator < i.high) : i.nearest?.isSome = true := by
  have hbelow : i.value / i.denominator * i.denominator ≤ i.value := Nat.div_mul_le_self ..
  have habove : i.value < (i.value / i.denominator + 1) * i.denominator := by
    rw [Nat.mul_comm]
    exact Nat.lt_mul_div_succ _ hd
  have hnext : (i.value / i.denominator + 1) * i.denominator =
      i.value / i.denominator * i.denominator + i.denominator := Nat.succ_mul ..
  have hheld : i.holds (i.value / i.denominator) = true ∨
      i.holds (i.value / i.denominator + 1) = true := by
    by_cases h : i.low < i.value / i.denominator * i.denominator
    · exact .inl (holds_of_lt h (by omega))
    · exact .inr (holds_of_lt (by omega) (by omega))
  unfold nearest?
  dsimp only
  split
  · split <;> rfl
  · rfl
  · rfl
  · rename_i hbelow' habove'
    rw [hbelow', habove'] at hheld
    exact hheld.elim Bool.noConfusion Bool.noConfusion

/-! ## 4. The search over the grids -/

/-- **What a successful search finds lies in the interval.** -/
theorem contains_shortestFrom {places : Int} (fuel : Nat) : ∀ digits : Nat,
    (∃ k < fuel, (i.onGrid (places - (digits + k : Nat))).nearest?.isSome = true) →
    i.Contains (i.shortestFrom places fuel digits).toRat := by
  induction fuel with
  | zero =>
    rintro digits ⟨k, hk, -⟩
    exact absurd hk (Nat.not_lt_zero k)
  | succ fuel ih =>
    rintro digits ⟨k, hk, hfound⟩
    rw [shortestFrom]
    split
    · rename_i n hn
      exact (holds_onGrid i _ n).mp (holds_nearest? hn)
    · rename_i hnone
      obtain _ | k := k
      · rw [Nat.add_zero, hnone] at hfound
        cases hfound
      · refine ih (digits + 1) ⟨k, Nat.lt_of_succ_lt_succ hk, ?_⟩
        rwa [Nat.add_right_comm]

theorem lt_ten_pow_digitCount (n : Nat) : n < 10 ^ digitCount n :=
  (Nat.length_toDigits_le_iff (by decide) Nat.length_toDigits_pos).mp (Nat.le_refl _)

theorem ten_pow_digitCount_le {n : Nat} (hn : 0 < n) : 10 ^ (digitCount n - 1) ≤ n := by
  by_contra h
  have hpos : 0 < digitCount n := Nat.length_toDigits_pos
  obtain h₁ | h₁ := Nat.eq_zero_or_pos (digitCount n - 1)
  · rw [h₁] at h
    omega
  · have : digitCount n ≤ digitCount n - 1 :=
      (Nat.length_toDigits_le_iff (by decide) h₁).mpr (Nat.lt_of_not_le h)
    omega

/-- **The value has as many places as are counted.** -/
theorem ten_zpow_places_le (hd : 0 < i.denominator) (hv : 0 < i.value) :
    (10 : ℚ) ^ (i.places - 1) * i.denominator ≤ i.value := by
  unfold places
  split
  · rename_i hle
    have hq : 0 < i.value / i.denominator := Nat.div_pos hle hd
    have hpos : 0 < digitCount (i.value / i.denominator) := Nat.length_toDigits_pos
    have h : 10 ^ (digitCount (i.value / i.denominator) - 1) * i.denominator ≤ i.value :=
      (Nat.mul_le_mul_right _ (ten_pow_digitCount_le hq)).trans (Nat.div_mul_le_self ..)
    have hcast : ((digitCount (i.value / i.denominator) : Int) - 1) =
        (digitCount (i.value / i.denominator) - 1 : Nat) := by omega
    rw [hcast, zpow_natCast]
    exact_mod_cast h
  · rename_i hlt
    -- below one: the reciprocal, rounded up, is below the power of ten by one digit more
    have hceil : i.denominator ≤ (i.denominator + i.value - 1) / i.value * i.value := by
      have := Nat.div_add_mod (i.denominator + i.value - 1) i.value
      have := Nat.mod_lt (i.denominator + i.value - 1) hv
      rw [Nat.mul_comm]
      omega
    dsimp only
    split
    · rename_i hone
      have : (i.denominator + i.value - 1) / i.value * i.value ≤ 1 * i.value :=
        Nat.mul_le_mul_right _ hone
      omega
    · rename_i hratio
      generalize (i.denominator + i.value - 1) / i.value = ratio at hceil hratio ⊢
      have hlt' := lt_ten_pow_digitCount (ratio - 1)
      have h : i.denominator ≤ 10 ^ digitCount (ratio - 1) * i.value :=
        hceil.trans (Nat.mul_le_mul_right _ (by omega))
      rw [show (1 - (digitCount (ratio - 1) : Int) - 1) = -(digitCount (ratio - 1) : Int) by omega,
        zpow_neg, zpow_natCast, inv_mul_le_iff₀ (by positivity)]
      exact_mod_cast h

/-- The distance of the value to the lower end, in quarters of the last place. -/
def quartersBelow (m : Nat) (e : Int) : Nat := if m = leadingBit ∧ -1074 < e then 1 else 2

theorem quartersBelow_cases (m : Nat) (e : Int) :
    m = leadingBit ∧ quartersBelow m e = 1 ∨ quartersBelow m e = 2 := by
  unfold quartersBelow
  split
  · rename_i h
    exact .inl ⟨h.1, rfl⟩
  · exact .inr rfl

/-- A step that is a part in `10 ^ 16` of the value fits between the ends. -/
theorem low_add_step_lt {m : Nat} (hm : 0 < m) (hm' : m < 2 * leadingBit) (e : Int) {unit step : Nat}
    (hunit : 0 < unit) (hstep : step * 10 ^ 16 ≤ 4 * m * unit) :
    (4 * m - quartersBelow m e) * unit + step < (4 * m + 2) * unit := by
  have hends : (4 * m + 2) * unit =
      (4 * m - quartersBelow m e) * unit + (quartersBelow m e + 2) * unit := by
    rw [← Nat.add_mul]
    congr 1
    rcases quartersBelow_cases m e with ⟨-, h⟩ | h <;> omega
  rw [hends]
  refine Nat.add_lt_add_left ?_ _
  rcases quartersBelow_cases m e with ⟨rfl, h⟩ | h
  · rw [h]
    rw [leadingBit_eq] at hstep
    omega
  · rw [h]
    rw [leadingBit_eq] at hm'
    have : m * unit ≤ 9007199254740991 * unit := Nat.mul_le_mul_right _ (by omega)
    rw [Nat.mul_assoc] at hstep
    omega

/-- **Seventeen digits suffice**: a step is at most a part in `10 ^ 16` of the value, and the ends
    are further apart than that. -/
theorem nearest?_seventeen {m : Nat} (hm : 0 < m) (hm' : m < 2 * leadingBit) (e : Int) :
    ((ofBinary m e).onGrid ((ofBinary m e).places - 17)).nearest?.isSome = true := by
  have hup : 0 < Nat.pow 2 (e - 2).toNat := Nat.pow_pos (by decide)
  have hden : 0 < (ofBinary m e).denominator := Nat.pow_pos (by decide)
  have hvalue : 0 < (ofBinary m e).value := Nat.mul_pos (by omega) hup
  have hplaces := ten_zpow_places_le hden hvalue
  generalize (ofBinary m e).places = places at hplaces ⊢
  have hgrid : (0 : ℚ) < 10 ^ (-(places - 17)).toNat := by positivity
  have hstep : ((ofBinary m e).denominator : ℚ) * 10 ^ (places - 17).toNat * 10 ^ 16 ≤
      (ofBinary m e).value * 10 ^ (-(places - 17)).toNat := by
    rw [← zpow_mul_pow_toNat (by norm_num : (10 : ℚ) ≠ 0) (places - 17)]
    calc ((ofBinary m e).denominator : ℚ) * (10 ^ (places - 17) * 10 ^ (-(places - 17)).toNat) *
          10 ^ 16
        = 10 ^ (places - 17) * 10 ^ (16 : Int) * (ofBinary m e).denominator *
          10 ^ (-(places - 17)).toNat := by
          norm_cast
          ring
      _ = 10 ^ (places - 1) * (ofBinary m e).denominator * 10 ^ (-(places - 17)).toNat := by
          rw [← zpow_add₀ (by norm_num : (10 : ℚ) ≠ 0)]
          congr 3
          omega
      _ ≤ (ofBinary m e).value * 10 ^ (-(places - 17)).toNat :=
          mul_le_mul_of_nonneg_right hplaces hgrid.le
  have hunit : 0 < Nat.pow 2 (e - 2).toNat * Nat.pow 10 (-(places - 17)).toNat :=
    Nat.mul_pos hup (Nat.pow_pos (by decide))
  have hstep' : (ofBinary m e).denominator * Nat.pow 10 (places - 17).toNat * 10 ^ 16 ≤
      (ofBinary m e).value * Nat.pow 10 (-(places - 17)).toNat := by
    rw [← cast_ten_pow, ← cast_ten_pow] at hstep
    exact_mod_cast hstep
  have hlow : 4 * m - quartersBelow m e < 4 * m := by
    rcases quartersBelow_cases m e with ⟨-, h⟩ | h <;> omega
  refine nearest?_isSome (Nat.mul_pos hden (Nat.pow_pos (by decide))) ?_ ?_ ?_
  · show (4 * m - quartersBelow m e) * _ * _ < 4 * m * _ * _
    rw [Nat.mul_assoc, Nat.mul_assoc (4 * m)]
    exact Nat.mul_lt_mul_of_pos_right hlow hunit
  · show 4 * m * _ * _ < (4 * m + 2) * _ * _
    rw [Nat.mul_assoc, Nat.mul_assoc (4 * m + 2)]
    exact Nat.mul_lt_mul_of_pos_right (by omega) hunit
  · show (4 * m - quartersBelow m e) * _ * _ + _ < (4 * m + 2) * _ * _
    rw [Nat.mul_assoc, Nat.mul_assoc (4 * m + 2)]
    refine low_add_step_lt hm hm' e hunit (hstep'.trans_eq ?_)
    exact Nat.mul_assoc ..

end Interval

/-! ## 5. The shortest decimal -/

/-- **Taking zeros off the end keeps the number.** -/
theorem toRat_strip (fuel : Nat) : ∀ d : Decimal, (d.strip fuel).toRat = d.toRat := by
  induction fuel with
  | zero => exact fun _ => rfl
  | succ fuel ih =>
    intro d
    rw [Decimal.strip]
    split
    · rename_i h
      have htens : (d.coefficient : ℚ) = (d.coefficient / 10 : Nat) * 10 := by
        exact_mod_cast (Nat.div_mul_cancel (Nat.dvd_of_mod_eq_zero h.2)).symm
      rw [ih, Decimal.toRat, Decimal.toRat, htens, zpow_add_one₀ (by norm_num)]
      ring
    · rfl

/-- **The decimal that is searched for rounds to the double.** -/
theorem contains_shortest {m : Nat} (hm : 0 < m) (hm' : m < 2 * leadingBit) (e : Int) :
    (Interval.ofBinary m e).Contains (shortest m e).toRat := by
  rw [shortest, if_neg (Nat.ne_of_gt hm), toRat_strip]
  exact Interval.contains_shortestFrom 17 1
    ⟨16, by decide, Interval.nearest?_seventeen hm hm' e⟩

/-! ## 6. Different doubles -/

/-- The mantissas and exponents of the doubles: a mantissa below the leading bit occurs at the least
    exponent only. -/
structure Canonical (m : Nat) (e : Int) : Prop where
  pos : 0 < m
  lt : m < 2 * leadingBit
  least : -1074 ≤ e
  leading : leadingBit ≤ m ∨ e = -1074

namespace Interval

variable {m n : Nat} {e f : Int} {q r : ℚ}

/-- The lower end of a double. -/
def lower (m : Nat) (e : Int) : ℚ := (4 * m - quartersBelow m e) * 2 ^ (e - 2)

/-- The upper end of a double. -/
def upper (m : Nat) (e : Int) : ℚ := (4 * m + 2) * 2 ^ (e - 2)

/-- **The rationals that round to a double lie between its ends**, which belong to them when the
    mantissa is even. -/
theorem contains_ofBinary_iff (hm : 0 < m) : (ofBinary m e).Contains q ↔
    if m % 2 = 0 then lower m e ≤ q ∧ q ≤ upper m e else lower m e < q ∧ q < upper m e := by
  have hden : (0 : ℚ) < 2 ^ (2 - e).toNat := by positivity
  have hlow : (((4 * m - quartersBelow m e) * Nat.pow 2 (e - 2).toNat : Nat) : ℚ) =
      lower m e * 2 ^ (2 - e).toNat := by
    have : quartersBelow m e ≤ 4 * m := by
      rcases quartersBelow_cases m e with ⟨-, h⟩ | h <;> omega
    rw [lower, Nat.cast_mul, Nat.cast_sub this, Nat.cast_mul, cast_two_pow,
      ← zpow_mul_pow_toNat (by norm_num : (2 : ℚ) ≠ 0) (e - 2), neg_sub]
    push_cast
    ring
  have hhigh : (((4 * m + 2) * Nat.pow 2 (e - 2).toNat : Nat) : ℚ) =
      upper m e * 2 ^ (2 - e).toNat := by
    rw [upper, Nat.cast_mul, Nat.cast_add, Nat.cast_mul, cast_two_pow,
      ← zpow_mul_pow_toNat (by norm_num : (2 : ℚ) ≠ 0) (e - 2), neg_sub]
    push_cast
    ring
  show (if (decide (m % 2 = 0)) = true then
      (((4 * m - quartersBelow m e) * Nat.pow 2 (e - 2).toNat : Nat) : ℚ) ≤
          q * (Nat.pow 2 (2 - e).toNat : Nat) ∧
        q * (Nat.pow 2 (2 - e).toNat : Nat) ≤ (((4 * m + 2) * Nat.pow 2 (e - 2).toNat : Nat) : ℚ)
    else (((4 * m - quartersBelow m e) * Nat.pow 2 (e - 2).toNat : Nat) : ℚ) <
          q * (Nat.pow 2 (2 - e).toNat : Nat) ∧
        q * (Nat.pow 2 (2 - e).toNat : Nat) < (((4 * m + 2) * Nat.pow 2 (e - 2).toNat : Nat) : ℚ)) ↔ _
  rw [hlow, hhigh, cast_two_pow, mul_le_mul_iff_left₀ hden, mul_le_mul_iff_left₀ hden,
    mul_lt_mul_iff_left₀ hden, mul_lt_mul_iff_left₀ hden]
  simp only [decide_eq_true_eq]

theorem upper_le_lower_of_mantissa (hlt : m < n) :
    upper m e ≤ lower n e ∧ (m % 2 = 0 → n % 2 = 0 → upper m e < lower n e) := by
  have ht : (0 : ℚ) < 2 ^ (e - 2) := by positivity
  unfold upper lower
  rw [mul_le_mul_iff_left₀ ht, mul_lt_mul_iff_left₀ ht]
  have hn : (m : ℚ) + 1 ≤ n := by exact_mod_cast hlt
  rcases quartersBelow_cases n e with ⟨-, h⟩ | h
  · rw [h, Nat.cast_one]
    exact ⟨by linarith, fun _ _ => by linarith⟩
  · rw [h, Nat.cast_ofNat]
    refine ⟨by linarith, fun heven heven' => ?_⟩
    have hn' : (m : ℚ) + 2 ≤ n := by
      exact_mod_cast (by omega : m + 2 ≤ n)
    linarith

theorem upper_le_lower_of_exponent (h : Canonical m e) (h' : Canonical n f) (hlt : e < f) :
    upper m e ≤ lower n f ∧ (m % 2 = 0 → upper m e < lower n f) := by
  have ht : (0 : ℚ) < 2 ^ (e - 2) := by positivity
  have htwice : 2 * (2 : ℚ) ^ (e - 2) ≤ 2 ^ (f - 2) := by
    rw [← zpow_one_add₀ (by norm_num)]
    exact zpow_le_zpow_right₀ (by norm_num) (by omega)
  have hleast := h.least
  have hn : leadingBit ≤ n := h'.leading.resolve_right (by omega)
  -- the binade above begins a quarter below its leading bit
  have hquarters : (4 * leadingBit - 1 : ℚ) ≤ 4 * n - quartersBelow n f := by
    have : 4 * leadingBit + quartersBelow n f ≤ 4 * n + 1 := by
      unfold quartersBelow
      split <;> omega
    have : (4 * leadingBit + quartersBelow n f : ℚ) ≤ 4 * n + 1 := by exact_mod_cast this
    linarith
  have hlower : (8 * leadingBit - 2) * 2 ^ (e - 2) ≤ lower n f := by
    rw [leadingBit_eq, Nat.cast_ofNat] at hquarters ⊢
    calc (8 * 4503599627370496 - 2) * (2 : ℚ) ^ (e - 2)
        = (4 * 4503599627370496 - 1) * (2 * 2 ^ (e - 2)) := by ring
      _ ≤ (4 * 4503599627370496 - 1) * 2 ^ (f - 2) :=
          mul_le_mul_of_nonneg_left htwice (by norm_num)
      _ ≤ lower n f := mul_le_mul_of_nonneg_right hquarters (by positivity)
  have hm : (m : ℚ) + 1 ≤ 2 * leadingBit := by exact_mod_cast h.lt
  refine ⟨le_trans ?_ hlower, fun heven => lt_of_lt_of_le ?_ hlower⟩
  · exact mul_le_mul_of_nonneg_right (by linarith) ht.le
  · have hm' : (m : ℚ) + 2 ≤ 2 * leadingBit := by
      have := h.lt
      exact_mod_cast (by omega : m + 2 ≤ 2 * leadingBit)
    exact mul_lt_mul_of_pos_right (by linarith) ht

/-- **The ends of two doubles do not cross**, and they do not meet when both mantissas are even. -/
theorem upper_le_lower (h : Canonical m e) (h' : Canonical n f) (hlt : e < f ∨ e = f ∧ m < n) :
    upper m e ≤ lower n f ∧ (m % 2 = 0 → n % 2 = 0 → upper m e < lower n f) := by
  rcases hlt with hlt | ⟨rfl, hlt⟩
  · obtain ⟨hle, hends⟩ := upper_le_lower_of_exponent h h' hlt
    exact ⟨hle, fun heven _ => hends heven⟩
  · exact upper_le_lower_of_mantissa hlt

/-- **The rationals that round to the smaller of two doubles are smaller.** -/
theorem lt_of_contains (h : Canonical m e) (h' : Canonical n f) (hlt : e < f ∨ e = f ∧ m < n)
    (hq : (ofBinary m e).Contains q) (hr : (ofBinary n f).Contains r) : q < r := by
  obtain ⟨hle, hends⟩ := upper_le_lower h h' hlt
  rw [contains_ofBinary_iff h.pos] at hq
  rw [contains_ofBinary_iff h'.pos] at hr
  split at hq <;> split at hr
  · exact (hq.2.trans_lt (hends ‹_› ‹_›)).trans_le hr.1
  · exact (hq.2.trans hle).trans_lt hr.1
  · exact (hq.2.trans_le hle).trans_le hr.1
  · exact (hq.2.trans_le hle).trans hr.1

/-- **A rational rounds to one double.** -/
theorem eq_of_contains (h : Canonical m e) (h' : Canonical n f) (hq : (ofBinary m e).Contains q)
    (hq' : (ofBinary n f).Contains q) : m = n ∧ e = f := by
  by_contra hne
  have hlt : (e < f ∨ e = f ∧ m < n) ∨ (f < e ∨ f = e ∧ n < m) := by omega
  rcases hlt with hlt | hlt
  · exact lt_irrefl q (lt_of_contains h h' hlt hq hq')
  · exact lt_irrefl q (lt_of_contains h' h hlt hq' hq)

end Interval

end Trellis.Number
