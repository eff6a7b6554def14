import Mathlib
import Trellis.Proofs.Number.Text

/-!
# Whole numbers as doubles

An integer becomes the double nearest to it. A double holds the integers for which a mantissa of 53
bits and a power of two are enough (`Held`): these are the integers that doubles denote
(`held_of_whole?`), and each of them comes back from its double (`whole?_ofInt`). The arithmetic by
which an integer becomes a double then loses nothing: shifting a mantissa up to its 53 bits is exact
(`roundWithAccuracy_exact`), and a mantissa of 53 bits survives packing (`unpack_pack`).

What is known of packed doubles and of their equality comes with the library as a whole only, not with
a part of it, which is why all of it is imported here.
-/

namespace Trellis.Number

open Float.Model UnpackedFloat

/-! ## 1. Mantissas of 53 bits -/

theorem log2_mul_two_pow {m : Nat} (hm : m ≠ 0) (k : Nat) : (m * 2 ^ k).log2 = m.log2 + k := by
  have hpos : 0 < 2 ^ k := Nat.pow_pos (by decide)
  rw [Nat.log2_eq_iff (Nat.mul_ne_zero hm (Nat.ne_of_gt hpos)), Nat.add_right_comm, Nat.pow_add,
    Nat.pow_add]
  exact ⟨Nat.mul_le_mul_right _ (Nat.log2_self_le hm),
    Nat.mul_lt_mul_of_pos_right Nat.lt_log2_self hpos⟩

/-- A mantissa with the leading bit set and no bit above it. -/
structure Full (M : Nat) : Prop where
  leading : leadingBit ≤ M
  lt : M < 2 * leadingBit

namespace Full

variable {M : Nat}

theorem pos (h : Full M) : 0 < M := Nat.lt_of_lt_of_le (by decide) h.leading

theorem log2_eq (h : Full M) : M.log2 = 52 :=
  (Nat.log2_eq_iff (Nat.ne_of_gt h.pos)).mpr ⟨h.leading, h.lt⟩

end Full

/-! ## 2. Exact rounding -/

/-- Shifting zeros out of a mantissa leaves nothing behind. -/
theorem repeat_shiftRightOne (M k : Nat) :
    k.repeat ExtendedMantissa.shiftRightOne ⟨M * 2 ^ k, false, false⟩ = ⟨M, false, false⟩ := by
  induction k generalizing M with
  | zero => rw [Nat.pow_zero, Nat.mul_one]; rfl
  | succ k ih =>
    have htwice : M * 2 ^ (k + 1) = 2 * M * 2 ^ k := by
      rw [Nat.pow_succ, Nat.mul_comm (2 ^ k), ← Nat.mul_assoc, Nat.mul_comm M]
    rw [Nat.repeat, htwice, ih (2 * M), ExtendedMantissa.shiftRightOne]
    dsimp only
    rw [Nat.mul_div_cancel_left M (by decide), Nat.mul_mod_right]
    rfl

variable {M : Nat} {e : Int}

theorem shiftToTargetExponent_exact (h : Full M) (k : Nat) (he : -1074 ≤ e + k) :
    shiftToTargetExponent .binary64 (M * 2 ^ k) e .exact = (⟨M, false, false⟩, e + k) := by
  have htarget : Format.binary64.targetExponent (totalExponent (M * 2 ^ k) e) = e + k := by
    rw [totalExponent, log2_mul_two_pow (Nat.ne_of_gt h.pos), h.log2_eq]
    show max (_ - 53) (-1074 : Int) = _
    omega
  have hshift : (e + k - e).toNat = k := by omega
  rw [shiftToTargetExponent, htarget, shiftToExponent, hshift]
  exact congrArg (·, e + (k : Int)) (repeat_shiftRightOne M k)

/-- **Rounding loses nothing of a mantissa that 53 bits are enough for.** -/
theorem roundWithAccuracy_exact (h : Full M) (s : Sign) {m k : Nat} {f : Int} (hm : m = M * 2 ^ k)
    (hf : e + k = f) (hleast : -1074 ≤ f) :
    roundWithAccuracy .binary64 s m e .exact = .finite s M f h.pos := by
  subst hm hf
  have hagain : shiftToTargetExponent .binary64 M (e + k) .exact = (⟨M, false, false⟩, e + k) := by
    have hzero : e + k + (0 : Nat) = e + k := Int.add_zero _
    have := shiftToTargetExponent_exact h 0 (hzero.symm ▸ hleast)
    rwa [Nat.pow_zero, Nat.mul_one, hzero] at this
  rw [roundWithAccuracy, shiftToTargetExponent_exact h k hleast]
  show (fun p : ExtendedMantissa × Int => if h : p.1.mantissa = 0 then UnpackedFloat.zero s
    else .finite s p.1.mantissa p.2 (Nat.pos_of_ne_zero h))
      (shiftToTargetExponent .binary64 M (e + k) .exact) = _
  rw [hagain]
  exact dif_neg (Nat.ne_of_gt h.pos)

/-! ## 3. Packing -/

/-- The leading bit is not stored, and comes back in front of the others. -/
theorem toNat_append_ofNat (h : Full M) : (1#1 ++ BitVec.ofNat 52 M).toNat = M := by
  have hleading := h.leading
  have hfraction : M - leadingBit < leadingBit := by
    have := h.lt
    omega
  rw [BitVec.toNat_append, ← Nat.shiftLeft_add_eq_or_of_lt (BitVec.isLt _), BitVec.toNat_ofNat]
  show leadingBit + M % leadingBit = M
  rw [Nat.mod_eq_sub_mod hleading, Nat.mod_eq_of_lt hfraction]
  omega

theorem pack_full (h : Full M) (s : Sign) {x : Nat} (hx : (e + 1075).toNat = x) (hx' : x < 2047) :
    UnpackedFloat.pack .binary64 (.finite s M e h.pos) =
      packComponents .binary64 s (BitVec.ofNat 11 x) (BitVec.ofNat 52 M) := by
  have hbias : e + (1023 : Nat) + (52 : Nat) = e + 1075 := by omega
  show (if 2048 ≤ (e + (1023 : Nat) + (52 : Nat)).toNat + 1 then _ else if _ = 53 then
    packComponents .binary64 s (BitVec.ofNat 11 (e + (1023 : Nat) + (52 : Nat)).toNat) _
    else _) = _
  rw [hbias, hx]
  exact (if_neg (by omega)).trans (if_pos (congrArg (· + 1) h.log2_eq))

/-- **A mantissa of 53 bits survives packing.** -/
theorem unpack_pack (h : Full M) (s : Sign) (hleast : -1074 ≤ e) (hmost : e ≤ 971) :
    (Float.Model.pack (.finite s M e h.pos)).unpack = .finite s M e h.pos := by
  obtain ⟨x, hx, hx₁, hx₂⟩ : ∃ x : Nat, (e + 1075).toNat = x ∧ 0 < x ∧ x < 2047 :=
    ⟨_, rfl, by omega, by omega⟩
  have hexponent : (BitVec.ofNat 11 x).toNat = x := by
    rw [BitVec.toNat_ofNat, Nat.mod_eq_of_lt (by omega)]
  have hones : BitVec.ofNat 11 x ≠ -1#_ := by
    intro hx'
    have : x = 2047 := hexponent.symm.trans (congrArg BitVec.toNat hx')
    omega
  have hzero : BitVec.ofNat 11 x ≠ 0#_ := by
    intro hx'
    have : x = 0 := hexponent.symm.trans (congrArg BitVec.toNat hx')
    omega
  show UnpackedFloat.unpack .binary64 (UnpackedFloat.pack .binary64 _) = _
  rw [pack_full h s hx hx₂, UnpackedFloat.unpack]
  simp only [unpackExponent_packComponents, unpackMantissa_packComponents,
    unpackSign_packComponents, Sign.ofBitVec_toBitVec, if_neg hones, if_neg hzero,
    toNat_append_ofNat h, hexponent]
  congr 1
  show (x : Int) - (1023 + 52 : Int) = e
  omega

/-! ## 4. Natural numbers -/

theorem unpack_one : (Float.exactlyRepresentablePowersOfTen[0]).toModel.unpack =
    .finite .positive leadingBit (-52) (by decide) := rfl

/-- The mantissa of a number moved up to its 53 bits. -/
structure FullOf (M n : Nat) : Prop extends Full M where
  eq : n * leadingBit = M * 2 ^ n.log2

namespace FullOf

variable {n : Nat}

theorem ne_zero (h : FullOf M n) : n ≠ 0 := by
  rintro rfl
  have := h.eq
  have := Nat.mul_pos h.pos (Nat.pow_pos (by decide) : 0 < 2 ^ Nat.log2 0)
  omega

/-- A small number is moved up. -/
theorem shiftLeft_eq (h : FullOf M n) (hn : n.log2 ≤ 52) : n <<< (52 - n.log2) = M := by
  have hpos : 0 < 2 ^ n.log2 := Nat.pow_pos (by decide)
  refine Nat.eq_of_mul_eq_mul_right hpos ?_
  rw [← h.eq, Nat.shiftLeft_eq, Nat.mul_assoc, ← Nat.pow_add, Nat.sub_add_cancel hn]
  rfl

theorem round_eq (h : FullOf M n) (hn : n.log2 ≤ 52) (s : Sign) :
    UnpackedFloat.round .binary64 s n 0 = .finite s M (n.log2 - 52) h.pos := by
  have htarget : Format.binary64.targetExponent (totalExponent n 0) = n.log2 - 52 := by
    show max ((n.log2 : Int) + 1 + 0 - 53) (-1074 : Int) = _
    omega
  have hshift : ((0 : Int) - (n.log2 - 52)).toNat = 52 - n.log2 := by omega
  rw [UnpackedFloat.round, htarget, decreaseExponent, hshift, h.shiftLeft_eq hn]
  exact roundWithAccuracy_exact h.toFull s (k := 0) (Nat.mul_one M).symm (by omega) (by omega)

/-- A number of 53 bits goes through a machine word. -/
theorem unpack_toFloat (h : FullOf M n) (hn : n < 2 ^ 53) :
    n.toUInt64.toFloat.toModel.unpack = .finite .positive M (n.log2 - 52) h.pos := by
  have hlog : n.log2 ≤ 52 := Nat.le_of_lt_succ ((Nat.log2_lt h.ne_zero).mpr hn)
  have hvalue : n.toUInt64.toNat = n := Nat.mod_eq_of_lt (by omega)
  have hpositive : compare (n : Int) 0 = .gt :=
    Int.compare_eq_gt.mpr (Int.natCast_pos.mpr (Nat.pos_of_ne_zero h.ne_zero))
  have hround : UnpackedFloat.ofUInt64 .binary64 n.toUInt64 =
      .finite .positive M (n.log2 - 52) h.pos := by
    rw [UnpackedFloat.ofUInt64, hvalue, UnpackedFloat.ofNat, UnpackedFloat.ofInt,
      UnpackedFloat.normalize, hpositive]
    exact h.round_eq hlog .positive
  rw [UInt64.toFloat, Float.Model.ofUInt64, hround]
  exact unpack_pack h.toFull .positive (by omega) (by omega)

/-- It is then multiplied with one. -/
theorem unpack_ofNat_small (h : FullOf M n) (hn : n < 2 ^ 53) :
    (Float.ofNat n).toModel.unpack = .finite .positive M (n.log2 - 52) h.pos := by
  have hlog : n.log2 ≤ 52 := Nat.le_of_lt_succ ((Nat.log2_lt h.ne_zero).mpr hn)
  have hfast : Float.ofNat n =
      n.toUInt64.toFloat * Float.exactlyRepresentablePowersOfTen[0] := by
    rw [Float.ofNat]
    exact dif_pos ⟨hn, Nat.zero_le 22⟩
  have hproduct : UnpackedFloat.mul .binary64 (.finite .positive M (n.log2 - 52) h.pos)
      (.finite .positive leadingBit (-52) (by decide)) =
        .finite .positive M (n.log2 - 52) h.pos :=
    roundWithAccuracy_exact h.toFull .positive (k := 52) rfl (by omega) (by omega)
  rw [hfast]
  show (Float.Model.pack (UnpackedFloat.mul .binary64 n.toUInt64.toFloat.toModel.unpack
    (Float.exactlyRepresentablePowersOfTen[0]).toModel.unpack)).unpack = _
  rw [h.unpack_toFloat hn, unpack_one, hproduct]
  exact unpack_pack h.toFull .positive (by omega) (by omega)

/-- A larger number is taken as it is and loses its zeros. -/
theorem unpack_ofNat_large (h : FullOf M n) (hn : ¬ n < 2 ^ 53) (hlog : n.log2 < 1024) :
    (Float.ofNat n).toModel.unpack = .finite .positive M (n.log2 - 52) h.pos := by
  have hslow : Float.ofNat n = Float.ofModel (Float.Model.ofScientific n 0) :=
    dif_neg fun h => hn h.1
  have hmantissa : n <<< Format.binary64.mantissaBits * 10 ^ (0 : Int).toNat =
      M * 2 ^ (n.log2 + 1) := by
    rw [Nat.shiftLeft_eq, Nat.pow_succ 2 n.log2, ← Nat.mul_assoc M, ← h.eq, Nat.mul_assoc n leadingBit]
    exact Nat.mul_one _
  have hexponent : (-(Format.binary64.mantissaBits : Int) + 0 + (n.log2 + 1 : Nat)) = n.log2 - 52 := by
    show (-53 + 0 + (n.log2 + 1 : Nat) : Int) = _
    omega
  have hproduct : UnpackedFloat.ofScientific .binary64 n 0 =
      .finite .positive M (n.log2 - 52) h.pos := by
    have hupper : ¬ (0 : Int) > 2 ^ Format.binary64.exponentBits := by decide
    have hlower : ¬ (0 : Int) < -(2 ^ Format.binary64.exponentBits + n.log2) := by
      have : (0 : Int) < 2 ^ Format.binary64.exponentBits := by decide
      omega
    rw [UnpackedFloat.ofScientific, dif_neg h.ne_zero, if_neg hupper, if_neg hlower,
      if_pos (Int.le_refl 0), UnpackedFloat.mul]
    exact roundWithAccuracy_exact h.toFull .positive hmantissa hexponent (by omega)
  rw [hslow, Float.Model.ofScientific, hproduct]
  exact unpack_pack h.toFull .positive (by omega) (by omega)

/-- **A number with a mantissa of 53 bits becomes its double.** -/
theorem unpack_ofNat (h : FullOf M n) (hlog : n.log2 < 1024) :
    (Float.ofNat n).toModel.unpack = .finite .positive M (n.log2 - 52) h.pos := by
  by_cases hn : n < 2 ^ 53
  · exact h.unpack_ofNat_small hn
  · exact h.unpack_ofNat_large hn hlog

/-- **The double denotes the number.** -/
theorem whole?_finite (h : FullOf M n) (negative : Bool) :
    (Exact.finite negative M (n.log2 - 52)).whole? = some (if negative then -(n : Int) else n) := by
  have hsign : ∀ k : Nat, k = n →
      some ((if negative then -1 else 1 : Int) * k) = some (if negative then -(n : Int) else n) := by
    rintro k rfl
    cases negative
    · exact congrArg some (Int.one_mul _)
    · exact congrArg some (Int.neg_one_mul _)
  have hlead : (0 : Nat) < leadingBit := by decide
  rw [Exact.whole?]
  dsimp only
  split
  · rename_i he
    refine hsign _ (Nat.eq_of_mul_eq_mul_right hlead ?_)
    have htoNat : (n.log2 - 52 : Int).toNat + 52 = n.log2 := by omega
    rw [h.eq, ← htoNat, Nat.pow_add, ← Nat.mul_assoc, htoNat]
    rfl
  · rename_i he
    have htoNat : (-(n.log2 - 52 : Int)).toNat = 52 - n.log2 := by omega
    have hM : M = n * 2 ^ (52 - n.log2) := by
      rw [← Nat.shiftLeft_eq, h.shiftLeft_eq (by omega)]
    have hunit : 0 < 2 ^ (52 - n.log2) := Nat.pow_pos (by decide)
    rw [htoNat]
    show (if M % 2 ^ (52 - n.log2) = 0 then some (_ * ((M / 2 ^ (52 - n.log2) : Nat) : Int))
      else none) = _
    rw [hM, Nat.mul_mod_left, if_pos rfl, Nat.mul_div_cancel n hunit]
    exact hsign n rfl

end FullOf

/-! ## 5. Integers -/

/-- An integer that a double holds: a mantissa of 53 bits and a power of two make it. -/
def Held (n : Int) : Prop := ∃ m k : Nat, n.natAbs = m * Nat.pow 2 k ∧ m < 2 * leadingBit

theorem Held.exists_fullOf {n : Int} (h : Held n) (hn : n ≠ 0) : ∃ M, FullOf M n.natAbs := by
  obtain ⟨m, k, hmk, hm⟩ := h
  have hm₀ : m ≠ 0 := by
    rintro rfl
    rw [Nat.zero_mul] at hmk
    omega
  have hlog : m.log2 ≤ 52 := Nat.le_of_lt_succ ((Nat.log2_lt hm₀).mpr hm)
  have hfull : Full (m * 2 ^ (52 - m.log2)) := by
    have hroom : 0 < 2 ^ (52 - m.log2) := Nat.pow_pos (by decide)
    have hbits : 2 ^ m.log2 * 2 ^ (52 - m.log2) = leadingBit := by
      rw [← Nat.pow_add, Nat.add_sub_cancel' hlog]
      rfl
    refine ⟨?_, ?_⟩
    · rw [← hbits]
      exact Nat.mul_le_mul_right _ (Nat.log2_self_le hm₀)
    · rw [← hbits, ← Nat.mul_assoc, ← Nat.pow_succ']
      exact Nat.mul_lt_mul_of_pos_right Nat.lt_log2_self hroom
  refine ⟨_, hfull, ?_⟩
  rw [hmk]
  show m * 2 ^ k * 2 ^ 52 = m * 2 ^ (52 - m.log2) * 2 ^ (m * 2 ^ k).log2
  rw [log2_mul_two_pow hm₀, Nat.mul_assoc, Nat.mul_assoc, ← Nat.pow_add, ← Nat.pow_add]
  congr 2
  omega

/-- **An integer with a mantissa of 53 bits becomes its double.** -/
theorem ofFloat_ofInt {n : Int} {M : Nat} (h : FullOf M n.natAbs) (hlog : n.natAbs.log2 < 1024) :
    Exact.ofFloat (Float.ofInt n) = .finite (decide (n < 0)) M (n.natAbs.log2 - 52) := by
  rw [Exact.ofFloat_eq]
  cases n with
  | ofNat n =>
    have h : FullOf M n := h
    rw [Float.ofInt, h.unpack_ofNat hlog]
    rfl
  | negSucc n =>
    have h : FullOf M n.succ := h
    have hneg : (Float.neg (Float.ofNat n.succ)).toModel.unpack =
        .finite .negative M (n.succ.log2 - 52) h.pos := by
      show (Float.Model.pack (Float.ofNat n.succ).toModel.unpack.neg).unpack = _
      rw [h.unpack_ofNat hlog]
      have hlog : n.succ.log2 < 1024 := hlog
      exact unpack_pack h.toFull .negative (by omega) (by omega)
    rw [Float.ofInt, hneg, decide_eq_true (Int.negSucc_lt_zero n)]
    rfl

/-- Both zeros denote zero. -/
theorem Exact.whole?_zero (negative : Bool) (e : Int) :
    (Exact.finite negative 0 e).whole? = some 0 := by
  rw [Exact.whole?]
  dsimp only
  split
  · rw [Nat.zero_mul, Int.natCast_zero, Int.mul_zero]
  · rw [Nat.zero_mod, if_pos rfl, Nat.zero_div, Int.natCast_zero, Int.mul_zero]

theorem Exact.whole?_unsignedZero (x : Exact) : x.unsignedZero.whole? = x.whole? := by
  cases x with
  | finite negative m e =>
    cases m with
    | zero => rw [Exact.unsignedZero, whole?_zero, whole?_zero]
    | succ m => rfl
  | _ => rfl

theorem whole?_congr {a b : Float} (h : Value.sameNumber a b = true) :
    whole? a = whole? b := by
  rw [whole?, whole?, ← Exact.whole?_unsignedZero,
    (sameNumber_iff a b).mp h, Exact.whole?_unsignedZero]

/-- Doubles that count as the same are one double, or they are zeros. -/
theorem eq_or_whole?_of_sameNumber {a b : Float} (h : Value.sameNumber a b = true) :
    a = b ∨ whole? a = some 0 := by
  have hzero : ∀ x : Float, x = 0 ∨ x = -0 → whole? x = some 0 := by
    have hpositive : Exact.ofFloat 0 = .finite false 0 (-1074) := rfl
    have hnegative : Exact.ofFloat (-0) = .finite true 0 (-1074) := rfl
    rintro x (rfl | rfl)
    · rw [whole?, hpositive, Exact.whole?_zero]
    · rw [whole?, hnegative, Exact.whole?_zero]
  rw [Value.sameNumber, Bool.or_eq_true, Bool.and_eq_true, Float.beq_iff_ne_nan_and_eq,
    Float.isNaN_eq_decide_eq_nan, Float.isNaN_eq_decide_eq_nan, decide_eq_true_eq,
    decide_eq_true_eq] at h
  rcases h with ⟨-, -, h | h | h⟩ | ⟨ha, hb⟩
  · exact .inl h
  · exact .inr (hzero a (.inl h.1))
  · exact .inr (hzero a (.inr h.1))
  · exact .inl (ha.trans hb.symm)

/-- **An integer that a double holds comes back from its double.** -/
theorem whole?_ofInt {n : Int} (h : Held n) (hlog : n.natAbs.log2 < 1024) :
    whole? (Float.ofInt n) = some n := by
  by_cases hn : n = 0
  · have hzero : Exact.ofFloat (Float.ofInt 0) = .finite false 0 (-1074) := rfl
    rw [hn, whole?, hzero, Exact.whole?_zero]
  · obtain ⟨M, hM⟩ := h.exists_fullOf hn
    rw [whole?, ofFloat_ofInt hM hlog, hM.whole?_finite]
    split <;> rename_i hsign
    · have := of_decide_eq_true hsign
      congr 1
      omega
    · have := of_decide_eq_false (Bool.eq_false_iff.mpr hsign)
      congr 1
      omega

/-- **Every integer that a double denotes is one that doubles hold.** -/
theorem held_of_whole? {x : Float} {n : Int} (h : whole? x = some n) : Held n := by
  rw [whole?, ← Exact.whole?_unsignedZero] at h
  have hproper := proper_ofFloat x
  cases hx : (Exact.ofFloat x).unsignedZero with
  | nan => rw [hx] at h; cases h
  | infinite negative => rw [hx] at h; cases h
  | finite negative m e =>
    rw [hx] at h hproper
    have hm : m < 2 * leadingBit := by
      obtain ⟨-, rfl, -⟩ | hproper := hproper
      · decide
      · exact hproper.lt
    have hsign : ∀ k : Nat, ((if negative then -1 else 1 : Int) * k).natAbs = k := by
      intro k
      cases negative <;> simp
    rw [Exact.whole?] at h
    dsimp only at h
    split at h
    · obtain rfl := Option.some.inj h
      exact ⟨m, e.toNat, hsign _, hm⟩
    · split at h
      · obtain rfl := Option.some.inj h
        exact ⟨_, 0, (hsign _).trans (Nat.mul_one _).symm, (Nat.div_le_self _ _).trans_lt hm⟩
      · cases h

end Trellis.Number
