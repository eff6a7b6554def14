import Mathlib.Logic.Basic
import Trellis.Number.Layout
import Trellis.Value.Basic

/-!
# Numbers that count as the same

`Value.sameNumber` compares two doubles by the order of the machine; the texts of numbers go by
their exact values. The two meet here: a double reads as an `Exact` value in one way only
(`ofFloat_eq`), and two doubles count as the same exactly when these values agree, the sign of a
zero aside (`sameNumber_iff`).
-/

namespace Trellis.Number

open Float.Model

/-! ## 1. The exact value of an unpacked double -/

/-- The exact value of a double that is unpacked. -/
def Exact.ofUnpacked : UnpackedFloat → Exact
  | .notANumber => .nan
  | .infinity s => .infinite (s == .negative)
  | .zero s => .finite (s == .negative) 0 (-1074)
  | .finite s m e _ => .finite (s == .negative) m e

theorem toNat_unpackMantissa (b : BitVec Format.binary64.numBits) :
    (@UnpackedFloat.unpackMantissa Format.binary64 b).toNat = b.toNat % leadingBit := by
  simp [UnpackedFloat.unpackMantissa, leadingBit]

theorem toNat_unpackExponent (b : BitVec Format.binary64.numBits) :
    (@UnpackedFloat.unpackExponent Format.binary64 b).toNat =
      b.toNat / leadingBit % 2048 := by
  simp [UnpackedFloat.unpackExponent, leadingBit, Nat.shiftRight_eq_div_pow]

theorem toNat_unpackSign (b : BitVec Format.binary64.numBits) :
    (@UnpackedFloat.unpackSign Format.binary64 b).toNat = b.toNat / Nat.pow 2 63 := by
  have hb : b.toNat < 2 ^ 64 := b.isLt
  show (b.extractLsb 63 63).toNat = _
  rw [BitVec.extractLsb_toNat, Nat.shiftRight_eq_div_pow]
  show b.toNat / 2 ^ 63 % 2 ^ 1 = b.toNat / 2 ^ 63
  omega

theorem negative_unpackSign (b : BitVec Format.binary64.numBits) :
    (UnpackedFloat.Sign.ofBitVec (@UnpackedFloat.unpackSign Format.binary64 b) ==
      .negative) = (b.toNat / Nat.pow 2 63 == 1) := by
  have h := toNat_unpackSign b
  generalize @UnpackedFloat.unpackSign Format.binary64 b = v at h
  rw [← h]
  clear h
  revert v
  decide

/-- **A double reads as one exact value.** -/
theorem Exact.ofFloat_eq (x : Float) : Exact.ofFloat x = Exact.ofUnpacked x.toModel.unpack := by
  have hbits : x.toBits.toNat = x.toModel.toBits.toBitVec.toNat := rfl
  unfold Exact.ofFloat Float.Model.unpack UnpackedFloat.unpack
  rw [hbits]
  generalize x.toModel.toBits.toBitVec = b
  dsimp only
  rw [← toNat_unpackMantissa, ← toNat_unpackExponent, ← negative_unpackSign]
  have hones : @UnpackedFloat.unpackExponent Format.binary64 b = -1#_ ↔
      (@UnpackedFloat.unpackExponent Format.binary64 b).toNat = 2047 := BitVec.toNat_inj.symm
  have hzero : @UnpackedFloat.unpackExponent Format.binary64 b = 0#_ ↔
      (@UnpackedFloat.unpackExponent Format.binary64 b).toNat = 0 := BitVec.toNat_inj.symm
  have hfraction : @UnpackedFloat.unpackMantissa Format.binary64 b = 0#_ ↔
      (@UnpackedFloat.unpackMantissa Format.binary64 b).toNat = 0 := BitVec.toNat_inj.symm
  by_cases he : @UnpackedFloat.unpackExponent Format.binary64 b = -1#_
  · rw [if_pos he, if_pos (hones.mp he)]
    by_cases hm : @UnpackedFloat.unpackMantissa Format.binary64 b = 0#_
    · rw [if_pos hm, if_pos (hfraction.mp hm)]
      rfl
    · rw [if_neg hm, if_neg (mt hfraction.mpr hm)]
      rfl
  · rw [if_neg he, if_neg (mt hones.mpr he)]
    by_cases he₀ : @UnpackedFloat.unpackExponent Format.binary64 b = 0#_
    · rw [if_pos he₀, if_pos (hzero.mp he₀)]
      by_cases hm : @UnpackedFloat.unpackMantissa Format.binary64 b = 0#_
      · rw [dif_pos hm, hfraction.mp hm]
        rfl
      · rw [dif_neg hm]
        show _ = Exact.finite _ _ _
        rw [hzero.mp he₀]
        rfl
    · have hlead : (1#1 ++ @UnpackedFloat.unpackMantissa Format.binary64 b).toNat =
          leadingBit + (@UnpackedFloat.unpackMantissa Format.binary64 b).toNat := by
        rw [BitVec.toNat_append, ← Nat.shiftLeft_add_eq_or_of_lt (BitVec.isLt _)]
        rfl
      rw [if_neg he₀, if_neg (mt hzero.mpr he₀)]
      show _ = Exact.finite _ _ _
      rw [hlead]
      rfl

/-! ## 2. Doubles that count as the same -/

/-- An exact value in which a zero has no sign. -/
def Exact.unsignedZero : Exact → Exact
  | .finite _ 0 e => .finite false 0 e
  | x => x

theorem compare_sign (s t : UnpackedFloat.Sign) :
    compare s t = .eq ↔ (s == .negative) = (t == .negative) := by
  cases s <;> cases t <;> decide

/-- Two finite doubles other than zero compare as equal when they agree in every part. -/
theorem compare_finite (s t : UnpackedFloat.Sign) (m n : Nat) (e f : Int) (hm : 0 < m) (hn : 0 < n) :
    UnpackedFloat.compare (.finite s m e hm) (.finite t n f hn) = some .eq ↔
      (s == .negative) = (t == .negative) ∧ m = n ∧ e = f := by
  have h : (compare e f).then (compare m n) = .eq ↔ m = n ∧ e = f := by
    rw [Ordering.then_eq_eq, Int.compare_eq_eq, Nat.compare_eq_eq, and_comm]
  cases s <;> cases t
  · rw [← h]
    show some ((compare e f).then (compare m n)).swap = some .eq ↔ _
    rw [Option.some.injEq, Ordering.swap_eq_eq, and_iff_right rfl]
  · exact ⟨fun h => (by cases h), fun h => (by cases h.1)⟩
  · exact ⟨fun h => (by cases h), fun h => (by cases h.1)⟩
  · rw [← h]
    show some ((compare e f).then (compare m n)) = some .eq ↔ _
    rw [Option.some.injEq, and_iff_right rfl]

/-- The exact value of an unpacked double, zero without its sign. -/
def Exact.magnitude : UnpackedFloat → Exact
  | .notANumber => .nan
  | .infinity s => .infinite (s == .negative)
  | .zero _ => .finite false 0 (-1074)
  | .finite s m e _ => .finite (s == .negative) m e

theorem Exact.unsignedZero_ofUnpacked (u : UnpackedFloat) :
    (Exact.ofUnpacked u).unsignedZero = Exact.magnitude u := by
  cases u with
  | finite s m e hm =>
    cases m with
    | zero => omega
    | succ m => rfl
  | _ => rfl

/-- Values that do not compare as equal, and not both of which are no number. -/
theorem same_iff_of_ne {u v : UnpackedFloat} (hc : u.compare v ≠ some .eq)
    (hn : u.isNaN = false ∨ v.isNaN = false) (hm : Exact.magnitude u ≠ Exact.magnitude v) :
    u.compare v = some .eq ∨ u.isNaN = true ∧ v.isNaN = true ↔
      Exact.magnitude u = Exact.magnitude v := by
  refine iff_of_false ?_ hm
  rintro (h | ⟨hu, hv⟩)
  · exact hc h
  · rw [hu, hv] at hn
    exact hn.elim Bool.noConfusion Bool.noConfusion

/-- A number is the same as a value that compares as equal. -/
theorem same_iff_of_number {u v : UnpackedFloat} (hu : u.isNaN = false)
    (h : u.compare v = some .eq ↔ Exact.magnitude u = Exact.magnitude v) :
    u.compare v = some .eq ∨ u.isNaN = true ∧ v.isNaN = true ↔
      Exact.magnitude u = Exact.magnitude v := by
  rw [← h, hu]
  exact or_iff_left fun h => Bool.noConfusion h.1

theorem same_unpacked_iff (u v : UnpackedFloat) :
    u.compare v = some .eq ∨ u.isNaN = true ∧ v.isNaN = true ↔
      Exact.magnitude u = Exact.magnitude v := by
  cases u with
  | notANumber =>
    cases v with
    | notANumber => exact iff_of_true (.inr ⟨rfl, rfl⟩) rfl
    | _ => exact same_iff_of_ne nofun (.inr rfl) nofun
  | infinity s =>
    cases v with
    | infinity t =>
      refine same_iff_of_number rfl ?_
      show some (compare s t) = some .eq ↔
        Exact.infinite (s == .negative) = Exact.infinite (t == .negative)
      rw [Option.some.injEq, Exact.infinite.injEq, compare_sign]
    | _ => cases s <;> exact same_iff_of_ne nofun (.inl rfl) nofun
  | zero s =>
    cases v with
    | zero t => exact same_iff_of_number rfl (iff_of_true rfl rfl)
    | infinity t => cases t <;> exact same_iff_of_ne nofun (.inl rfl) nofun
    | finite t n f hn =>
      have hm : Exact.magnitude (.zero s) ≠ Exact.magnitude (.finite t n f hn) := by
        intro h
        obtain ⟨_, rfl, _⟩ := Exact.finite.inj h
        exact Nat.lt_irrefl 0 hn
      cases t <;> exact same_iff_of_ne nofun (.inl rfl) hm
    | notANumber => exact same_iff_of_ne nofun (.inl rfl) nofun
  | finite s m e hm =>
    cases v with
    | finite t n f hn =>
      refine same_iff_of_number rfl ?_
      rw [compare_finite]
      show _ ↔ Exact.finite (s == .negative) m e = Exact.finite (t == .negative) n f
      rw [Exact.finite.injEq]
    | infinity t => cases s <;> cases t <;> exact same_iff_of_ne nofun (.inl rfl) nofun
    | zero t =>
      have hne : Exact.magnitude (.finite s m e hm) ≠ Exact.magnitude (.zero t) := by
        intro h
        obtain ⟨_, rfl, _⟩ := Exact.finite.inj h
        exact Nat.lt_irrefl 0 hm
      cases s <;> exact same_iff_of_ne nofun (.inl rfl) hne
    | notANumber => cases s <;> exact same_iff_of_ne nofun (.inl rfl) nofun

/-- **Two doubles count as the same exactly when their exact values agree**, the sign of a zero
    aside. -/
theorem sameNumber_iff (a b : Float) : Value.sameNumber a b = true ↔
    (Exact.ofFloat a).unsignedZero = (Exact.ofFloat b).unsignedZero := by
  have hbeq : (a == b) = (a.toModel.unpack.compare b.toModel.unpack == some .eq) := rfl
  have hnan : ∀ x : Float, x.isNaN = x.toModel.unpack.isNaN := fun _ => rfl
  rw [Value.sameNumber, hbeq, hnan, hnan, Exact.ofFloat_eq, Exact.ofFloat_eq, Bool.or_eq_true,
    Bool.and_eq_true, beq_iff_eq, same_unpacked_iff, Exact.unsignedZero_ofUnpacked,
    Exact.unsignedZero_ofUnpacked]

/-! ## 3. The text of a number -/

/-- What a page has of an exact value. -/
def Exact.written : Exact → String
  | .nan => pageLayout.nan
  | .infinite negative => (if negative then "-" else "") ++ pageLayout.infinity
  | .finite negative mantissa exponent =>
    if mantissa = 0 then pageLayout.zero
    else (if negative then "-" else "") ++ pageLayout.decimal (shortest mantissa exponent)

/-- Pages know one zero. -/
theorem text_eq_written (x : Float) : text x = (Exact.ofFloat x).unsignedZero.written := by
  rw [text, Layout.write]
  cases Exact.ofFloat x with
  | nan => rfl
  | infinite negative => rfl
  | finite negative m e =>
    cases m with
    | zero => cases negative <;> rfl
    | succ m => rfl

/-- **Doubles that count as the same have the same text.** -/
theorem text_eq_of_sameNumber {a b : Float} (h : Value.sameNumber a b = true) : text a = text b := by
  rw [sameNumber_iff] at h
  rw [text_eq_written, text_eq_written, h]

end Trellis.Number
