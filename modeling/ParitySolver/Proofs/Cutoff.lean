import Mathlib
import ParitySolver.Config

/-
  A cutoff of zero holds nothing back. Counts are compared in
  floating point, and a count of 64 bits becomes zero or a
  positive number, but never infinity, so its product with
  zero is zero and no count is below it.

  The arithmetic is that of the model of floating point in
  the standard library. Its rounding can only add one to the
  size of a mantissa, and raises the exponent by no more than
  the bits that it drops.

  Key definitions include:
    * `Moderate`

  Main declarations:
    * `moderate_round`
    * `moderate_pack`
    * `moderate_ofNat`
    * `Cutoff.admits_zero`
-/

namespace ParitySolver

open Float.Model Float.Model.UnpackedFloat

/-
  Zero, or a positive number whose mantissa and exponent are
  bounded.
-/
inductive Moderate
    (size : Nat)
    (bound : Int) : UnpackedFloat → Prop where
  | zero : Moderate size bound (.zero .positive)
  | finite
      {mantissa : Nat}
      {exponent : Int}
      {hPositive : 0 < mantissa}
      (hMantissa : mantissa.log2 ≤ size)
      (hExponent : exponent ≤ bound) :
      Moderate size bound
        (.finite .positive mantissa exponent hPositive)

variable {size size' m n : Nat} {bound bound' e e' : Int}

theorem Moderate.mono
    {u : UnpackedFloat}
    (hModerate : Moderate size bound u)
    (hSize : size ≤ size')
    (hBound : bound ≤ bound') :
    Moderate size' bound' u := by
  cases hModerate with
  | zero => exact .zero
  | finite hMantissa hExponent =>
      exact .finite (Nat.le_trans hMantissa hSize)
        (Int.le_trans hExponent hBound)

------------------------------------------------------------
-- Logarithms
------------------------------------------------------------

theorem log2_le_of_le
    (hLe : m ≤ n) :
    m.log2 ≤ n.log2 := by
  rw [Nat.log2_eq_log_two, Nat.log2_eq_log_two]
  exact Nat.log_mono_right hLe

theorem log2_le_of_lt
    {k : Nat}
    (hLt : m < 2 ^ k) :
    m.log2 ≤ k := by
  have hLog := log2_le_of_le (Nat.le_of_lt hLt)
  rwa [Nat.log2_two_pow] at hLog

theorem log2_succ_le
    (m : Nat) :
    (m + 1).log2 ≤ m.log2 + 1 := by
  have hLt : m < 2 ^ (m.log2 + 1) := Nat.lt_log2_self
  have hNext : m + 1 < 2 ^ (m.log2 + 2) := by
    simp only [Nat.pow_add, Nat.reducePow] at hLt ⊢
    omega
  exact Nat.le_of_lt_succ
    ((Nat.log2_lt (Nat.succ_ne_zero m)).mpr hNext)

theorem log2_shiftLeft_le
    {k : Nat}
    (hLt : m < 2 ^ k)
    (shift : Nat) :
    (m <<< shift).log2 ≤ k + shift := by
  apply log2_le_of_lt
  rw [Nat.shiftLeft_eq, Nat.pow_add]
  exact Nat.mul_lt_mul_of_pos_right hLt (Nat.two_pow_pos shift)

------------------------------------------------------------
-- Rounding
------------------------------------------------------------

theorem targetExponent_eq
    (m : Nat)
    (e : Int) :
    Format.binary64.targetExponent (totalExponent m e) =
      max ((m.log2 : Int) + 1 + e - 53) (-1074) :=
  rfl

theorem mantissa_shiftRight_le
    (extended : ExtendedMantissa)
    (shift : Nat) :
    (extended >>> shift).mantissa ≤ extended.mantissa := by
  induction shift with
  | zero => exact Nat.le_refl _
  | succ shift ih =>
      have hStep : (extended >>> (shift + 1)).mantissa =
          (extended >>> shift).mantissa / 2 := rfl
      rw [hStep]
      omega

theorem roundedMantissa_le
    (extended : ExtendedMantissa) :
    extended.roundedMantissa ≤ extended.mantissa + 1 := by
  rcases extended with ⟨mantissa, roundBit, stickyBit⟩
  cases roundBit <;> cases stickyBit <;>
    simp [ExtendedMantissa.roundedMantissa,
      ExtendedMantissa.accuracy, Accuracy.roundToNearestEven]
  omega

/- A shift to the right exponent drops bits and adds none. -/
theorem shiftToTargetExponent_le
    {extended : ExtendedMantissa}
    (hShift :
      shiftToTargetExponent Format.binary64 m e .exact =
        (extended, e')) :
    extended.mantissa ≤ m ∧
      e' ≤ max e (max ((m.log2 : Int) + 1 + e - 53) (-1074)) := by
  unfold shiftToTargetExponent shiftToExponent at hShift
  simp only [targetExponent_eq, Prod.mk.injEq] at hShift
  rcases hShift with ⟨rfl, rfl⟩
  exact ⟨mantissa_shiftRight_le _ _, by omega⟩

/- Rounding shifts twice, with a carry of one in between. -/
theorem moderate_round
    (hMantissa : m.log2 ≤ size)
    (hExponent : e ≤ bound)
    (hLow : -1000 ≤ bound) :
    Moderate (size + 1) (bound + 2 * size)
      (roundWithAccuracy Format.binary64 .positive m e .exact) := by
  unfold roundWithAccuracy
  rcases hFirst : shiftToTargetExponent Format.binary64 m e .exact
    with ⟨shifted, e₁⟩
  simp only
  rcases hSecond : shiftToTargetExponent Format.binary64
    shifted.roundedMantissa e₁ .exact with ⟨final, e₂⟩
  rcases shiftToTargetExponent_le hFirst with ⟨hShifted, hLe₁⟩
  rcases shiftToTargetExponent_le hSecond with ⟨hFinal, hLe₂⟩
  have hRounded : shifted.roundedMantissa ≤ m + 1 :=
    Nat.le_trans (roundedMantissa_le shifted)
      (Nat.succ_le_succ hShifted)
  have hCarry : shifted.roundedMantissa.log2 ≤ m.log2 + 1 :=
    Nat.le_trans (log2_le_of_le hRounded) (log2_succ_le m)
  have hLog := log2_le_of_le hFinal
  simp only
  split
  · exact .zero
  · exact .finite (by omega) (by omega)

------------------------------------------------------------
-- Packing
------------------------------------------------------------

theorem moderate_unpack
    {exponent : BitVec 11}
    {mantissa : BitVec 52}
    (hFinite : exponent ≠ -1#11)
    (hLow : -1000 ≤ bound)
    (hExponent : (exponent.toNat : Int) - 1075 ≤ bound) :
    Moderate 53 bound
      (UnpackedFloat.unpack Format.binary64
        (packComponents Format.binary64 .positive exponent
          mantissa)) := by
  unfold UnpackedFloat.unpack
  simp only [unpackMantissa_packComponents,
    unpackExponent_packComponents, unpackSign_packComponents,
    Sign.ofBitVec_toBitVec]
  rw [if_neg hFinite]
  split
  next hZero =>
    split
    next => exact .zero
    next =>
      refine .finite (log2_le_of_lt ?_) ?_
      · exact Nat.lt_trans mantissa.isLt (by decide)
      · subst hZero
        change ((0 : Nat) : Int) - 1075 + 1 ≤ bound
        omega
  next => exact .finite (log2_le_of_lt (1#1 ++ mantissa).isLt) hExponent

/- A moderate number survives being packed. -/
theorem moderate_pack
    {u : UnpackedFloat}
    (hModerate : Moderate size bound u)
    (hLow : -1000 ≤ bound)
    (hHigh : bound ≤ 900) :
    Moderate 53 bound (Float.Model.pack u).unpack := by
  cases hModerate with
  | zero => exact .zero
  | @finite m e hPositive hMantissa hExponent =>
      change Moderate 53 bound
        (UnpackedFloat.unpack Format.binary64
          (UnpackedFloat.pack Format.binary64
            (.finite .positive m e hPositive)))
      have hBiased : ¬ 2048 ≤ (e + 1023 + 52).toNat + 1 := by omega
      have hBits :
          (BitVec.ofNat 11 (e + 1023 + 52).toNat).toNat =
            (e + 1023 + 52).toNat := by
        rw [BitVec.toNat_ofNat]
        omega
      rw [UnpackedFloat.pack]
      split
      next hHuge => exact absurd hHuge hBiased
      next =>
        split
        · -- The exponent is stored with its bias.
          refine moderate_unpack ?_ hLow ?_
          · intro hEq
            have hNat := hBits.symm.trans (congrArg BitVec.toNat hEq)
            change (e + 1023 + 52).toNat = 2047 at hNat
            omega
          · change ((BitVec.ofNat 11 (e + 1023 + 52).toNat).toNat : Int) -
              1075 ≤ bound
            omega
        · refine moderate_unpack (by decide) hLow ?_
          change ((0 : Nat) : Int) - 1075 ≤ bound
          omega

------------------------------------------------------------
-- Counts
------------------------------------------------------------

/- The mantissa of a word is shifted to the left before it is rounded. -/
theorem moderate_ofUInt64
    (word : UInt64) :
    Moderate 53 300 word.toFloat.toModel.unpack := by
  have hNormal : Moderate 117 300
      (UnpackedFloat.normalize Format.binary64 (word.toNat : Int) 0
        .positive) := by
    unfold UnpackedFloat.normalize
    split
    next hNegative =>
      rw [Int.compare_eq_lt] at hNegative
      omega
    next => exact .zero
    next =>
      rw [Int.toNat_natCast]
      unfold UnpackedFloat.round decreaseExponent
      simp only [targetExponent_eq]
      generalize hShift :
        ((0 : Int) - max ((word.toNat.log2 : Int) + 1 + 0 - 53)
          (-1074)).toNat = shift
      have hLog := log2_shiftLeft_le word.toNat_lt shift
      have hRound : Moderate (116 + 1) (0 + 2 * (116 : Nat))
          (roundWithAccuracy Format.binary64 .positive
            (word.toNat <<< shift) (0 - shift) .exact) :=
        moderate_round (by omega) (by omega) (by omega)
      exact hRound.mono (by omega) (by omega)
  exact moderate_pack hNormal (by omega) (by omega)

theorem moderate_mul_one
    {x one : Float}
    (hModerate : Moderate 53 300 x.toModel.unpack)
    (hOne : one = Float.ofBits 0x3FF0000000000000) :
    Moderate 53 600 (x * one).toModel.unpack := by
  have hUnpack : one.toModel.unpack =
      .finite .positive 4503599627370496 (-52) (by decide) := by
    subst hOne
    rfl
  change Moderate 53 600
    (Float.Model.pack
      (UnpackedFloat.mul Format.binary64 x.toModel.unpack
        one.toModel.unpack)).unpack
  rw [hUnpack]
  generalize x.toModel.unpack = u at hModerate
  cases hModerate with
  | zero => exact .zero
  | @finite m e hPositive hMantissa hExponent =>
      have hLt : m < 2 ^ 54 := by
        have hLog : m < 2 ^ (m.log2 + 1) := Nat.lt_log2_self
        exact Nat.lt_of_lt_of_le hLog
          (Nat.pow_le_pow_right (by omega) (by omega))
      have hProduct := log2_shiftLeft_le hLt 52
      rw [Nat.shiftLeft_eq] at hProduct
      have hRound : Moderate (106 + 1) (300 + 2 * (106 : Nat))
          (roundWithAccuracy Format.binary64 .positive
            (m * 4503599627370496) (e + -52) .exact) :=
        moderate_round hProduct (by omega) (by omega)
      simp only [UnpackedFloat.mul]
      exact (moderate_pack hRound (by omega) (by omega)).mono
        (by omega) (by omega)

/- Small counts are converted as words, and others by a product. -/
theorem moderate_ofNat
    (hLt : n < 2 ^ 64) :
    Moderate 53 600 (Float.ofNat n).toModel.unpack := by
  have hRead : Float.ofNat n = Float.ofScientific n false 0 := rfl
  rw [hRead, Float.ofScientific]
  split
  next => exact moderate_mul_one (moderate_ofUInt64 _) rfl
  next hLarge =>
    have hRound : Moderate (117 + 1) (0 + 2 * (117 : Nat))
        (roundWithAccuracy Format.binary64 .positive (n <<< 53) (-53)
          .exact) :=
      moderate_round (log2_shiftLeft_le hLt 53) (by omega) (by omega)
    have hScientific :
        Moderate 118 600
          (UnpackedFloat.ofScientific Format.binary64 n 0) := by
      rw [UnpackedFloat.ofScientific, dif_neg (by omega),
        if_neg (by decide)]
      split
      next => exact .zero
      next =>
        have hBits : Format.binary64.mantissaBits = 53 := rfl
        simp only [hBits, UnpackedFloat.mul, Int.toNat_zero,
          Nat.pow_zero, Nat.mul_one, Int.add_zero, Int.le_refl, if_true]
        exact hRound.mono (by omega) (by omega)
    exact moderate_pack hScientific (by omega) (by omega)

------------------------------------------------------------
-- The cutoff zero
------------------------------------------------------------

/- The cutoff zero admits every count of 64 bits. -/
theorem Cutoff.admits_zero
    {assigned relevant : Nat}
    (hAssigned : assigned < 2 ^ 64)
    (hRelevant : relevant < 2 ^ 64) :
    (Cutoff.mk 0.0).admits assigned relevant = true := by
  have hLeft := moderate_ofNat hAssigned
  have hRight := moderate_ofNat hRelevant
  have hProduct :
      (0.0 * Float.ofNat relevant).toModel.unpack =
        .zero .positive := by
    change (Float.Model.pack
      (UnpackedFloat.mul Format.binary64 (.zero .positive)
        (Float.ofNat relevant).toModel.unpack)).unpack = _
    generalize (Float.ofNat relevant).toModel.unpack = u at hRight
    cases hRight with
    | zero => rfl
    | finite _ _ =>
        simp only [UnpackedFloat.mul]
        rfl
  have hLe :
      Float.le (0.0 * Float.ofNat relevant) (Float.ofNat assigned) =
        true := by
    change decide
      (UnpackedFloat.le (0.0 * Float.ofNat relevant).toModel.unpack
        (Float.ofNat assigned).toModel.unpack = true) = true
    rw [hProduct]
    generalize (Float.ofNat assigned).toModel.unpack = u at hLeft
    cases hLeft with
    | zero => rfl
    | finite _ _ => rfl
  simp only [Cutoff.admits, Bool.or_eq_true, decide_eq_true_eq]
  exact .inr hLe

end ParitySolver
