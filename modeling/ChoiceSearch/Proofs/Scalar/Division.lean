import ChoiceSearch.Proofs.Scalar.Neutral

/-!
# The units of gradient descent

Gradient descent adds gradients up from zero, and its first rate is divided by one. Both
leave exact numbers and machine numbers as they are (`DescentScalar`), as long as a gradient
is not negative zero, which no sum of gradients is.

For machine numbers the quotient by one has a mantissa with one bit too many at most, and
rounding takes that bit off again (`Double.div_one`).
-/

namespace ChoiceSearch

/-- Scalars whose zero and one are neutral in gradient descent. -/
class DescentScalar (R : Type) [Scalar R] : Prop where
  /-- A sum may start from zero, except for negative zero. -/
  zero_add_of : ∀ x : R, Scalar.isNegZero x = false → Scalar.zero + x = x
  /-- No epoch of a finite decay leaves a rate as it is. -/
  div_undecayed : ∀ rate decay : R, Scalar.isFinite decay = true →
    rate / (Scalar.one + decay * Scalar.ofNat 0) = rate

instance : DescentScalar Exact where
  zero_add_of x _ := by rw [Exact.sum_comm, Exact.sum_zero]
  div_undecayed rate decay h := by
    cases decay with
    | nan => cases h
    | negInf => cases h
    | real d =>
        have hone : (Scalar.one : Exact) + .real d * Scalar.ofNat 0 = .real 1 :=
          congrArg Exact.real (by norm_num)
        rw [hone]
        cases rate with
        | nan => rfl
        | negInf => exact if_pos one_pos
        | real r => exact (if_neg one_ne_zero).trans (congrArg Exact.real (div_one r))

namespace Double

open Float.Model (Format UnpackedFloat totalExponent)
open Float.Model.UnpackedFloat

/-- What a number other than negative zero stands for may be added to zero. -/
theorem zero_add_of_ne {u : UnpackedFloat} (hu : u ≠ .zero .negative) :
    add Format.binary64 (.zero .positive) u = u := by
  cases u with
  | notANumber | infinity | finite => rfl
  | zero s =>
      cases s with
      | negative => exact absurd rfl hu
      | positive => rfl

/-- The exponent of a canonical number is the one that its mantissa is meant to have. -/
theorem Canonical.targetExponent_eq {m : Nat} {e : Int} (h : Canonical m e) :
    max ((m.log2 : Int) + 1 + e - 53) (-1074) = e := by
  have hlt : m.log2 < 53 := (Nat.log2_lt h.pos.ne').mpr h.lt
  have hle := h.le
  rcases h.normal with hsmall | hnormal
  · omega
  · have hge : 52 ≤ m.log2 := (Nat.le_log2 h.pos.ne').mpr hnormal
    omega

theorem unpacked_one :
    unpacked (Scalar.one : Float) = .finite .positive (2 ^ 52) (-52) (by decide) := rfl

/-- A canonical number needs no shift. -/
theorem shiftToTargetExponent_of_canonical {m : Nat} {e : Int} (h : Canonical m e) :
    shiftToTargetExponent Format.binary64 m e .exact = (⟨m, false, false⟩, e) := by
  unfold shiftToTargetExponent shiftToExponent
  rw [Double.targetExponent_eq, h.targetExponent_eq]
  simp
  rfl

/-- Twice a number is shifted by one, and nothing is lost. -/
theorem shiftToTargetExponent_of_double {m : Nat} {e : Int} (h : Canonical m e)
    (he : -1074 < e) :
    shiftToTargetExponent Format.binary64 (2 * m) (e - 1) .exact = (⟨m, false, false⟩, e) := by
  have htarget : max (((2 * m).log2 : Int) + 1 + (e - 1) - 53) (-1074) = e := by
    have hlog : (2 * m).log2 = m.log2 + 1 := Nat.log2_two_mul h.pos.ne'
    have hcanonical := h.targetExponent_eq
    omega
  have hamount : (e - (e - 1)).toNat = 1 := by omega
  have hshift : (ExtendedMantissa.ofMantissaAndAccuracy (2 * m) .exact >>> 1) =
      ⟨m, false, false⟩ := by
    show ExtendedMantissa.shiftRightOne ⟨2 * m, false, false⟩ = _
    simp [ExtendedMantissa.shiftRightOne]
  unfold shiftToTargetExponent shiftToExponent
  rw [Double.targetExponent_eq, htarget]
  dsimp only
  rw [hamount, hshift]
  simp

/-- Rounding takes what shifts to a canonical number to that number. -/
theorem roundWithAccuracy_eq (s : Sign) {m m' : Nat} {e e' : Int} (h : Canonical m e)
    (hshift : shiftToTargetExponent Format.binary64 m' e' .exact = (⟨m, false, false⟩, e)) :
    roundWithAccuracy Format.binary64 s m' e' .exact = .finite s m e h.pos := by
  have hrounded : (ExtendedMantissa.mk m false false).roundedMantissa = m := rfl
  unfold roundWithAccuracy
  rw [hshift]
  dsimp only
  rw [hrounded, shiftToTargetExponent_of_canonical h]
  exact dif_neg h.pos.ne'

/-- The quotient of a canonical number and one, before it is rounded. -/
theorem divCore_one {m : Nat} {e : Int} (h : Canonical m e) :
    divCore Format.binary64 m e (2 ^ 52) (-52) =
      if e = -1074 then (m, e, .exact) else (2 * m, e - 1, .exact) := by
  have htotal : totalExponent m e - totalExponent (2 ^ 52) (-52) = (m.log2 : Int) + e := by
    unfold totalExponent
    rw [Nat.log2_two_pow]
    omega
  have htarget : Format.binary64.targetExponent ((m.log2 : Int) + e) =
      max ((m.log2 : Int) + e - 53) (-1074) := rfl
  have hcanonical := h.targetExponent_eq
  have hle := h.le
  unfold divCore
  dsimp only
  rw [htotal, htarget]
  by_cases he : e = -1074
  · have hmin : min (e - -52) (max ((m.log2 : Int) + e - 53) (-1074)) = e := by omega
    have hamount : (e - -52 - e).toNat = 52 := by omega
    rw [if_pos he, hmin, hamount, Nat.shiftLeft_eq, Nat.mul_div_cancel _ (by positivity),
      Nat.mul_mod_left]
    rfl
  · have hmin : min (e - -52) (max ((m.log2 : Int) + e - 53) (-1074)) = e - 1 := by omega
    have hamount : (e - -52 - (e - 1)).toNat = 53 := by omega
    have hdouble : m <<< 53 = 2 * m * 2 ^ 52 := by
      rw [Nat.shiftLeft_eq]
      ring
    rw [if_neg he, hmin, hamount, hdouble, Nat.mul_div_cancel _ (by positivity), Nat.mul_mod_left]
    rfl

/-- Dividing by one leaves what a machine number stands for as it is. -/
theorem div_one_of_encodes {b : BitVec 64} {u : UnpackedFloat} (h : Encodes b u) :
    div Format.binary64 u (.finite .positive (2 ^ 52) (-52) (by decide)) = u := by
  cases h with
  | notANumber => rfl
  | @infinity s => cases s <;> rfl
  | @zero s => cases s <;> rfl
  | @finite s m e hm _ h =>
      have hsign : s / Sign.positive = s := by cases s <;> rfl
      unfold div
      dsimp only
      rw [divCore_one h, hsign]
      by_cases he : e = -1074
      · rw [if_pos he]
        exact roundWithAccuracy_eq s h (shiftToTargetExponent_of_canonical h)
      · rw [if_neg he]
        exact roundWithAccuracy_eq s h
          (shiftToTargetExponent_of_double h (lt_of_le_of_ne h.le (Ne.symm he)))

theorem div_one (x : Float) : x / Scalar.one = x := by
  calc x / Scalar.one = Float.ofModel (Float.Model.pack
          (div Format.binary64 (unpacked x) (unpacked Scalar.one))) := rfl
    _ = x := by
      rw [unpacked_one, div_one_of_encodes (encodes_unpacked x), ofModel_pack_unpacked]

theorem unpack_pack_zero (s : Sign) :
    unpack Format.binary64 (pack Format.binary64 (.zero s)) = .zero s := by
  cases s <;> rfl

/-- A finite number multiplied by zero is zero. -/
theorem isZero_mul_zero {x : Float} (hx : Scalar.isFinite x = true) :
    Scalar.isZero (x * Scalar.ofNat 0) = true := by
  have hproduct : ∃ s, mul Format.binary64 (unpacked x) (.zero .positive) = .zero s := by
    rw [isFinite_eq] at hx
    cases hu : unpacked x with
    | notANumber => rw [hu] at hx; cases hx
    | infinity s => rw [hu] at hx; cases hx
    | zero s => exact ⟨s * .positive, rfl⟩
    | finite s m e hm => exact ⟨s * .positive, rfl⟩
  obtain ⟨s, hs⟩ := hproduct
  have hmul : unpacked (x * Scalar.ofNat 0) = unpack Format.binary64 (pack Format.binary64
      (mul Format.binary64 (unpacked x) (.zero .positive))) := rfl
  exact (isZero_iff _).mpr ⟨s, by rw [hmul, hs, unpack_pack_zero]⟩

end Double

instance : DescentScalar Float where
  zero_add_of x hx := by
    have hne : Double.unpacked x ≠ .zero .negative := by
      intro heq
      rw [(Double.isNegZero_iff x).mpr heq] at hx
      cases hx
    calc Scalar.zero + x = Float.ofModel (Float.Model.pack
            (.add .binary64 (Double.unpacked Scalar.zero) (Double.unpacked x))) := rfl
      _ = x := by rw [Double.unpacked_zero, Double.zero_add_of_ne hne, Double.ofModel_pack_unpacked]
  div_undecayed rate decay h := by
    have hone : (Scalar.one : Float) + decay * Scalar.ofNat 0 = Scalar.one :=
      NeutralZero.add_of_isZero _ _ rfl (Double.isZero_mul_zero h)
    rw [hone, Double.div_one]

end ChoiceSearch
