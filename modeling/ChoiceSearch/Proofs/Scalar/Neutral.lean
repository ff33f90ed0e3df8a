import ChoiceSearch.Proofs.Scalar.Double
import ChoiceSearch.Proofs.Scalar.Exact

/-!
# Neutral zeros

A zero of either sign can be added to a scalar without effect, unless the scalar is
negative zero. Both exact numbers and machine numbers have neutral zeros: a machine number
is what it stands for, packed (`Double.ofModel_pack_unpacked`), and what it stands for is
not changed by adding a zero (`Double.add_zero_of_ne`). Adding minus infinity, on the other
hand, never leads to an admissible log-weight. So zeros and minus infinities can be used to
let states pass and to reject them (`ScreeningScalar`).
-/

namespace ChoiceSearch

/-- Scalars to which zeros can be added without effect. -/
class NeutralZero (R : Type) [Scalar R] : Prop where
  /-- Only negative zero is changed by adding a zero, namely the positive one. -/
  add_of_isZero : ∀ x z : R, Scalar.isNegZero x = false → Scalar.isZero z = true → x + z = x

instance : NeutralZero Exact where
  add_of_isZero x z _ hz := by
    cases z with
    | nan => cases hz
    | negInf => cases hz
    | real r =>
        have hr : ¬ r < 0 ∧ ¬ 0 < r := by
          simpa [Scalar.isZero, Scalar.isNaN, Scalar.less, Exact.less] using hz
        obtain rfl : r = 0 := le_antisymm (not_lt.mp hr.2) (not_lt.mp hr.1)
        exact Exact.sum_zero x

/-- Scalars of which zeros let a log-weight pass and minus infinity rejects it. -/
class ScreeningScalar (R : Type) [Scalar R] : Prop extends NeutralZero R where
  /-- The zero that log-weights start from is one. -/
  isZero_zero : Scalar.isZero (Scalar.zero : R) = true
  /-- No sum with minus infinity is admissible. -/
  not_admissible_add : ∀ x y : R, Scalar.isNegInf y = true → Scalar.admissible (x + y) = false

instance : ScreeningScalar Exact where
  isZero_zero := by simp [Scalar.isZero, Scalar.isNaN, Scalar.less, Exact.less]
  not_admissible_add x y h := by
    have hy : Scalar.admissible y = false := by simp [Scalar.admissible, h]
    rw [Exact.admissible_add, hy, Bool.and_false]

namespace Double

open Float.Model (Format UnpackedFloat)
open Float.Model.UnpackedFloat

theorem ofModel_pack_unpacked (x : Float) :
    Float.ofModel (Float.Model.pack (unpacked x)) = x := by
  obtain ⟨⟨⟨bits⟩, hvalid⟩⟩ := x
  have hpack : pack Format.binary64 (unpack Format.binary64 bits) = bits :=
    pack_unpack_of_valid hvalid
  simp only [unpacked, Float.Model.pack, Float.Model.unpack, hpack]

theorem isNegInf_iff (x : Float) :
    Scalar.isNegInf x = true ↔ unpacked x = .infinity .negative := by
  unfold Scalar.isNegInf
  rw [less_eq_lt, isNaN_eq, isFinite_eq, unpacked_zero]
  cases unpacked x with
  | notANumber => simp [UnpackedFloat.isNaN]
  | infinity s =>
      cases s <;>
        simp [UnpackedFloat.isNaN, UnpackedFloat.isFinite, UnpackedFloat.lt, UnpackedFloat.compare]
  | zero s => simp [UnpackedFloat.isFinite]
  | finite s m e hm => simp [UnpackedFloat.isFinite]

/-- Adding minus infinity leads to minus infinity or to something that is not a number. -/
theorem add_negInf_right (u : UnpackedFloat) :
    add Format.binary64 u (.infinity .negative) = .notANumber ∨
      add Format.binary64 u (.infinity .negative) = .infinity .negative := by
  cases u with
  | notANumber => exact .inl rfl
  | infinity s =>
      cases s with
      | negative => exact .inr rfl
      | positive => exact .inl rfl
  | zero | finite => exact .inr rfl

/-- What a number other than negative zero stands for is not changed by adding a zero. -/
theorem add_zero_of_ne {u : UnpackedFloat} (hu : u ≠ .zero .negative) (s : Sign) :
    add Format.binary64 u (.zero s) = u := by
  cases u with
  | notANumber | infinity | finite => rfl
  | zero s' =>
      cases s' with
      | negative => exact absurd rfl hu
      | positive => cases s <;> rfl

end Double

instance : NeutralZero Float where
  add_of_isZero x z hx hz := by
    obtain ⟨s, hs⟩ := (Double.isZero_iff z).mp hz
    have hne : Double.unpacked x ≠ .zero .negative := by
      intro heq
      rw [(Double.isNegZero_iff x).mpr heq] at hx
      cases hx
    calc x + z = Float.ofModel (Float.Model.pack
            (.add .binary64 (Double.unpacked x) (Double.unpacked z))) := rfl
      _ = x := by rw [hs, Double.add_zero_of_ne hne, Double.ofModel_pack_unpacked]

instance : ScreeningScalar Float where
  isZero_zero := (Double.isZero_iff _).mpr ⟨_, Double.unpacked_zero⟩
  not_admissible_add x y h := by
    rw [← Bool.not_eq_true, Double.admissible_iff, Double.unpacked_add,
      (Double.isNegInf_iff y).mp h]
    rintro ⟨hnumber, hfinite⟩
    rcases Double.add_negInf_right (Double.unpacked x) with hsum | hsum
    · rw [hsum] at hnumber
      exact hnumber rfl
    · rw [hsum] at hfinite
      exact hfinite (Double.unpack_pack_infinity .negative)

end ChoiceSearch
