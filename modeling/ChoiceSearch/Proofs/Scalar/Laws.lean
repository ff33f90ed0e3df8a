import ChoiceSearch.Scalar

/-!
# Laws of scalars

The laws of addition and comparison on which the searches rely. They hold for
exact numbers with infinities and for machine numbers alike: a sum never recovers
from minus infinity or from something that is not a number, the sorting order is
a total preorder that agrees with the numeric one away from negative zero, and
no sum turns into negative zero. For all scalars of this library the sorting order
is even a linear one (`OrderedScalar`).
-/

namespace ChoiceSearch

namespace Scalar

/-- Whether a scalar is the negative one of the two zeros. -/
def isNegZero {R : Type} [Scalar R] (x : R) : Bool :=
  isZero x && below x zero

/-- Whether the numeric order and the sorting order agree on a scalar: it is a
number and not negative zero. -/
def isPlainNumber {R : Type} [Scalar R] (x : R) : Bool :=
  !isNaN x && !isNegZero x

end Scalar

open Scalar

/-- Scalars whose addition and order behave as those of floating-point numbers. -/
class LawfulScalar (R : Type) [Scalar R] : Prop where
  /-- What is not admissible stays so. -/
  admissible_of_add : ∀ x y : R, admissible (x + y) = true → admissible x = true
  /-- Only negative zeros sum up to negative zero. -/
  isNegZero_of_add : ∀ x y : R, isNegZero (x + y) = true → isNegZero x = true
  /-- The sorting order is strict. -/
  below_asymm : ∀ x y : R, below x y = true → below y x = false
  /-- The sorting order is total up to ties. -/
  below_split : ∀ x y z : R, below x z = true → below x y = true ∨ below y z = true
  /-- The two orders agree on plain numbers. -/
  less_eq_below : ∀ x y : R, isPlainNumber x = true → isPlainNumber y = true →
    less x y = below x y

/-- Lawful scalars that the sorting order tells apart. -/
class OrderedScalar (R : Type) [Scalar R] : Prop extends LawfulScalar R where
  /-- The sorting order has no ties. -/
  eq_of_not_below : ∀ x y : R, below x y = false → below y x = false → x = y

namespace Scalar

variable {R : Type} [Scalar R]

theorem isNaN_of_admissible {x : R} (h : admissible x = true) : isNaN x = false := by
  cases hx : isNaN x with
  | false => rfl
  | true => simp [admissible, hx] at h

theorem isPlainNumber_of_admissible {x : R} (h : admissible x = true)
    (hz : isNegZero x = false) : isPlainNumber x = true := by
  simp [isPlainNumber, isNaN_of_admissible h, hz]

variable [LawfulScalar R]

theorem below_irrefl (x : R) : below x x = false := by
  cases h : below x x with
  | false => rfl
  | true => rw [LawfulScalar.below_asymm x x h] at h; cases h

/-- Runs start from a zero that is not the negative one. -/
theorem isNegZero_zero : isNegZero (zero : R) = false := by
  simp [isNegZero, below_irrefl]

theorem isNegZero_add {x : R} (y : R) (h : isNegZero x = false) :
    isNegZero (x + y) = false := by
  cases hxy : isNegZero (x + y) with
  | false => rfl
  | true => rw [LawfulScalar.isNegZero_of_add x y hxy] at h; cases h

/-- Being at least as good is transitive. -/
theorem below_trans_not {x y z : R} (hxy : below x y = false) (hyz : below y z = false) :
    below x z = false := by
  cases h : below x z with
  | false => rfl
  | true =>
      rcases LawfulScalar.below_split x y z h with h' | h'
      · rw [hxy] at h'; cases h'
      · rw [hyz] at h'; cases h'

end Scalar

end ChoiceSearch
