import ChoiceSearch.Proofs.Scalar.Exact

/-!
# Scalars that contain the reals

Exact arithmetic, as far as a gradient needs it: the real numbers are scalars, and the
operations of scalars are exact on them. Nothing is said about the exponential function
but that it maps reals to reals, and nothing at all about the logarithm.
-/

namespace ChoiceSearch

/-- Scalars among which the real numbers are, with their exact arithmetic. -/
class RealScalar (R : Type) [Scalar R] where
  /-- A real number as a scalar. -/
  real : ℝ → R
  /-- A scalar as a real number, if it is one. -/
  toReal : R → ℝ
  /-- What the exponential function is on real numbers. -/
  realExp : ℝ → ℝ
  toReal_real : ∀ x, toReal (real x) = x
  zero_eq : Scalar.zero = real 0
  one_eq : Scalar.one = real 1
  real_add : ∀ x y, real x + real y = real (x + y)
  real_sub : ∀ x y, real x - real y = real (x - y)
  real_mul : ∀ x y, real x * real y = real (x * y)
  real_neg : ∀ x, -real x = real (-x)
  exp_real : ∀ x, Scalar.exp (real x) = real (realExp x)
  isNegInf_real : ∀ x, Scalar.isNegInf (real x) = false
  /-- Zero is neutral, whatever it is added to. -/
  add_real_zero : ∀ x : R, x + real 0 = x

namespace RealScalar

attribute [simp] toReal_real real_add real_sub real_mul real_neg exp_real isNegInf_real

variable {R : Type} [Scalar R] [RealScalar R]

@[simp] theorem map_toReal_real (xs : List ℝ) : (xs.map (real : ℝ → R)).map toReal = xs := by
  simp [Function.comp_def]

/-- Real numbers are summed up in the reals. -/
theorem sum_real (xs : List ℝ) : Scalar.sum (xs.map (real : ℝ → R)) = real xs.sum := by
  suffices hfold : ∀ start, (xs.map (real : ℝ → R)).foldl (· + ·) (real start) =
      real (start + xs.sum) by
    rw [Scalar.sum, zero_eq, real_neg, hfold, neg_zero, zero_add]
  induction xs with
  | nil => intro start; simp
  | cons x xs ih =>
      intro start
      rw [List.map_cons, List.foldl_cons, real_add, ih, List.sum_cons, add_assoc]

end RealScalar

noncomputable instance : RealScalar Exact where
  real := .real
  toReal := Exact.toReal
  realExp := Real.exp
  toReal_real _ := rfl
  zero_eq := rfl
  one_eq := rfl
  real_add _ _ := rfl
  real_sub _ _ := rfl
  real_mul _ _ := rfl
  real_neg _ := rfl
  exp_real _ := rfl
  isNegInf_real _ := by simp [Scalar.isNegInf, Scalar.isFinite]
  add_real_zero := Exact.sum_zero

end ChoiceSearch
