/-!
# Scalars

Weights, log-probabilities, parameters and gradients are scalars. `Scalar`
lists the operations this library uses and states no law about them, so the
same definitions run with machine numbers and can be reasoned about with exact
ones. A scalar may be finite, infinite or not a number at all.

The derived operations fix the conventions that every search shares: which
log-weights are admissible, that a sum starts from negative zero (the neutral
element of addition also for signed zeros), and that the maximum of a list
passes over entries that are not numbers.
-/

namespace ChoiceSearch

/-- The operations on weights, log-probabilities and parameters. -/
class Scalar (R : Type) extends Add R, Sub R, Mul R, Div R, Neg R where
  /-- The number zero. -/
  zero : R
  /-- The number one. -/
  one : R
  /-- Minus infinity, the logarithm of an impossible event. -/
  negInf : R
  /-- The exponential function. -/
  exp : R → R
  /-- The natural logarithm; minus infinity at zero. -/
  log : R → R
  /-- The scalar nearest to a natural number. -/
  ofNat : Nat → R
  /-- Whether the scalar is not a number. -/
  isNaN : R → Bool
  /-- Whether the scalar is a number and not infinite. -/
  isFinite : R → Bool
  /-- Numeric comparison. It is false when either side is not a number, and the
  two zeros are equal. -/
  less : R → R → Bool
  /-- The strict total order used for sorting. It agrees with `less` on numbers
  that differ, and puts negative zero below positive zero. -/
  below : R → R → Bool

namespace Scalar

variable {R : Type} [Scalar R]

/-- Whether a scalar is minus infinity. -/
def isNegInf (x : R) : Bool :=
  !isNaN x && !isFinite x && less x zero

/-- Whether a scalar is numerically zero, of either sign. -/
def isZero (x : R) : Bool :=
  !isNaN x && !less x zero && !less zero x

/-- Whether two scalars are equal as numbers. -/
def same (x y : R) : Bool :=
  !isNaN x && !isNaN y && !less x y && !less y x

/-- A log-weight is admissible when it can belong to a surviving path: it is a
number and not minus infinity. -/
def admissible (x : R) : Bool :=
  !(isNaN x || isNegInf x)

/-- The scalar of an integer. -/
def ofInt : Int → R
  | .ofNat n => ofNat n
  | .negSucc n => -(ofNat (n + 1))

/-- The larger of two scalars; a side that is not a number loses. -/
def larger (x y : R) : R :=
  if isNaN x then y
  else if isNaN y then x
  else if less x y then y
  else x

/-- The sum of a list, added from the left. -/
def sum (xs : List R) : R :=
  xs.foldl (· + ·) (-zero)

/-- The largest number of a list; minus infinity if there is none. -/
def maximum (xs : List R) : R :=
  xs.foldl larger negInf

/-- The logarithm of a sum of exponentials. The largest term is factored out,
so that large terms do not overflow; an empty sum has logarithm minus
infinity. -/
def logSumExp (xs : List R) : R :=
  let top := maximum xs
  if isNegInf top then negInf
  else top + log (sum (xs.map fun x => exp (x - top)))

/-- The logarithms of the softmax probabilities of a vector. -/
def logSoftmax (xs : List R) : List R :=
  let total := logSumExp xs
  xs.map (· - total)

end Scalar

end ChoiceSearch
