import ChoiceSearch.Scalar

/-!
# Double-precision scalars

The machine numbers as scalars. The total order compares bit patterns: the
patterns of non-negative numbers are moved above those of negative ones, and
the latter are turned around, after which the order of the patterns is the
order of the numbers.
-/

namespace ChoiceSearch

/-- The position of a double in the total order of all doubles. -/
def doubleRank (x : Float) : UInt64 :=
  let bits := x.toBits
  if bits >>> 63 == 1 then ~~~bits else bits ||| 0x8000000000000000

instance : Scalar Float where
  zero := 0.0
  one := 1.0
  negInf := -(1.0 / 0.0)
  exp := Float.exp
  log := Float.log
  ofNat := Float.ofNat
  isNaN := Float.isNaN
  isFinite := Float.isFinite
  less x y := decide (x < y)
  below x y := decide (doubleRank x < doubleRank y)

end ChoiceSearch
