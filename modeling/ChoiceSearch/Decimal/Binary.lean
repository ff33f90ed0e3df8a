/-!
# The exact value of a double

Decimal texts are computed from the exact value of a number. `Binary.ofFloat`
reads the bit pattern of a double: a finite one is a natural significand times
a power of two, with a sign that zero has too.
-/

namespace ChoiceSearch

/-- The value of a double. -/
inductive Binary where
  /-- Not a number. -/
  | nan
  /-- An infinity. -/
  | infinite (negative : Bool)
  /-- The number `significand * 2 ^ exponent`, with a sign. -/
  | finite (negative : Bool) (significand : Nat) (exponent : Int)
deriving Repr, DecidableEq, Inhabited

namespace Binary

/-- The least significand of a normal double, two to the 52. The doubles below one
with this significand lie on a finer grid. -/
def leastNormal : Nat := 0x10000000000000

/-- Reads the bit pattern of a double: from the top a sign bit, eleven bits of the
exponent and 52 bits of the significand. -/
def ofFloat (x : Float) : Binary :=
  let bits := x.toBits.toNat
  let negative := bits / leastNormal / 2048 == 1
  let exponent : Nat := bits / leastNormal % 2048
  let fraction : Nat := bits % leastNormal
  if exponent == 2047 then
    if fraction == 0 then .infinite negative else .nan
  else if exponent == 0 then .finite negative fraction (-1074)
  else .finite negative (leastNormal + fraction) ((exponent : Int) - 1075)

end Binary

/-- A fraction `numerator / denominator` equal to `m * base ^ e`. -/
def scaled (m base : Nat) (e : Int) : Nat × Nat :=
  (m * Nat.pow base e.toNat, Nat.pow base (-e).toNat)

/-- The decimal exponent of a positive fraction: the `k` for which it is at
least `10 ^ k` and less than `10 ^ (k + 1)`. -/
def decimalExponent (numerator denominator : Nat) : Int :=
  if denominator ≤ numerator then
    ((Nat.toDigits 10 (numerator / denominator)).length : Int) - 1
  else
    -((Nat.toDigits 10 ((denominator - 1) / numerator)).length : Int)

end ChoiceSearch
