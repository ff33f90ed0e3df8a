import ChoiceSearch.Decimal.Significant

/-!
# The shortest decimal that reads back

Every finite double is the only double nearest to some decimals with few
digits. `shortestDigits` finds one with the fewest digits and, among those, the
one nearest to the double. The search runs over decimal grids from coarse to
fine and tests, on each grid, the two neighbours of the exact value against
the interval of all numbers that round to the double; the ends of the interval
belong to it when the significand is even.

How the digits are laid out is a matter of style (`DecimalStyle`).
-/

namespace ChoiceSearch

/-- The numbers that round to a double, in units of a power of two. -/
structure RoundingInterval where
  /-- The lower end. -/
  low : Nat
  /-- The double itself. -/
  value : Nat
  /-- The upper end. -/
  high : Nat
  /-- Whether the ends round to the double too. -/
  closed : Bool
  /-- The power of two that is the unit. -/
  unit : Int

/-- The interval of a positive double. Below a power of two the neighbouring
doubles are twice as dense, which halves the distance to the lower end. -/
def RoundingInterval.of (significand : Nat) (exponent : Int) : RoundingInterval where
  low :=
    if significand == Binary.leastNormal && decide (-1074 < exponent) then
      4 * significand - 1
    else 4 * significand - 2
  value := 4 * significand
  high := 4 * significand + 2
  closed := significand % 2 == 0
  unit := exponent - 2

/-- Whether `digits * 10 ^ place` lies in the interval. -/
def RoundingInterval.holds (i : RoundingInterval) (digits : Nat) (place : Int) : Bool :=
  let (tenTop, tenBottom) := scaled digits 10 place
  let (twoTop, twoBottom) := scaled 1 2 i.unit
  let candidate := tenTop * twoBottom
  let low := i.low * twoTop * tenBottom
  let high := i.high * twoTop * tenBottom
  if i.closed then decide (low ≤ candidate ∧ candidate ≤ high)
  else decide (low < candidate ∧ candidate < high)

/-- The interval's decimal on the grid of multiples of `10 ^ place` that is
nearest to the double, if one of the double's two neighbours there lies in the
interval. A tie goes to the larger one. -/
def RoundingInterval.onGrid? (i : RoundingInterval) (place : Int) : Option Nat :=
  let (top, bottom) := scaled i.value 2 i.unit
  let (gridTop, gridBottom) := scaled 1 10 place
  let numerator := top * gridBottom
  let denominator := bottom * gridTop
  let floor := numerator / denominator
  let rest := numerator % denominator
  let below := i.holds floor place
  let above := i.holds (floor + 1) place
  if rest == 0 then some floor
  else if below && above then
    some (if 2 * rest < denominator then floor else floor + 1)
  else if below then some floor
  else if above then some (floor + 1)
  else none

/-- Tries grids from coarse to fine, at most `tries` of them. -/
def RoundingInterval.search (i : RoundingInterval) : Nat → Int → Nat × Int
  | 0, place => ((i.onGrid? place).getD 0, place)
  | tries + 1, place =>
    match i.onGrid? place with
    | some digits => (digits, place)
    | none => i.search tries (place - 1)

/-- The shortest decimal that reads back as a positive double: its digits, none
of them a zero at the end, and the decimal exponent of the first one. -/
def shortestDigits (significand : Nat) (exponent : Int) : List Char × Int :=
  let (numerator, denominator) := scaled significand 2 exponent
  let (digits, place) :=
    (RoundingInterval.of significand exponent).search 17
      (decimalExponent numerator denominator)
  let written := Nat.toDigits 10 digits
  (dropTrailingZeros written, place + (written.length : Int) - 1)

/-- How the digits of a number are laid out. -/
structure DecimalStyle where
  /-- Whether a whole number keeps a zero behind a decimal point. -/
  wholeWithPoint : Bool
  /-- The decimal exponents written in positional notation; `none` for all. -/
  positional : Option (Int × Int)

namespace DecimalStyle

/-- Prose style: positional, and a whole number has no point. -/
def prose : DecimalStyle := ⟨false, none⟩

/-- Literal style: a whole number keeps its point, and numbers below `1e-4` or
from `1e16` on are written in scientific notation. -/
def literal : DecimalStyle := ⟨true, some (-4, 15)⟩

/-- Digits in positional notation; the first one has the given exponent. -/
def positionalText (style : DecimalStyle) (digits : List Char) (exponent : Int) : String :=
  let zeros (n : Int) : List Char := List.replicate n.toNat '0'
  if exponent < 0 then
    "0." ++ String.ofList (zeros (-exponent - 1) ++ digits)
  else
    let whole := digits.take (exponent.toNat + 1)
    let fraction := digits.drop (exponent.toNat + 1)
    let wholeText := String.ofList (whole ++ zeros (exponent + 1 - whole.length))
    if fraction.isEmpty then
      if style.wholeWithPoint then wholeText ++ ".0" else wholeText
    else wholeText ++ "." ++ String.ofList fraction

/-- The text of a double: the shortest decimal that reads back. -/
def text (style : DecimalStyle) (x : Float) : String :=
  match Binary.ofFloat x with
  | .nan => "NaN"
  | .infinite negative => if negative then "-inf" else "inf"
  | .finite negative significand exponent =>
    let sign := if negative then "-" else ""
    if significand == 0 then sign ++ positionalText style ['0'] 0
    else
      let (digits, first) := shortestDigits significand exponent
      let positional :=
        match style.positional with
        | none => true
        | some (least, greatest) => decide (least ≤ first ∧ first ≤ greatest)
      sign ++
        (if positional then positionalText style digits first else scientific digits first)

end DecimalStyle

end ChoiceSearch
