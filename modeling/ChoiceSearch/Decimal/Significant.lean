import ChoiceSearch.Decimal.Binary

/-!
# Numbers with a fixed count of significant digits

A finite double is rounded, from its exact value, to a given count of
significant decimal digits; a half goes to the even neighbour. It is written
in scientific notation with the zeros at the end of the fraction left out, so
that one half is `5e-1` and minus two is `-2e0`.
-/

namespace ChoiceSearch

/-- The natural number nearest to a fraction; a half goes to the even one. -/
def roundHalfEven (numerator denominator : Nat) : Nat :=
  let floor := numerator / denominator
  let rest := 2 * (numerator % denominator)
  if rest < denominator then floor
  else if denominator < rest then floor + 1
  else floor + floor % 2

/-- A positive fraction rounded to `count` digits: the digits as one natural
number, and the decimal exponent of the first of them. -/
def roundedDigits (count numerator denominator : Nat) : Nat × Int :=
  let exponent := decimalExponent numerator denominator
  let shift : Int := (count : Int) - 1 - exponent
  let digits :=
    roundHalfEven (numerator * Nat.pow 10 shift.toNat)
      (denominator * Nat.pow 10 (-shift).toNat)
  if digits == Nat.pow 10 count then (Nat.pow 10 (count - 1), exponent + 1)
  else (digits, exponent)

/-- Digits without the zeros at their end. -/
def dropTrailingZeros (digits : List Char) : List Char :=
  (digits.reverse.dropWhile (· == '0')).reverse

/-- Digits with a decimal point behind the first one; a lone digit has none. -/
def pointed : List Char → List Char
  | [] => []
  | [d] => [d]
  | d :: rest => d :: '.' :: rest

/-- Digits and the decimal exponent of the first one, in scientific notation. -/
def scientific (digits : List Char) (exponent : Int) : String :=
  String.ofList (pointed digits) ++ "e" ++ toString exponent

/-- A double in scientific notation with `count` significant digits. -/
def significantText (count : Nat) (x : Float) : String :=
  match Binary.ofFloat x with
  | .nan => "nan"
  | .infinite negative => if negative then "-inf" else "inf"
  | .finite negative significand exponent =>
    let sign := if negative then "-" else ""
    if significand == 0 then sign ++ "0e0"
    else
      let (numerator, denominator) := scaled significand 2 exponent
      let (digits, first) := roundedDigits count numerator denominator
      sign ++ scientific (dropTrailingZeros (Nat.toDigits 10 digits)) first

/-- A number whose distance from zero is below `1e-13` counts as zero. -/
def withoutDust (x : Float) : Float :=
  if x.abs < 1e-13 then 0.0 else x

/-- The text of a reported number: twelve significant digits. -/
def reportText (x : Float) : String := significantText 12 x

end ChoiceSearch
