import ChoiceSearch.Decimal.Binary

/-!
# Reading decimal numerals

A numeral is an optional sign, digits with at most one point among them, and an
optional decimal exponent; `inf`, `infinity` and `nan` are numerals too, in any
case of their letters. It denotes the double nearest to its exact value.
-/

namespace ChoiceSearch

/-- The value of a digit character. -/
def digitValue? (c : Char) : Option Nat :=
  if c.isDigit then some (c.toNat - '0'.toNat) else none

/-- The number written by a list of digits; `none` if another character is among
them. The empty list writes zero. -/
def digitsValue? (cs : List Char) : Option Nat :=
  cs.foldl (fun total c => do return 10 * (← total) + (← digitValue? c)) (some 0)

/-- An unsigned numeral: `digits`, with the point `places` from their right end,
times ten to the `exponent`. -/
structure Numeral where
  /-- The digits before and behind the point. -/
  digits : Nat
  /-- How many digits stand behind the point. -/
  places : Nat
  /-- The decimal exponent. -/
  exponent : Int

namespace Numeral

/-- Splits a list at the first element that passes a test; the element itself is
left out. -/
def splitAtFirst (p : Char → Bool) (cs : List Char) : List Char × Option (List Char) :=
  match cs.span (!p ·) with
  | (left, []) => (left, none)
  | (left, _ :: right) => (left, some right)

/-- A sign and what follows it. -/
def signed (cs : List Char) : Bool × List Char :=
  match cs with
  | '-' :: rest => (true, rest)
  | '+' :: rest => (false, rest)
  | rest => (false, rest)

/-- Reads an unsigned numeral of digits. -/
def ofChars? (cs : List Char) : Option Numeral := do
  let (mantissa, exponentPart) := splitAtFirst (fun c => c == 'e' || c == 'E') cs
  let (whole, fractionPart) := splitAtFirst (· == '.') mantissa
  let fraction := fractionPart.getD []
  if whole.isEmpty && fraction.isEmpty then failure
  let digits ← digitsValue? (whole ++ fraction)
  let exponent ← match exponentPart with
    | none => some 0
    | some text => do
      let (negative, magnitude) := signed text
      if magnitude.isEmpty then failure
      let size ← digitsValue? magnitude
      some (if negative then -(size : Int) else (size : Int))
  return { digits, places := fraction.length, exponent }

/-- The double nearest to the numeral. Exponents far outside the range of
doubles are decided without computing the power of ten. -/
def toFloat (n : Numeral) : Float :=
  let exponent := n.exponent - n.places
  let size := (Nat.toDigits 10 n.digits).length
  if n.digits == 0 then 0.0
  else if 400 < exponent + size then 1.0 / 0.0
  else if exponent + size < -400 then 0.0
  else if 0 ≤ exponent then Float.ofScientific n.digits false exponent.toNat
  else Float.ofScientific n.digits true (-exponent).toNat

end Numeral

/-- Reads a numeral. -/
def readNumeral? (text : String) : Option Float := do
  let (negative, rest) := Numeral.signed text.toList
  let word := String.ofList (rest.map Char.toLower)
  let size ←
    if word == "inf" || word == "infinity" then some (1.0 / 0.0)
    else if word == "nan" then some (0.0 / 0.0)
    else (Numeral.ofChars? rest).map Numeral.toFloat
  return if negative then -size else size

end ChoiceSearch
