/-!
# The tokens of a JSON text

A strict scanner. Blanks are the space, the tab and the two line ends. A number
has no leading zero and no plus sign; a string has no raw control character,
and its escapes are well formed. An unpaired surrogate escape is allowed, but
the string then has no character content.
-/

namespace ChoiceSearch.Json

/-- A token of a JSON text. -/
inductive Token where
  /-- An opening brace. -/
  | openObject
  /-- A closing brace. -/
  | closeObject
  /-- An opening bracket. -/
  | openArray
  /-- A closing bracket. -/
  | closeArray
  /-- A comma. -/
  | comma
  /-- A colon. -/
  | colon
  /-- The word `null`. -/
  | null
  /-- The word `true` or `false`. -/
  | bool (value : Bool)
  /-- A number, as written. -/
  | number (literal : String)
  /-- A string; without content if a surrogate in it is unpaired. -/
  | string (content : Option String)
deriving DecidableEq

/-- Whether a character separates tokens without being one. -/
def isBlank (c : Char) : Bool :=
  c == ' ' || c == '\t' || c == '\n' || c == '\r'

/-- The value of a hexadecimal digit. -/
def hexValue? (c : Char) : Option Nat :=
  if c.isDigit then some (c.toNat - '0'.toNat)
  else if 'a' ≤ c && c ≤ 'f' then some (c.toNat - 'a'.toNat + 10)
  else if 'A' ≤ c && c ≤ 'F' then some (c.toNat - 'A'.toNat + 10)
  else none

/-- One unit of a string: a character, or half of a surrogate pair. -/
inductive Piece where
  /-- A character. -/
  | char (c : Char)
  /-- A surrogate of the high range, which starts a pair. -/
  | high (unit : Nat)
  /-- A surrogate of the low range, which ends a pair. -/
  | low (unit : Nat)

/-- The piece written by a four-digit escape. -/
def Piece.ofUnit (unit : Nat) : Piece :=
  if 0xD800 ≤ unit && unit < 0xDC00 then .high unit
  else if 0xDC00 ≤ unit && unit < 0xE000 then .low unit
  else .char (Char.ofNat unit)

/-- The character of a one-letter escape. -/
def simpleEscape? (c : Char) : Option Char :=
  match c with
  | '"' => some '"'
  | '\\' => some '\\'
  | '/' => some '/'
  | 'b' => some '\x08'
  | 'f' => some '\x0c'
  | 'n' => some '\n'
  | 'r' => some '\r'
  | 't' => some '\t'
  | _ => none

/-- Reads the pieces of a string up to its closing quote; the pieces read so far
are in reverse. -/
def scanString : List Char → List Piece → Option (List Piece × List Char)
  | '"' :: rest, pieces => some (pieces.reverse, rest)
  | '\\' :: 'u' :: a :: b :: c :: d :: rest, pieces =>
    match hexValue? a, hexValue? b, hexValue? c, hexValue? d with
    | some a, some b, some c, some d =>
      scanString rest (.ofUnit (((a * 16 + b) * 16 + c) * 16 + d) :: pieces)
    | _, _, _, _ => none
  | '\\' :: c :: rest, pieces =>
    match simpleEscape? c with
    | some c => scanString rest (.char c :: pieces)
    | none => none
  | c :: rest, pieces =>
    if c.toNat < 32 || c == '\\' then none else scanString rest (.char c :: pieces)
  | [], _ => none

/-- The characters of a string; `none` if a surrogate is unpaired. -/
def joinPieces : List Piece → Option (List Char)
  | [] => some []
  | .char c :: rest => (joinPieces rest).map (c :: ·)
  | .high h :: .low l :: rest =>
    (joinPieces rest).map
      (Char.ofNat (0x10000 + (h - 0xD800) * 0x400 + (l - 0xDC00)) :: ·)
  | .high _ :: _ => none
  | .low _ :: _ => none

/-- The digits at the front of a text, and the rest. -/
def spanDigits (cs : List Char) : List Char × List Char :=
  cs.span Char.isDigit

/-- The whole part of a number: a lone zero, or digits without a leading zero. -/
def scanWhole? (cs : List Char) : Option (List Char × List Char) :=
  match cs with
  | '0' :: rest => some (['0'], rest)
  | _ =>
    match spanDigits cs with
    | ([], _) => none
    | (digits, rest) => some (digits, rest)

/-- The fraction of a number, if there is one. -/
def scanFraction? (cs : List Char) : Option (List Char × List Char) :=
  match cs with
  | '.' :: rest =>
    match spanDigits rest with
    | ([], _) => none
    | (digits, rest) => some ('.' :: digits, rest)
  | _ => some ([], cs)

/-- The exponent of a number, if there is one. -/
def scanExponent? (cs : List Char) : Option (List Char × List Char) :=
  match cs with
  | [] => some ([], [])
  | e :: rest =>
    if e == 'e' || e == 'E' then
      let (sign, rest) :=
        match rest with
        | '+' :: rest => (['+'], rest)
        | '-' :: rest => (['-'], rest)
        | _ => ([], rest)
      match spanDigits rest with
      | ([], _) => none
      | (digits, rest) => some (e :: sign ++ digits, rest)
    else some ([], cs)

/-- The number at the front of a text. -/
def scanNumber? (cs : List Char) : Option (String × List Char) := do
  let (sign, rest) := match cs with
    | '-' :: rest => (['-'], rest)
    | _ => ([], cs)
  let (whole, rest) ← scanWhole? rest
  let (fraction, rest) ← scanFraction? rest
  let (exponent, rest) ← scanExponent? rest
  return (String.ofList (sign ++ whole ++ fraction ++ exponent), rest)

/-- The token at the front of a text that starts with no blank. -/
def Token.scan? (cs : List Char) : Option (Token × List Char) :=
  match cs with
  | '\x7b' :: rest => some (.openObject, rest)
  | '\x7d' :: rest => some (.closeObject, rest)
  | '[' :: rest => some (.openArray, rest)
  | ']' :: rest => some (.closeArray, rest)
  | ',' :: rest => some (.comma, rest)
  | ':' :: rest => some (.colon, rest)
  | '"' :: rest => do
    let (pieces, rest) ← scanString rest []
    return (.string ((joinPieces pieces).map String.ofList), rest)
  | 'n' :: 'u' :: 'l' :: 'l' :: rest => some (.null, rest)
  | 't' :: 'r' :: 'u' :: 'e' :: rest => some (.bool true, rest)
  | 'f' :: 'a' :: 'l' :: 's' :: 'e' :: rest => some (.bool false, rest)
  | _ => do
    let (literal, rest) ← scanNumber? cs
    return (.number literal, rest)

/-- Scans a text. A token takes at least one character, so as many steps as
there are characters suffice; the tokens read so far are in reverse. -/
def scanTokens : Nat → List Char → List Token → Option (List Token)
  | _, [], tokens => some tokens.reverse
  | 0, _ :: _, _ => none
  | steps + 1, c :: rest, tokens =>
    if isBlank c then scanTokens steps rest tokens
    else
      match Token.scan? (c :: rest) with
      | some (token, rest) => scanTokens steps rest (token :: tokens)
      | none => none

/-- The tokens of a text. -/
def tokens? (text : String) : Option (List Token) :=
  let cs := text.toList
  scanTokens cs.length cs []

end ChoiceSearch.Json
