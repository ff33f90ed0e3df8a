import ChoiceSearch.Text.Printable

/-!
# Quoted text

Text between double quotes, on one line. A quote and a backslash are escaped by
a backslash, four control characters have a letter of their own, and any other
character that does not show as itself is written by its code.
-/

namespace ChoiceSearch.Text

/-- A character inside quotes. -/
def quotedChar (c : Char) : List Char :=
  if c == '"' then ['\\', '"']
  else if c == '\\' then ['\\', '\\']
  else if c == '\n' then ['\\', 'n']
  else if c == '\r' then ['\\', 'r']
  else if c == '\t' then ['\\', 't']
  else if c == '\x00' then ['\\', '0']
  else if isPlain c then [c]
  else ['\\', 'u', '\x7b'] ++ Nat.toDigits 16 c.toNat ++ ['\x7d']

/-- A text between quotes. -/
def quoted (s : String) : String :=
  "\"" ++ String.ofList (s.toList.flatMap quotedChar) ++ "\""

end ChoiceSearch.Text
