/-!
# JSON documents

A JSON value with exactly the information its text carries: a number keeps its
digits as they are written, and an object keeps its members in order, repeated
names included. A string whose text holds an unpaired surrogate has no
character content, so the content of a string is optional.

`Json.render` writes a document without blanks.
-/

namespace ChoiceSearch

/-- A JSON value. -/
inductive Json where
  /-- The value `null`. -/
  | null
  /-- A truth value. -/
  | bool (value : Bool)
  /-- A number, as written. -/
  | number (literal : String)
  /-- A string; without content if a surrogate in it is unpaired. -/
  | string (content : Option String)
  /-- A list of values. -/
  | array (items : List Json)
  /-- The members of an object, in order. -/
  | object (members : List (Option String × Json))
deriving Inhabited

namespace Json

/-- The string with the given content. -/
def text (content : String) : Json := .string (some content)

/-- The number of a natural. -/
def nat (n : Nat) : Json := .number (toString n)

/-- The number of an integer. -/
def int (n : Int) : Json := .number (toString n)

/-- The object with the given members. -/
def record (members : List (String × Json)) : Json :=
  .object (members.map fun (name, value) => (some name, value))

/-- A character inside a string. Quotes, backslashes and controls are escaped. -/
def escaped (c : Char) : List Char :=
  if c == '"' then ['\\', '"']
  else if c == '\\' then ['\\', '\\']
  else if c == '\n' then ['\\', 'n']
  else if c == '\r' then ['\\', 'r']
  else if c == '\t' then ['\\', 't']
  else if c.toNat < 32 then
    let hex := Nat.toDigits 16 c.toNat
    ['\\', 'u'] ++ List.replicate (4 - hex.length) '0' ++ hex
  else [c]

/-- A quoted string. -/
def quoted (content : String) : String :=
  "\"" ++ String.ofList (content.toList.flatMap escaped) ++ "\""

mutual

/-- Writes a value without blanks. -/
def render : Json → String
  | .null => "null"
  | .bool value => if value then "true" else "false"
  | .number literal => literal
  | .string content => quoted (content.getD "")
  | .array items => "[" ++ ",".intercalate (renderAll items) ++ "]"
  | .object members => "\x7b" ++ ",".intercalate (renderMembers members) ++ "\x7d"

/-- Writes the items of an array. -/
def renderAll : List Json → List String
  | [] => []
  | item :: rest => render item :: renderAll rest

/-- Writes the members of an object. -/
def renderMembers : List (Option String × Json) → List String
  | [] => []
  | (name, value) :: rest =>
    (quoted (name.getD "") ++ ":" ++ render value) :: renderMembers rest

end

/-- The first member of an object with the given name. -/
def member? (name : String) : Json → Option Json
  | .object members => members.lookup (some name)
  | _ => none

/-- The largest number of the 64-bit size range. -/
def maxSize : Nat := 0xFFFFFFFFFFFFFFFF

/-- A natural number in the 64-bit size range, written without sign, point or
exponent. -/
def size? : Json → Option Nat
  | .number literal =>
    if literal.toList.all Char.isDigit then do
      let n ← literal.toNat?
      if n ≤ maxSize then some n else none
    else none
  | _ => none

end Json

end ChoiceSearch
