import ChoiceSearch.Json.Document
import ChoiceSearch.Json.Token

/-!
# Reading JSON documents

The reader goes through the tokens once and keeps the arrays and objects that
are still open on a stack of its own, so that a document may be nested to any
depth.
-/

namespace ChoiceSearch.Json

/-- An array or object that is still open, its parts in reverse. -/
inductive Pending where
  /-- An array and its items so far. -/
  | array (items : List Json)
  /-- An object, its members so far, and the name of the one being read. -/
  | object (members : List (Option String × Json)) (name : Option String)

/-- What the grammar asks for next. -/
inductive Expect where
  /-- A value. -/
  | value
  /-- A value or the end of the array just opened. -/
  | firstItem
  /-- A name or the end of the object just opened. -/
  | firstName
  /-- A name. -/
  | name
  /-- The colon behind a name. -/
  | colon (name : Option String)
  /-- A comma, or the end of the innermost open array or object. -/
  | separator
  /-- The end of the text. -/
  | done (document : Json)

/-- Where a complete value goes: into the innermost open array or object, or it
is the document. -/
def deliver (value : Json) : List Pending → Expect × List Pending
  | [] => (.done value, [])
  | .array items :: outer => (.separator, .array (value :: items) :: outer)
  | .object members name :: outer => (.separator, .object ((name, value) :: members) name :: outer)

/-- The value that a token starts, or completes at once. -/
def startValue (token : Token) (stack : List Pending) : Option (Expect × List Pending) :=
  match token with
  | .null => some (deliver .null stack)
  | .bool value => some (deliver (.bool value) stack)
  | .number literal => some (deliver (.number literal) stack)
  | .string content => some (deliver (.string content) stack)
  | .openArray => some (.firstItem, .array [] :: stack)
  | .openObject => some (.firstName, .object [] none :: stack)
  | _ => none

/-- One token of the reader. -/
def consume (expect : Expect) (token : Token) (stack : List Pending) :
    Option (Expect × List Pending) :=
  match expect, token, stack with
  | .value, token, stack => startValue token stack
  | .firstItem, .closeArray, .array items :: outer => some (deliver (.array items.reverse) outer)
  | .firstItem, token, stack => startValue token stack
  | .firstName, .closeObject, .object members _ :: outer =>
    some (deliver (.object members.reverse) outer)
  | .firstName, .string name, stack => some (.colon name, stack)
  | .name, .string name, stack => some (.colon name, stack)
  | .colon name, .colon, .object members _ :: outer =>
    some (.value, .object members name :: outer)
  | .separator, .comma, .array items :: outer => some (.value, .array items :: outer)
  | .separator, .comma, .object members name :: outer =>
    some (.name, .object members name :: outer)
  | .separator, .closeArray, .array items :: outer => some (deliver (.array items.reverse) outer)
  | .separator, .closeObject, .object members _ :: outer =>
    some (deliver (.object members.reverse) outer)
  | _, _, _ => none

/-- Reads the document written by a list of tokens. -/
def readTokens : Expect → List Token → List Pending → Option Json
  | .done document, [], _ => some document
  | _, [], _ => none
  | expect, token :: rest, stack =>
    match consume expect token stack with
    | some (expect, stack) => readTokens expect rest stack
    | none => none

/-- Reads a JSON text. -/
def read? (text : String) : Option Json := do
  readTokens .value (← tokens? text) []

end ChoiceSearch.Json
