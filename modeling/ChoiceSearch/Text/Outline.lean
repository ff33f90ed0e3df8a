import ChoiceSearch.Env
import ChoiceSearch.Text.Quoted

/-!
# Outlines

The outline of an expression or an environment is a text for people to read. It
names every part and quotes every name. The values of variables and what timers
measured are not part of it.
-/

namespace ChoiceSearch

namespace Text

/-- A list of texts in brackets. -/
def bracketed (items : List String) : String :=
  "[" ++ ", ".intercalate items ++ "]"

/-- A constructor with its arguments. -/
def applied (name : String) (args : List String) : String :=
  name ++ "(" ++ ", ".intercalate args ++ ")"

/-- A record with its fields. -/
def fielded (name : String) (fields : List (String × String)) : String :=
  name ++ " \x7b " ++ ", ".intercalate (fields.map fun (field, text) => field ++ ": " ++ text)
    ++ " \x7d"

end Text

open Text

namespace Expr

mutual

/-- The outline of an expression; `scalarText` writes a scalar. -/
def outline {R : Type} (scalarText : R → String) : Expr R → String
  | .parameter name => applied "Parameter" [quoted name]
  | .constant values => applied "Constant" [bracketed (values.map scalarText)]
  | .pick vector index => applied "Pick" [outline scalarText vector, toString index]
  | .logSoftmax vector => applied "LogSoftmax" [outline scalarText vector]
  | .add left right => applied "Add" [outline scalarText left, outline scalarText right]
  | .neg vector => applied "Neg" [outline scalarText vector]
  | .logSumExp terms => applied "LogSumExp" [bracketed (outlines scalarText terms)]

/-- The outlines of several expressions. -/
def outlines {R : Type} (scalarText : R → String) : List (Expr R) → List String
  | [] => []
  | term :: rest => outline scalarText term :: outlines scalarText rest

end

end Expr

/-- The outline of a label. -/
def ChoiceLabel.outline (l : ChoiceLabel) : String :=
  fielded "ChoiceLabel" [("parameter", quoted l.parameter), ("index", toString l.index)]

/-- The outline of an environment. The variables are listed in the byte order of
their names. -/
def Env.outline {D R : Type} (e : Env D R) : String :=
  fielded "Env"
    [("vars", bracketed (e.vars.sorted.map fun (name, _) => quoted name)),
      ("labels", bracketed (e.labels.map (·.outline))),
      ("active_timers", bracketed (e.timers.activeNames.map quoted))]

end ChoiceSearch
