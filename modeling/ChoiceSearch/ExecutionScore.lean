import ChoiceSearch.Env

/-!
# Execution scores

An execution score gives a log-weight to every state that a search is offered,
from the tag and the value of the choice that led to it and from its
environment. A state that no choice led to (the initial state, a finished
result, the result of a collapsed part) has neither tag nor value. Minus
infinity rejects the state.
-/

namespace ChoiceSearch

/-- A log-weight for every offered state. -/
abbrev ExecutionScore (D R : Type) := Option D → Option D → Env D R → R

namespace ExecutionScore

variable {D R : Type} [Scalar R]

/-- The score that leaves every weight as it is. -/
def zero : ExecutionScore D R := fun _ _ _ => Scalar.zero

/-- The score that rejects the states whose environment fails a test. -/
def filter (accepts : Env D R → Bool) : ExecutionScore D R := fun _ _ env =>
  if accepts env then Scalar.zero else Scalar.negInf

/-- The score of choices whose tag and value are of the given kinds; any other
state scores zero. -/
def tagged {T V : Type} (tagOf : D → Option T) (valueOf : D → Option V)
    (score : T → V → Env D R → R) : ExecutionScore D R := fun tag choice env =>
  match tag.bind tagOf, choice.bind valueOf with
  | some t, some v => score t v env
  | _, _ => Scalar.zero

/-- The sum of two scores. A state that the left one rejects is not shown to the
right one. -/
def add (left right : ExecutionScore D R) : ExecutionScore D R := fun tag choice env =>
  let weight := left tag choice env
  if Scalar.isNegInf weight then weight else weight + right tag choice env

end ExecutionScore

end ChoiceSearch
