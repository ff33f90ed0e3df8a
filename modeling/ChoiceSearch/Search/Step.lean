import ChoiceSearch.Frontier.Unbounded
import ChoiceSearch.Search.State

/-!
# Steps of a search

A step advances one state by one transition. Its outcome is a finished state,
or the pending states that continue the search: one for each alternative of a
choice, or one for each result of a collapsed part.

A collapsed part is resolved within the step (`Setting.resolve`): depth first,
on a stack of its own, until every path through it has ended. While a state
waits on that stack its timers are paused. The results are put back onto the
frames outside the collapsed part and have yet to be scored by the queue of the
enclosing search.
-/

namespace ChoiceSearch

/-- The outcome of a step. -/
inductive Step (D κ R : Type) where
  /-- The path has ended. -/
  | finished (state : State D κ R)
  /-- The search continues with these states, offered in this order. -/
  | pending (states : List (State D κ R))

namespace Setting

variable {D κ R : Type} [Scalar R]

/-- Advances a state by one transition; `resolve` yields the results of a
collapsed part. -/
def stepWith (S : Setting D κ R)
    (resolve : Program D κ R → Path D R → Result R (List (State D κ R)))
    (state : State D κ R) : Result R (Step D κ R) := do
  match ← advance S.codes S.graph S.fuel state.program state.stack state.path with
  | .finished value path => return .finished (.finished value path)
  | .choice site alternatives tag stack path =>
    return .pending (State.ofChoice site alternatives tag stack path)
  | .collapsed inner stack path => do
    let results ← resolve inner path
    return .pending (results.map (·.onto stack))

/-- Puts a state on the stack of a collapsed part, paused. -/
def hold (pending : Unbounded R (State D κ R)) (state : State D κ R) :
    Unbounded R (State D κ R) :=
  pending.push state.logProb state.paused

/-- Offers a state to the stack of a collapsed part. -/
def offerHeld (S : Setting D κ R) (pending : Unbounded R (State D κ R))
    (state : State D κ R) : Unbounded R (State D κ R) :=
  match state.scored S.score with
  | some state => hold pending state
  | none => pending

/-- Resolves the states on the stack of a collapsed part, the newest one first;
the results so far are in reverse. The fuel bounds the number of states taken
and the depth of collapsed parts within collapsed parts. -/
def resolveAll (S : Setting D κ R) :
    Nat → Unbounded R (State D κ R) → List (State D κ R) → Result R (List (State D κ R))
  | 0, _, _ => .error .outOfFuel
  | fuel + 1, pending, results =>
    match pending.pop? with
    | none => .ok results.reverse
    | some ((_, state), pending) =>
      let resolve (program : Program D κ R) (path : Path D R) :=
        resolveAll S fuel (hold .empty (.root program [] path)) []
      match S.stepWith resolve state.resumed with
      | .error halt => .error halt
      | .ok (.finished result) => resolveAll S fuel pending (result :: results)
      | .ok (.pending states) => resolveAll S fuel (states.foldl S.offerHeld pending) results

/-- The results of a collapsed part, in the order in which they are found. -/
def resolve (S : Setting D κ R) (program : Program D κ R) (path : Path D R) :
    Result R (List (State D κ R)) :=
  S.resolveAll S.fuel (hold .empty (.root program [] path)) []

/-- Advances a state by one transition. -/
def step (S : Setting D κ R) (state : State D κ R) : Result R (Step D κ R) :=
  S.stepWith S.resolve state

end Setting

end ChoiceSearch
