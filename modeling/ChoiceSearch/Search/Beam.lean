import ChoiceSearch.Config
import ChoiceSearch.Frontier.KBest
import ChoiceSearch.Log
import ChoiceSearch.Marginals
import ChoiceSearch.Search.Step

/-!
# Beam search

Beam search keeps the `k` best pending states. In a round it takes all of them
out, best first, and advances each by one step; what they offer waits for the
next round. Finished states are collected in a second container of the same
size. The search ends when no state is pending or the round limit is reached.
-/

namespace ChoiceSearch

/-- The containers of a beam search. -/
structure Beam (D κ R : Type) where
  /-- The pending states. -/
  frontier : KBest R (State D κ R)
  /-- The finished states. -/
  finished : KBest R (State D κ R)

namespace Setting

variable {D κ R : Type} [Scalar R]

/-- Offers a state to a container of a beam search. -/
def offerBest (S : Setting D κ R) (queue : KBest R (State D κ R)) (state : State D κ R) :
    KBest R (State D κ R) :=
  match state.scored S.score with
  | some state => queue.push state.logProb state
  | none => queue

/-- Offers the outcome of a step. -/
def takeStep (S : Setting D κ R) (beam : Beam D κ R) : Step D κ R → Beam D κ R
  | .finished state => { beam with finished := S.offerBest beam.finished state }
  | .pending states => { beam with frontier := states.foldl S.offerBest beam.frontier }

/-- Advances states one after the other. -/
def advanceAll (S : Setting D κ R) (beam : Beam D κ R) :
    List (State D κ R) → Result R (Beam D κ R)
  | [] => .ok beam
  | state :: rest => do
    let outcome ← S.step state
    S.advanceAll (S.takeStep beam outcome) rest

/-- One round: every pending state is advanced once. -/
def round (S : Setting D κ R) (beam : Beam D κ R) : Result R (Beam D κ R) :=
  let (entries, frontier) := beam.frontier.drain
  S.advanceAll { beam with frontier } (entries.map (·.2))

/-- The containers before the first round, with the initial state offered. -/
def startBeam (S : Setting D κ R) (size : Nat) (program : Program D κ R) (env : Env D R) :
    Beam D κ R :=
  let (env, supply) := env.settle {}
  let root : State D κ R := .root program [] { env, logProb := Scalar.zero, supply }
  { frontier := S.offerBest (.empty size) root, finished := .empty size }

/-- Whether a limit on the number of rounds, zero for none, is reached. -/
def limitReached (limit rounds : Nat) : Bool :=
  limit != 0 && decide (limit ≤ rounds)

/-- The timer that a beam search runs under. -/
def beamTimer : String := "pnp_beam_search"

/-- Runs rounds until nothing is pending or the limit is reached; yields the
containers and the number of rounds performed. The search leaves a round that
fails at once, so the timer is stopped there; it is left running when the rounds
come to their end. Running out of fuel counts as a failure. -/
def rounds (S : Setting D κ R) (limit : Nat) :
    Nat → Nat → Beam D κ R → Logged R (Result R (Beam D κ R × Nat))
  | 0, _, _ => do
    .emit (.stop beamTimer)
    return .error .outOfFuel
  | fuel + 1, n, beam =>
    if beam.frontier.isEmpty || limitReached limit n then .quiet (.ok (beam, n))
    else do
      .emit (.iterationStart n)
      match S.round beam with
      | .error halt => do
        .emit (.stop beamTimer)
        return .error halt
      | .ok beam => do
        .emit (.statistic n "frontier_size" (Scalar.ofNat beam.frontier.size))
        .emit (.iterationEnd n)
        S.rounds limit fuel (n + 1) beam

end Setting

/-- The execution of a finished state. -/
def State.execution {D κ R : Type} (s : State D κ R) :
    Except (Error R) (Execution (Value D R) D R) := do
  return { value := ← s.program.asValue, env := s.path.env, logProb := s.path.logProb }

/-- The executions collected by a beam search, best first. -/
def Beam.executions {D κ R : Type} (beam : Beam D κ R) :
    Except (Error R) (List (Execution (Value D R) D R)) :=
  beam.finished.toList.mapM fun (_, state) => state.execution

/-- Searches a program for its most probable executions. The timer is stopped
before they are extracted. -/
def Setting.beamSearch {D κ R : Type} [Scalar R] (S : Setting D κ R) (config : SearchConfig)
    (program : Program D κ R) (env : Env D R) :
    Logged R (Result R (Marginals (Value D R) D R)) := do
  let start := S.startBeam config.beamSize program env
  .emit (.start beamTimer)
  match ← S.rounds config.maxIterations S.fuel 0 start with
  | .error halt => return .error halt
  | .ok (beam, iterations) => do
    .emit (.stop beamTimer)
    return do
      let executions ← Result.ofExcept beam.executions
      return { executions, iterations }

end ChoiceSearch
