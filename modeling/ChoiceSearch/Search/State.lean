import ChoiceSearch.ExecutionScore
import ChoiceSearch.Transition

/-!
# Search states

A search state is a suspended path: a program, the frames that wait for its
value, what the path carries, and the choice that led to it. A search offers
states to queues, and every queue adds the execution score to the log-weight of
an offered state and drops it if the sum is not admissible (`State.scored`).
-/

namespace ChoiceSearch

/-- The choice that produced a state: a named choice, the stack its item was
handed to, and the alternative taken. -/
structure Site where
  /-- The name of the choice. -/
  node : Nat
  /-- The identifier of the stack. -/
  stack : Option Ident
  /-- The alternative taken. -/
  index : Nat
deriving DecidableEq, Repr, Inhabited

/-- A suspended path. -/
structure State (D κ R : Type) where
  /-- The program in focus. -/
  program : Program D κ R
  /-- The frames that wait for its value. -/
  stack : List (Frame κ)
  /-- What the path carries. -/
  path : Path D R
  /-- The tag of the choice that led here. -/
  tag : Option D
  /-- The item chosen there. -/
  choice : Option D
  /-- The site of that choice, if it is named. -/
  site : Option Site

/-- What a search is run under. -/
structure Setting (D κ R : Type) where
  /-- The meaning of the codes. -/
  codes : Codes D κ R
  /-- The computation graph. -/
  graph : GraphView R
  /-- The execution score. -/
  score : ExecutionScore D R
  /-- A bound on the steps of every loop. -/
  fuel : Nat

namespace State

variable {D κ R : Type}

/-- A state that no choice led to. -/
def root (program : Program D κ R) (stack : List (Frame κ)) (path : Path D R) :
    State D κ R :=
  { program, stack, path, tag := none, choice := none, site := none }

/-- The state of a final value. -/
def finished (value : Value D R) (path : Path D R) : State D κ R :=
  root (.value value) [] path

/-- The state with other frames, produced by no named choice. -/
def onto (s : State D κ R) (stack : List (Frame κ)) : State D κ R :=
  { s with stack, site := none }

/-- The logarithm of the weight of the path. -/
def logProb (s : State D κ R) : R := s.path.logProb

/-- The state with its timers paused. -/
def paused (s : State D κ R) : State D κ R :=
  { s with path := { s.path with env := s.path.env.pauseTimers } }

/-- The state with its timers resumed. -/
def resumed (s : State D κ R) : State D κ R :=
  { s with path := { s.path with env := s.path.env.resumeTimers } }

variable [Scalar R]

/-- The states of the alternatives of a choice, in order. -/
def ofChoice (site : Option Nat) (alternatives : List (Alternative D R)) (tag : Option D)
    (stack : List (Frame κ)) (path : Path D R) : List (State D κ R) :=
  alternatives.mapIdx fun index alternative =>
    { program := .value (.data alternative.item)
      stack
      path :=
        { env := alternative.env
          logProb := path.logProb + alternative.logWeight
          supply := path.supply.branch index }
      tag
      choice := some alternative.item
      site := site.map fun node => { node, stack := stackId stack, index } }

/-- The state with the execution score added, unless the score rejects it. -/
def scored (score : ExecutionScore D R) (s : State D κ R) : Option (State D κ R) :=
  let logProb := s.path.logProb + score s.tag s.choice s.path.env
  if Scalar.admissible logProb then some { s with path := { s.path with logProb } }
  else none

end State

end ChoiceSearch
