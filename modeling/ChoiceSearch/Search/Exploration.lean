import ChoiceSearch.Log
import ChoiceSearch.Search.Step

/-!
# Exploring the choice graph

Sum-product search explores the reachable states depth first and builds a
graph. A vertex is a state; an edge leads to each state that its expansion
offers, with the log-weight of that step alone. Offered states with the same
key (the same alternative of the same choice, resumed on the same stack under
the same variables) share one vertex. An edge into a vertex that is still being
explored closes a cycle and ends the exploration.

The graph built so far is part of every outcome, also of a failed one.
-/

namespace ChoiceSearch

/-- What makes two offered states share a vertex. -/
structure VertexKey where
  /-- The alternative that was taken. -/
  site : Site
  /-- The version of the variables. -/
  version : Option Ident
deriving DecidableEq, Repr

/-- How far the exploration of a vertex has come. -/
inductive Stage (D κ R : Type) where
  /-- Discovered and waiting to be expanded. -/
  | pending (state : State D κ R)
  /-- On the current depth-first path. -/
  | active
  /-- Explored with everything behind it. -/
  | done
  /-- A finished state, which has nothing behind it. -/
  | terminal (state : State D κ R)

/-- An edge of the choice graph. -/
structure Edge (R : Type) where
  /-- The vertex that the edge leads to. -/
  target : Nat
  /-- The log-weight of the step. -/
  logWeight : R

/-- A vertex of the choice graph. -/
structure Vertex (D κ R : Type) where
  /-- The key, if the vertex can be shared. -/
  key : Option VertexKey
  /-- How far its exploration has come. -/
  stage : Stage D κ R
  /-- The edges to its successors, in the order of their discovery. -/
  edges : List (Edge R) := []

/-- An entry of the depth-first stack. -/
inductive Visit where
  /-- Expand the vertex, if it is still waiting. -/
  | enter (vertex : Nat)
  /-- Everything behind the vertex is explored. -/
  | leave (vertex : Nat)

/-- The state of an exploration. -/
structure Exploration (D κ R : Type) where
  /-- The vertices, in the order of their discovery. -/
  vertices : Array (Vertex D κ R) := #[]
  /-- The depth-first stack. -/
  stack : List Visit := []
  /-- The number of vertices expanded. -/
  expansions : Nat := 0

/-- How an exploration ended. -/
inductive Ending (R : Type) where
  /-- Every vertex is explored. -/
  | complete
  /-- The limit on the number of expansions was reached. -/
  | truncated
  /-- An edge into an active vertex was found. -/
  | cyclic (vertex : Nat)
  /-- A transition failed or was cut off. -/
  | halted (halt : Halt R)

/-- The key of an offered state, if it has a named site. -/
def State.vertexKey {D κ R : Type} (s : State D κ R) : Option VertexKey :=
  s.site.map fun site => { site, version := s.path.env.version }

namespace Exploration

variable {D κ R : Type}

/-- How far the exploration of a vertex has come. -/
def stage? (x : Exploration D κ R) (vertex : Nat) : Option (Stage D κ R) :=
  x.vertices[vertex]?.map (·.stage)

/-- Whether a vertex is on the current depth-first path. -/
def isActive (x : Exploration D κ R) (vertex : Nat) : Bool :=
  match x.stage? vertex with
  | some .active => true
  | _ => false

/-- The vertex with the given key. -/
def find? (x : Exploration D κ R) (key : VertexKey) : Option Nat :=
  x.vertices.findIdx? fun v => v.key == some key

/-- Changes the stage of a vertex. -/
def setStage (x : Exploration D κ R) (vertex : Nat) (stage : Stage D κ R) :
    Exploration D κ R :=
  { x with vertices := x.vertices.modify vertex fun v => { v with stage } }

/-- Adds an edge from a vertex. -/
def addEdge (x : Exploration D κ R) (source target : Nat) (logWeight : R) :
    Exploration D κ R :=
  { x with vertices := x.vertices.modify source fun v =>
      { v with edges := v.edges ++ [{ target, logWeight }] } }

/-- Adds a vertex that waits to be expanded. -/
def addPending (x : Exploration D κ R) (state : State D κ R) : Exploration D κ R :=
  let vertex := x.vertices.size
  { x with
    vertices := x.vertices.push { key := state.vertexKey, stage := .pending state }
    stack := .enter vertex :: x.stack }

/-- Adds a finished vertex. -/
def addTerminal (x : Exploration D κ R) (state : State D κ R) : Exploration D κ R :=
  { x with vertices := x.vertices.push { key := none, stage := .terminal state } }

/-- Adds the edge to a finished state, which is a vertex of its own. -/
def linkTerminal (x : Exploration D κ R) (source : Nat) (state : State D κ R) :
    Exploration D κ R :=
  let target := x.vertices.size
  (x.addTerminal state).addEdge source target state.logProb

/-- Adds the edge to a pending state: to the vertex with its key, if there is
one, and else to a new vertex. Also yields the vertex that the edge leads to if
that one is active. -/
def linkPending (x : Exploration D κ R) (source : Nat) (state : State D κ R) :
    Exploration D κ R × Option Nat :=
  match state.vertexKey.bind x.find? with
  | some target =>
    let closed := if x.isActive target then some target else none
    (x.addEdge source target state.logProb, closed)
  | none =>
    let target := x.vertices.size
    ((x.addPending state).addEdge source target state.logProb, none)

/-- Adds the edges to pending states, up to the first one that closes a cycle. -/
def linkAll (x : Exploration D κ R) (source : Nat) :
    List (State D κ R) → Exploration D κ R × Option Nat
  | [] => (x, none)
  | state :: rest =>
    match x.linkPending source state with
    | (x, some vertex) => (x, some vertex)
    | (x, none) => x.linkAll source rest

end Exploration

namespace Setting

variable {D κ R : Type} [Scalar R]

/-- The states of a step that the score admits, in the order of the offers. -/
def admitted (S : Setting D κ R) (states : List (State D κ R)) : List (State D κ R) :=
  states.filterMap (·.scored S.score)

/-- Expands a vertex: advances its state by one step from weight one, and adds
an edge for each admitted offer. Pending offers are added last to first, so that
the first one is explored first. -/
def expand (S : Setting D κ R) (x : Exploration D κ R) (vertex : Nat)
    (state : State D κ R) : Exploration D κ R × Option (Ending R) :=
  let path :=
    { state.path with logProb := Scalar.zero, supply := Supply.atVertex vertex }
  match S.step { state with path } with
  | .error halt => (x, some (.halted halt))
  | .ok (.finished state) =>
    ((S.admitted [state]).foldl (·.linkTerminal vertex) x, none)
  | .ok (.pending states) =>
    match x.linkAll vertex (S.admitted states).reverse with
    | (x, some target) => (x, some (.cyclic target))
    | (x, none) => (x, none)

/-- Explores until the depth-first stack is empty or something ends the
exploration early. -/
def explore (S : Setting D κ R) (limit : Nat) :
    Nat → Exploration D κ R → Logged R (Exploration D κ R × Ending R)
  | 0, x => .quiet (x, .halted .outOfFuel)
  | fuel + 1, x =>
    match x.stack with
    | [] => .quiet (x, .complete)
    | .leave vertex :: stack => S.explore limit fuel ({ x with stack }.setStage vertex .done)
    | .enter vertex :: stack =>
      match x.stage? vertex with
      | some (.pending state) =>
        if limit != 0 && decide (limit ≤ x.expansions) then .quiet (x, .truncated)
        else do
          .emit (.iterationStart x.expansions)
          let opened := { x with stack := .leave vertex :: stack }.setStage vertex .active
          match S.expand opened vertex state with
          | (x, some ending) => return (x, ending)
          | (x, none) => do
            .emit (.iterationEnd x.expansions)
            S.explore limit fuel { x with expansions := x.expansions + 1 }
      | _ => S.explore limit fuel { x with stack }

end Setting

end ChoiceSearch
