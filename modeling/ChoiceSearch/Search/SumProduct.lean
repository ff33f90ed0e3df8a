import ChoiceSearch.Config
import ChoiceSearch.Search.Exploration

/-!
# Sum-product search

Sum-product search explores the whole choice graph and then pushes the weight
of the initial state along the edges, in topological order, so that every
vertex receives the summed weight of the paths that lead to it. A vertex that
cannot be ordered lies on a cycle or behind one.
-/

namespace ChoiceSearch

/-- The weights being pushed through a choice graph. -/
structure Flow (R : Type) where
  /-- The weight that has arrived at each vertex. -/
  mass : Array R
  /-- For each vertex, the number of edges into it not yet followed. -/
  indegree : Array Nat
  /-- The vertices all of whose incoming edges were followed, in order. -/
  ready : List Nat
  /-- The number of vertices whose outgoing edges were followed. -/
  ordered : Nat := 0

namespace Flow

variable {D κ R : Type} [Scalar R]

/-- For each vertex, the number of edges into it. -/
def indegrees (vertices : Array (Vertex D κ R)) : Array Nat :=
  vertices.foldl
    (fun degrees v => v.edges.foldl (fun degrees e => degrees.modify e.target (· + 1)) degrees)
    (Array.replicate vertices.size 0)

/-- The weights before any edge is followed: all weight is at the first vertex. -/
def start (vertices : Array (Vertex D κ R)) (rootMass : R) : Flow R :=
  let indegree := indegrees vertices
  { mass := (Array.replicate vertices.size Scalar.zero).setIfInBounds 0 rootMass
    indegree
    ready := (List.range vertices.size).filter fun v => indegree.getD v 0 == 0 }

/-- Follows an edge from a vertex of the given weight. -/
def follow (weight : R) (f : Flow R) (e : Edge R) : Flow R :=
  let left := f.indegree.getD e.target 0 - 1
  { f with
    mass := f.mass.modify e.target (· + weight * Scalar.exp e.logWeight)
    indegree := f.indegree.setIfInBounds e.target left
    ready := if left == 0 then f.ready ++ [e.target] else f.ready }

/-- Follows the edges of the vertices that are ready, `fuel` vertices at most. -/
def run (vertices : Array (Vertex D κ R)) : Nat → Flow R → Flow R
  | 0, f => f
  | fuel + 1, f =>
    match f.ready with
    | [] => f
    | v :: ready =>
      let weight := f.mass.getD v Scalar.zero
      let edges := (vertices[v]?.map (·.edges)).getD []
      run vertices fuel
        (edges.foldl (follow weight) { f with ready, ordered := f.ordered + 1 })

end Flow

/-- The weight that arrives at each vertex of a choice graph; an error names the
first vertex that could not be ordered. -/
def pathMass {D κ R : Type} [Scalar R] (vertices : Array (Vertex D κ R)) (rootMass : R) :
    Except (Error R) (Array R) :=
  let f := Flow.run vertices vertices.size (Flow.start vertices rootMass)
  if f.ordered < vertices.size then
    .error (.cyclicProgram ((f.indegree.findIdx? (0 < ·)).getD 0))
  else .ok f.mass

/-- A final value with the summed weight of the paths that lead to it. -/
structure Terminal (α D R : Type) where
  /-- The final value. -/
  value : α
  /-- The final environment. -/
  env : Env D R
  /-- The summed weight. -/
  prob : R

/-- The result of a sum-product search. -/
structure SumProduct (α D R : Type) where
  /-- The final values, in the order of their discovery. -/
  terminals : List (Terminal α D R) := []
  /-- The number of vertices. -/
  vertices : Nat := 0
  /-- The number of edges. -/
  edges : Nat := 0
  /-- Whether the exploration was cut off. -/
  truncated : Bool := false

namespace SumProduct

variable {α β D R : Type}

/-- Applies a function to every final value. -/
def mapValue (f : α → β) (s : SumProduct α D R) : SumProduct β D R :=
  { s with terminals := s.terminals.map fun t => { t with value := f t.value } }

variable [Scalar R]

/-- The summed weight of all final values. -/
def partition (s : SumProduct α D R) : R :=
  Scalar.sum (s.terminals.map (·.prob))

/-- The summed weight of the given value. -/
def prob [BEq α] (s : SumProduct α D R) (value : α) : R :=
  Scalar.sum ((s.terminals.filter (·.value == value)).map (·.prob))

end SumProduct

namespace Exploration

variable {D κ R : Type}

/-- The finished states of an exploration with the weights of their vertices. -/
def terminals (x : Exploration D κ R) (mass : Array R) : List (State D κ R × R) :=
  (x.vertices.toList.zip mass.toList).filterMap fun (v, m) =>
    match v.stage with
    | .terminal state => some (state, m)
    | _ => none

/-- The number of edges of an exploration. -/
def edgeCount (x : Exploration D κ R) : Nat :=
  x.vertices.foldl (fun count v => count + v.edges.length) 0

end Exploration

namespace Setting

variable {D κ R : Type} [Scalar R]

/-- The result of an exploration that was not ended by a failure. -/
def summarize (x : Exploration D κ R) (truncated : Bool) (rootMass : R) :
    Logged R (Result R (SumProduct (Value D R) D R)) :=
  let result : Except (Error R) (List (Terminal (Value D R) D R)) := do
    let mass ← pathMass x.vertices rootMass
    (x.terminals mass).mapM fun (state, prob) => do
      return { value := ← state.program.asValue, env := state.path.env, prob }
  match result with
  | .error e => .quiet (.error (.failed e))
  | .ok terminals => do
    .emit (.statistic x.expansions "vertices" (Scalar.ofNat x.vertices.size))
    .emit (.statistic x.expansions "edges" (Scalar.ofNat x.edgeCount))
    return .ok { terminals, vertices := x.vertices.size, edges := x.edgeCount, truncated }

/-- The initial state of a sum-product search, if the score admits it. -/
def sumRoot? (S : Setting D κ R) (program : Program D κ R) (env : Env D R) :
    Option (State D κ R) :=
  let (env, supply) := env.settle {}
  (State.root program [] { env, logProb := Scalar.zero, supply }).scored S.score

/-- Explores the choice graph of a program and sums the weights of its paths. -/
def sumProduct (S : Setting D κ R) (config : SearchConfig) (program : Program D κ R)
    (env : Env D R) : Logged R (Result R (SumProduct (Value D R) D R)) :=
  Logged.timed "pnp_sum_product" <|
    match S.sumRoot? program env with
    | none => .quiet (.ok {})
    | some root => do
      let (x, ending) ←
        S.explore config.maxIterations S.fuel (Exploration.addPending {} root)
      match ending with
      | .complete => summarize x false (Scalar.exp root.logProb)
      | .truncated => summarize x true (Scalar.exp root.logProb)
      | .cyclic vertex => return .error (.failed (.cyclicProgram vertex))
      | .halted halt => return .error halt

end Setting

end ChoiceSearch
