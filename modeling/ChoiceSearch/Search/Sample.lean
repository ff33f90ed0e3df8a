import ChoiceSearch.Log
import ChoiceSearch.Marginals
import ChoiceSearch.Search.Draw
import ChoiceSearch.Search.State

/-!
# Sampling

Sampling follows a single path and draws one alternative at every choice, with
probabilities proportional to the weights of the alternatives under the
execution score. It walks straight through collapsed parts. The score is also
added at the initial and at the final state; a path that is rejected there, or
at a choice whose alternatives are all rejected, yields no execution.
-/

namespace ChoiceSearch

namespace Setting

variable {D κ R G : Type} [Scalar R] [Generator G R]

/-- Follows a path from transition to transition, for at most `fuel` of them;
`none` if the path is rejected. -/
def walk (S : Setting D κ R) :
    Nat → Program D κ R → List (Frame κ) → Path D R → G →
      Result R (Option (Execution (Value D R) D R)) × G
  | 0, _, _, _, g => (.error .outOfFuel, g)
  | fuel + 1, program, stack, path, g =>
    match advance S.codes S.graph S.fuel program stack path with
    | .error halt => (.error halt, g)
    | .ok (.finished value path) =>
      let delta := S.score none none path.env
      if Scalar.admissible delta then
        (.ok (some { value, env := path.env, logProb := path.logProb + delta }), g)
      else (.ok none, g)
    | .ok (.choice _ alternatives tag stack path) =>
      let weights := alternatives.map fun a => a.logWeight + S.score tag (some a.item) a.env
      match draw weights g with
      | (none, g) => (.ok none, g)
      | (some index, g) =>
        match alternatives[index]?, weights[index]? with
        | some chosen, some weight =>
          walk S fuel (.value (.data chosen.item)) stack
            { env := chosen.env
              logProb := path.logProb + weight
              supply := path.supply.branch index } g
        | _, _ => (.ok none, g)
    | .ok (.collapsed inner stack path) => walk S fuel inner stack path g

/-- Follows a path from the initial state. -/
def samplePath (S : Setting D κ R) (program : Program D κ R) (env : Env D R) (g : G) :
    Result R (Option (Execution (Value D R) D R)) × G :=
  let (env, supply) := env.settle {}
  let logProb := S.score none none env
  if Scalar.admissible logProb then S.walk S.fuel program [] { env, logProb, supply } g
  else (.ok none, g)

/-- Draws a single execution. -/
def sample (S : Setting D κ R) (program : Program D κ R) (env : Env D R) (g : G) :
    Logged R (Result R (Execution (Value D R) D R) × G) := do
  match ← (Logged.quiet (S.samplePath program env g)).timed "pnp_sample" with
  | (.error halt, g) => return (.error halt, g)
  | (.ok (some execution), g) => return (.ok execution, g)
  | (.ok none, g) => return (.error (.failed .sampleFailed), g)

/-- What repeated sampling has collected. -/
structure Samples (D R : Type) where
  /-- The executions, in reverse. -/
  executions : List (Execution (Value D R) D R) := []
  /-- The number of paths without an execution. -/
  rejected : Nat := 0

/-- Draws the samples from number `i` on, `count` of them. -/
def sampleFrom (S : Setting D κ R) (program : Program D κ R) (env : Env D R) :
    Nat → Nat → Samples D R → G → Logged R (Result R (Samples D R))
  | 0, _, samples, _ => .quiet (.ok samples)
  | count + 1, i, samples, g => do
    .emit (.iterationStart i)
    match ← S.sample program env g with
    | (.ok execution, g) => do
      .emit (.iterationEnd i)
      S.sampleFrom program env count (i + 1)
        { samples with executions := execution :: samples.executions } g
    | (.error (.failed .sampleFailed), g) => do
      .emit (.iterationEnd i)
      S.sampleFrom program env count (i + 1)
        { samples with rejected := samples.rejected + 1 } g
    | (.error halt, _) => return .error halt

/-- Draws several executions with one generator, best first. -/
def sampleMany (S : Setting D κ R) (count : Nat) (program : Program D κ R) (env : Env D R)
    (g : G) : Logged R (Result R (Marginals (Value D R) D R)) := do
  match ← S.sampleFrom program env count 0 {} g with
  | .error halt => return .error halt
  | .ok samples => do
    .emit (.statistic count "rejected_samples" (Scalar.ofNat samples.rejected))
    return .ok {
      executions := samples.executions.reverse.mergeSort fun x y =>
        !Scalar.below x.logProb y.logProb
      iterations := count }

end Setting

end ChoiceSearch
