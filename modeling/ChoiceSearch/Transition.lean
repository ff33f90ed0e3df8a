import ChoiceSearch.Program

/-!
# Transitions

`advance` runs the deterministic part of a program until it reaches a choice, a
collapsed part or its final value. It is the iteration of `move`, which takes a
single step of an abstract machine: a program in focus, the stack of frames
that wait for its value, and what the path carries.

A continuation is pushed onto the stack frame by frame. If either side is empty
the other one is kept as it is; otherwise the pushed frames are marked anew and
lie on top of the stack, which stays shared.
-/

namespace ChoiceSearch

/-- A step of a continuation on the stack of a path. -/
structure Frame (κ : Type) where
  /-- The identifier of the frame, which stands for it and all frames below. -/
  id : Ident
  /-- The code to resume. -/
  code : κ

/-- What a path carries from transition to transition. -/
structure Path (D R : Type) where
  /-- The environment. -/
  env : Env D R
  /-- The logarithm of the weight of the path. -/
  logProb : R
  /-- The marks not handed out yet. -/
  supply : Supply

/-- An alternative of a choice that was reached. -/
structure Alternative (D R : Type) where
  /-- The item chosen. -/
  item : D
  /-- The log-weight of the alternative. -/
  logWeight : R
  /-- The environment after taking it. -/
  env : Env D R

/-- Where the deterministic part of a program ends. -/
inductive Transition (D κ R : Type) where
  /-- The final value. -/
  | finished (value : Value D R) (path : Path D R)
  /-- A choice, with the frames that wait for its item. -/
  | choice (site : Option Nat) (alternatives : List (Alternative D R)) (tag : Option D)
      (stack : List (Frame κ)) (path : Path D R)
  /-- A collapsed part, with the frames that wait for its value. -/
  | collapsed (inner : Program D κ R) (stack : List (Frame κ)) (path : Path D R)

/-- The outcome of a single step of the machine. -/
inductive Move (D κ R : Type) where
  /-- The next program in focus. -/
  | next (program : Program D κ R) (stack : List (Frame κ)) (path : Path D R)
  /-- The deterministic part has ended. -/
  | stop (transition : Transition D κ R)

namespace Supply

variable {κ : Type}

/-- Puts every step of a continuation on top of a stack as a newly marked
frame. -/
def pushFresh (supply : Supply) (rest : List (Link κ)) (stack : List (Frame κ)) :
    List (Frame κ) × Supply :=
  match rest with
  | [] => (stack, supply)
  | link :: links =>
    let (below, supply) := pushFresh supply links stack
    let (id, supply) := supply.nextFrame
    ({ id, code := link.code } :: below, supply)

/-- Puts a continuation on an empty stack; steps with a name keep it. -/
def pushAlone (supply : Supply) (rest : List (Link κ)) : List (Frame κ) × Supply :=
  match rest with
  | [] => ([], supply)
  | link :: links =>
    let (below, supply) := pushAlone supply links
    match link.name with
    | some n => ({ id := .named n, code := link.code } :: below, supply)
    | none =>
      let (id, supply) := supply.nextFrame
      ({ id, code := link.code } :: below, supply)

/-- Puts a continuation on a stack. -/
def push (supply : Supply) (rest : List (Link κ)) (stack : List (Frame κ)) :
    List (Frame κ) × Supply :=
  if stack.isEmpty then supply.pushAlone rest else supply.pushFresh rest stack

end Supply

/-- The identifier of a stack: that of its top frame; an empty one has none. -/
def stackId {κ : Type} (stack : List (Frame κ)) : Option Ident :=
  stack.head?.map (·.id)

variable {D κ R : Type} [Scalar R]

/-- The alternatives of a choice between items weighted by a parameter. Taking
one records its label and adds its weight to the differentiable score. -/
def neuralAlternatives (graph : GraphView R) (items : List D) (parameter : String)
    (env : Env D R) : Except (Error R) (List (Alternative D R)) := do
  let entries ← graph.parameter parameter
  let vector := if graph.locallyNormalized then .logSoftmax entries else entries
  let weights ← graph.evaluate vector
  if weights.length == items.length then
    return (items.zip weights).mapIdx fun index (item, logWeight) =>
      { item, logWeight
        env := (env.addLabel parameter index).addScore (.pick vector index) }
  else .error (.dimensionMismatch parameter items.length weights.length)

/-- Hands a value to the frame that waits for it, or finishes. -/
def feed (codes : Codes D κ R) (value : Value D R) (stack : List (Frame κ))
    (path : Path D R) : Result R (Move D κ R) :=
  match stack with
  | [] => .ok (.stop (.finished value path))
  | frame :: below => do
    let program ← codes.resume frame.code value
    return .next program below path

/-- A single step of the machine. -/
def move (codes : Codes D κ R) (graph : GraphView R) (program : Program D κ R)
    (stack : List (Frame κ)) (path : Path D R) : Result R (Move D κ R) :=
  match program with
  | .value v => feed codes v stack path
  | .bind inner rest =>
    let (stack, supply) := path.supply.push rest stack
    .ok (.next inner stack { path with supply })
  | .categorical site alternatives tag =>
    .ok (.stop (.choice site
      (alternatives.map fun (item, logWeight) => { item, logWeight, env := path.env })
      tag stack path))
  | .neural site items parameter tag => do
    let alternatives ← Result.ofExcept (neuralAlternatives graph items parameter path.env)
    return .stop (.choice site alternatives tag stack path)
  | .factor weight =>
    if Scalar.isNaN weight || Scalar.less weight Scalar.zero then
      .error (.failed (.invalidWeight weight))
    else feed codes .unit stack { path with logProb := path.logProb + Scalar.log weight }
  | .getEnv => feed codes (.env path.env) stack path
  | .setEnv env =>
    let (env, supply) := env.settle path.supply
    feed codes .unit stack { path with env, supply }
  | .consult code => do
    let program ← codes.consult code graph
    return .next program stack path
  | .startTimer name =>
    feed codes .unit stack { path with env := path.env.startTimer name }
  | .stopTimer name =>
    feed codes .unit stack { path with env := path.env.stopTimer name }
  | .collapsed inner => .ok (.stop (.collapsed inner stack path))

/-- Runs the deterministic part of a program, for at most `fuel` steps. -/
def advance (codes : Codes D κ R) (graph : GraphView R) :
    Nat → Program D κ R → List (Frame κ) → Path D R → Result R (Transition D κ R)
  | 0, _, _, _ => .error .outOfFuel
  | fuel + 1, program, stack, path =>
    match move codes graph program stack path with
    | .error halt => .error halt
    | .ok (.stop transition) => .ok transition
    | .ok (.next program stack path) => advance codes graph fuel program stack path

end ChoiceSearch
