import ChoiceSearch.ExecutionScore
import ChoiceSearch.Script.Term

/-!
# Recipes

A recipe describes how to build a program; building it twice yields two
programs that share nothing. Continuations, environments and execution scores
have recipes of their own. The bodies of steps are built each time the step is
resumed.
-/

namespace ChoiceSearch.Script

/-- A step that changes an environment. -/
inductive EnvStep (R : Type) where
  /-- Binds a variable. -/
  | set (name : String) (type : NativeType) (value : Term R)
  /-- Records a label. -/
  | label (parameter : String) (index : Size R)
  /-- Replaces the score. -/
  | score (x : VectorTerm R)
  /-- Adds to the score. -/
  | addScore (x : VectorTerm R)
  /-- Starts a timer. -/
  | start (timer : String)
  /-- Stops a timer. -/
  | stop (timer : String)
  /-- Pauses the timers. -/
  | pause
  /-- Resumes the timers. -/
  | resume

mutual

/-- How to build a program. -/
inductive Recipe (R : Type) where
  /-- A value. -/
  | value (e : Term R)
  /-- No alternatives. -/
  | fail
  /-- A choice between items of equal weight. -/
  | choose (items : List (Term R)) (tag : Option (Term R)) (type : NativeType)
  /-- A choice between items with probabilities. -/
  | chooseMap (dist : List (Term R × Term R)) (tag : Option (Term R)) (type : NativeType)
  /-- A choice between items with log-weights. -/
  | chooseLog (dist : List (Term R × Term R)) (type : NativeType)
  /-- A choice between items weighted by a parameter. -/
  | chooseParam (items : List (Term R)) (parameter : String) (tag : Option (Term R))
      (type : NativeType)
  /-- Multiplies the weight of the path. -/
  | score (weight : Term R)
  /-- A program, then the one that a body makes of its value. -/
  | flatMap (a : Recipe R) (x : String) (body : Recipe R)
  /-- A program, then a term of its value. -/
  | map (a : Recipe R) (x : String) (e : Term R)
  /-- A program, then a term of its value, several times. -/
  | mapTimes (a : Recipe R) (count : Size R) (x : String) (e : Term R)
  /-- A program, then a continuation. -/
  | bind (a : Recipe R) (k : RestRecipe R)
  /-- A collapsed program. -/
  | collapse (a : Recipe R)
  /-- One of two programs. -/
  | ite (c : Term R) (t e : Recipe R)
  /-- A shared program. -/
  | ref (name : String)
  /-- The body of a function. -/
  | call (name : String) (args : List (Term R))
  /-- A term of the environment. -/
  | envTerm (e : Term R)
  /-- The value of a variable. -/
  | getVar (name : String) (type : NativeType)
  /-- Binds a variable. -/
  | setVar (name : String) (type : NativeType) (value : Term R)
  /-- Replaces the environment. -/
  | setEnv (steps : List (EnvStep R))
  /-- A program, after which the environment is restored. -/
  | scoped (a : Recipe R)
  /-- Adds to the differentiable score. -/
  | addScore (x : VectorTerm R)
  /-- Adds an entry of a parameter to the differentiable score. -/
  | paramScore (parameter : String) (index : Size R)
  /-- Evaluates a vector with the graph, then the program that a body makes of
  it. -/
  | withGraph (x : String) (vector : VectorTerm R) (body : Recipe R)
  /-- Starts a timer. -/
  | start (timer : String)
  /-- Stops a timer. -/
  | stop (timer : String)

/-- How to build a continuation. -/
inductive RestRecipe (R : Type) where
  /-- The program that a body makes of a value. -/
  | step (x : String) (body : Recipe R)
  /-- A term of a value. -/
  | map (x : String) (e : Term R)
  /-- The continuation without steps. -/
  | finish
  /-- One continuation after the other. -/
  | append (first second : RestRecipe R)
  /-- A shared continuation. -/
  | ref (name : String)

end

/-- How to build an execution score. -/
inductive ScoreRecipe (R : Type) where
  /-- No score. -/
  | zero
  /-- Rejects by a test of the environment. -/
  | filter (e : Term R)
  /-- A term of the tag, the item and the environment. -/
  | term (e : Term R)
  /-- A term, for tags and items of the given types. -/
  | tagged (tagType itemType : NativeType) (e : Term R)
  /-- The sum of two scores. -/
  | add (a b : ScoreRecipe R)

variable {R : Type} [Scalar R]

/-- Applies a step to an environment. -/
def EnvStep.apply (scope : Scope R) (env : Env (Native R) R) :
    EnvStep R → Env (Native R) R
  | .set name type value => env.set name (.ofDatum type (value.eval none scope))
  | .label parameter index => env.addLabel parameter (index.eval scope)
  | .score x => { env with score := x.unchecked scope }
  | .addScore x => env.addScore (x.unchecked scope)
  | .start timer => env.startTimer timer
  | .stop timer => env.stopTimer timer
  | .pause => env.pauseTimers
  | .resume => env.resumeTimers

/-- The environment that steps make of the initial one. -/
def buildEnv (scope : Scope R) (steps : List (EnvStep R)) : Env (Native R) R :=
  steps.foldl (fun env step => step.apply scope env) .init

/-- The datum of a native one that may be absent. -/
def datumOrUnit (n : Option (Native R)) : Datum R := (n.map Native.toDatum).getD .unit

/-- A native datum, if it has the given type. -/
def ofType (type : NativeType) (n : Native R) : Option (Native R) :=
  if n.type == type then some n else none

/-- The execution score that a recipe describes. -/
def ScoreRecipe.build : ScoreRecipe R → ExecutionScore (Native R) R
  | .zero => .zero
  | .filter e => .filter fun env => (e.eval (some env) []).isTrue
  | .term e => fun tag choice env =>
    e.evalScalar (some env)
      [("has_tag", .bool tag.isSome), ("has_choice", .bool choice.isSome),
        ("tag", datumOrUnit tag), ("choice", datumOrUnit choice)]
  | .tagged tagType itemType e =>
    .tagged (ofType tagType) (ofType itemType) fun tag choice env =>
      e.evalScalar (some env) [("tag", tag.toDatum), ("choice", choice.toDatum)]
  | .add a b => .add a.build b.build

end ChoiceSearch.Script
