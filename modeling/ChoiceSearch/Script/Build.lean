import ChoiceSearch.Script.Recipe

/-!
# Building programs from recipes

`Recipe.build` makes a program of a recipe, and `codes` gives the steps of such
programs their meaning. Shared programs and continuations are built once, in
order, and every part of them is named (`Library.load`); everything else is
built without names, anew each time.

A function may call itself while its body is built, so building takes fuel.
-/

namespace ChoiceSearch.Script

/-- The code of a step, or of a program made from the graph. -/
inductive Code (R : Type) where
  /-- Builds a body with the value bound to a name. -/
  | body (scope : Scope R) (x : String) (body : Recipe R)
  /-- Evaluates a term with the value bound to a name. -/
  | term (scope : Scope R) (x : String) (e : Term R)
  /-- Yields the unit datum. -/
  | discard
  /-- Yields the value as a datum of scripts. -/
  | toDatum
  /-- Yields a given value. -/
  | yield (v : Value (Native R) R)
  /-- Reads a variable of an environment. -/
  | readVar (name : String) (type : NativeType)
  /-- Continues with a variable bound in the environment. -/
  | storeVar (name : String) (value : Native R)
  /-- Continues with a term added to the score of the environment. -/
  | addScore (x : Expr R)
  /-- Adds an entry of a vector to the score. -/
  | scoreEntry (index : Nat)
  /-- Evaluates a term of an environment. -/
  | envTerm (scope : Scope R) (e : Term R)
  /-- Builds a body, after which the given environment is restored. -/
  | scoped (scope : Scope R) (a : Recipe R)
  /-- Restores an environment and yields the value. -/
  | restore (env : Env (Native R) R)
  /-- A parameter of the graph. -/
  | parameter (name : String)
  /-- Evaluates a vector and builds a body with the entries bound to a name. -/
  | withGraph (scope : Scope R) (x : String) (vector : VectorTerm R) (body : Recipe R)

/-- A program built from a recipe. -/
abbrev ScriptProgram (R : Type) := Program (Native R) (Code R) R

/-- The functions and the shared parts of a script. -/
structure Library (R : Type) where
  /-- The functions: their parameters and bodies. -/
  functions : Table (List String × Recipe R) := .empty
  /-- The shared continuations. -/
  conts : Table (List (Link (Code R))) := .empty
  /-- The shared programs. -/
  programs : Table (ScriptProgram R) := .empty

/-- Building with a supply of names, or without names. -/
abbrev Builder (R : Type) := StateT (Option Nat) (Result R)

namespace Builder

variable {R : Type}

/-- The next name, if names are given. -/
def fresh : Builder R (Option Nat) := fun names => .ok (names, names.map (· + 1))

/-- A step with the next name. -/
def link (code : Code R) : Builder R (Link (Code R)) := do
  return { name := ← fresh, code }

/-- A program followed by a step. -/
def andThen (p : ScriptProgram R) (code : Code R) : Builder R (ScriptProgram R) := do
  return p.thenStep (← link code)

/-- A program followed by the same step several times. -/
def andThenTimes (code : Code R) : Nat → ScriptProgram R → Builder R (ScriptProgram R)
  | 0, p => pure p
  | count + 1, p => do andThenTimes code count (← andThen p code)

/-- One continuation after the other. With both present, the steps of the first
are copies with names of their own, and the second is shared. -/
def append (first second : List (Link (Code R))) : Builder R (List (Link (Code R))) := do
  if second.isEmpty then return first
  else
    let copies ← first.mapM fun l => link l.code
    return copies ++ second

/-- Refuses a script. -/
def malformed {α : Type} : Builder R α := fun _ => .error (.failed .malformedScript)

end Builder

variable {R : Type} [Scalar R]

/-- The program that adds a term to the score of the environment. -/
def addScoreProgram (x : Expr R) : Builder R (ScriptProgram R) :=
  Builder.andThen .getEnv (.addScore x)

/-- A choice whose items have the given type; its value is a datum of scripts. -/
def finishChoice (type : NativeType) (p : ScriptProgram R) : Builder R (ScriptProgram R) :=
  if type == .any then pure p else Builder.andThen p .toDatum

/-- Items with weights under a type. -/
def nativeDist (scope : Scope R) (type : NativeType) (dist : List (Term R × Term R)) :
    List (Native R × R) :=
  dist.map fun (item, weight) =>
    (.ofDatum type (item.eval none scope), weight.evalScalar none scope)

/-- Items under a type. -/
def nativeItems (scope : Scope R) (type : NativeType) (items : List (Term R)) :
    List (Native R) :=
  items.map fun item => .ofDatum type (item.eval none scope)

/-- The tag that a term describes. -/
def tagOf (scope : Scope R) (tag : Option (Term R)) : Option (Native R) :=
  tag.map fun t => .ofTag (t.eval none scope)

mutual

/-- Builds a program. -/
def Recipe.build (lib : Library R) :
    Nat → Scope R → Recipe R → Builder R (ScriptProgram R)
  | 0, _, _ => fun _ => .error .outOfFuel
  | fuel + 1, scope, recipe =>
    match recipe with
    | .value e => pure (.value (.data (.any (e.eval none scope))))
    | .fail => pure .fail
    | .choose items tag type => do
      let site ← Builder.fresh
      finishChoice type (.choose site (nativeItems scope type items) (tagOf scope tag))
    | .chooseMap dist tag type => do
      let site ← Builder.fresh
      finishChoice type (.chooseMap site (nativeDist scope type dist) (tagOf scope tag))
    | .chooseLog dist type => do
      let site ← Builder.fresh
      finishChoice type (.categorical site (nativeDist scope type dist) none)
    | .chooseParam items parameter tag type => do
      let site ← Builder.fresh
      finishChoice type
        (.neural site (nativeItems scope type items) parameter (tagOf scope tag))
    | .score weight => Builder.andThen (.factor (weight.evalScalar none scope)) .discard
    | .flatMap a x body => do
      Builder.andThen (← a.build lib fuel scope) (.body scope x body)
    | .map a x e => do
      Builder.andThen (← a.build lib fuel scope) (.term scope x e)
    | .mapTimes a count x e => do
      Builder.andThenTimes (.term scope x e) (count.eval scope) (← a.build lib fuel scope)
    | .bind a k => do
      let inner ← a.build lib fuel scope
      return .bind inner (← k.build lib fuel scope)
    | .collapse a => do return .collapsed (← a.build lib fuel scope)
    | .ite c t e =>
      if (c.eval none scope).isTrue then t.build lib fuel scope else e.build lib fuel scope
    | .ref name =>
      match lib.programs.get? name with
      | some p => pure p
      | none => Builder.malformed
    | .call name args =>
      match lib.functions.get? name with
      | some (params, body) =>
        body.build lib fuel (params.zip (args.map (·.eval none scope)))
      | none => Builder.malformed
    | .envTerm e => Builder.andThen .getEnv (.envTerm scope e)
    | .getVar name type => do
      let read ← Builder.andThen .getEnv (.readVar name type)
      finishChoice type read
    | .setVar name type value => do
      let store ← Builder.andThen .getEnv
        (.storeVar name (.ofDatum type (value.eval none scope)))
      Builder.andThen store .discard
    | .setEnv steps => do
      let version ← Builder.fresh
      let env := { buildEnv scope steps with version := version.map .named }
      Builder.andThen (.setEnv env) .discard
    | .scoped a => Builder.andThen .getEnv (.scoped scope a)
    | .addScore x => do
      Builder.andThen (← addScoreProgram (x.unchecked scope)) .discard
    | .paramScore parameter index => do
      let entry ← Builder.andThen (.consult (.parameter parameter)) (.scoreEntry (index.eval scope))
      Builder.andThen entry .discard
    | .withGraph x vector body => pure (.consult (.withGraph scope x vector body))
    | .start timer => Builder.andThen (.startTimer timer) .discard
    | .stop timer => Builder.andThen (.stopTimer timer) .discard

/-- Builds a continuation. -/
def RestRecipe.build (lib : Library R) :
    Nat → Scope R → RestRecipe R → Builder R (List (Link (Code R)))
  | 0, _, _ => fun _ => .error .outOfFuel
  | fuel + 1, scope, recipe =>
    match recipe with
    | .step x body => do return [← Builder.link (.body scope x body)]
    | .map x e => do return [← Builder.link (.term scope x e)]
    | .finish => pure []
    | .append first second => do
      let left ← first.build lib fuel scope
      let right ← second.build lib fuel scope
      Builder.append left right
    | .ref name =>
      match lib.conts.get? name with
      | some links => pure links
      | none => Builder.malformed

end

/-- Runs a builder that gives no names. -/
def nameless {α : Type} (b : Builder R α) : Result R α := do
  return (← b.run none).1

/-- The program that follows a step of a script. -/
def resume (lib : Library R) (fuel : Nat) (code : Code R) (value : Value (Native R) R) :
    Result R (ScriptProgram R) :=
  match code, value with
  | .body scope x body, v => nameless (body.build lib fuel ((x, datumOf v) :: scope))
  | .term scope x e, v =>
    .ok (.value (.data (.any (e.eval none ((x, datumOf v) :: scope)))))
  | .discard, _ => .ok (.value (.data (.any .unit)))
  | .toDatum, v => .ok (.value (.data (.any (datumOf v))))
  | .yield v, _ => .ok (.value v)
  | .readVar name type, .env env => do
    return .value (.data (← Result.ofExcept (typedVar env name type)))
  | .storeVar name n, .env env => .ok (.setEnv (env.set name n))
  | .addScore x, .env env => .ok (.setEnv (env.addScore x))
  | .scoreEntry index, .expr x => nameless (addScoreProgram (.pick x index))
  | .envTerm scope e, .env env => .ok (.value (.data (.any (e.eval (some env) scope))))
  | .scoped scope a, .env env => nameless do
    Builder.andThen (← a.build lib fuel scope) (.restore env)
  | .restore env, v => nameless (Builder.andThen (.setEnv env) (.yield v))
  | _, _ => .error (.failed .malformedScript)

/-- The program that a script makes of the graph. -/
def consult (lib : Library R) (fuel : Nat) (code : Code R) (graph : GraphView R) :
    Result R (ScriptProgram R) :=
  match code with
  | .parameter name => do
    return .value (.expr (← Result.ofExcept (graph.parameter name)))
  | .withGraph scope x vector body => do
    let expr ← Result.ofExcept (vector.toExpr (some graph) scope)
    let values ← Result.ofExcept (graph.evaluate expr)
    nameless (body.build lib fuel ((x, .list (values.map .float)) :: scope))
  | _ => .error (.failed .malformedScript)

/-- The meaning of the codes of a script. -/
def codes (lib : Library R) (fuel : Nat) : Codes (Native R) (Code R) R where
  resume := resume lib fuel
  consult := consult lib fuel

/-- The functions and shared parts of a script, not yet built. -/
structure Source (R : Type) where
  /-- The functions. -/
  functions : List (String × List String × Recipe R) := []
  /-- The shared continuations. -/
  conts : List (String × RestRecipe R) := []
  /-- The shared programs. -/
  programs : List (String × Recipe R) := []

/-- Builds the shared parts of a script, each under its name: first the
continuations, then the programs. -/
def Library.load (fuel : Nat) (source : Source R) : Result R (Library R) := do
  let functions := source.functions.foldl
    (fun t (name, params, body) => t.insert name (params, body)) .empty
  let build : Builder R (Library R) := do
    let lib ← source.conts.foldlM (fun (lib : Library R) (name, k) => do
      return { lib with conts := lib.conts.insert name (← k.build lib fuel []) })
      { functions }
    source.programs.foldlM (fun (lib : Library R) (name, p) => do
      return { lib with programs := lib.programs.insert name (← p.build lib fuel []) }) lib
  return (← build.run (some 0)).1

/-- Builds a program of a script. -/
def Library.program (lib : Library R) (fuel : Nat) (recipe : Recipe R) :
    Result R (ScriptProgram R) :=
  nameless (recipe.build lib fuel [])

end ChoiceSearch.Script
