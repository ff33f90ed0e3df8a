import ChoiceSearch.Script.Datum

/-!
# Terms

Terms are the pure expressions of scripts. They are evaluated in a scope that
binds names to data and, where one is at hand, with an environment to look at.
An operation on data of the wrong kind yields a default instead of failing.
-/

namespace ChoiceSearch.Script

/-- The arithmetic operations. -/
inductive Arith where
  /-- Addition. -/
  | add
  /-- Subtraction. -/
  | sub
  /-- Multiplication. -/
  | mul
deriving DecidableEq, Repr

/-- A pure expression. -/
inductive Term (R : Type) where
  /-- A datum. -/
  | lit (d : Datum R)
  /-- A name bound in the scope. -/
  | var (name : String)
  /-- A number as a scalar. -/
  | scalar (t : Term R)
  /-- Arithmetic: on two integers modulo two to the 64, else on scalars. -/
  | arith (op : Arith) (a b : Term R)
  /-- The remainder of integers, never negative. -/
  | mod (a b : Term R)
  /-- Equality of data. -/
  | eq (a b : Term R)
  /-- Comparison of numbers, or of texts. -/
  | less (a b : Term R)
  /-- Negation. -/
  | not (a : Term R)
  /-- Conjunction. -/
  | and (a b : Term R)
  /-- Disjunction. -/
  | or (a b : Term R)
  /-- The second or the third term, by the first. -/
  | ite (c a b : Term R)
  /-- A list. -/
  | list (items : List (Term R))
  /-- A list with one more item at its end. -/
  | push (l item : Term R)
  /-- An item of a list. -/
  | get (l index : Term R)
  /-- The length of a list or a text. -/
  | len (a : Term R)
  /-- Two texts joined. -/
  | cat (a b : Term R)
  /-- An integer as a text. -/
  | str (a : Term R)
  /-- Whether the environment binds a variable. -/
  | has (name : String)
  /-- A variable of the environment. -/
  | envVar (name : String)
  /-- The indices of the labels of the environment. -/
  | labels
  /-- The names of the active timers. -/
  | active
deriving Inhabited

/-- The bindings of a scope, the innermost one first. -/
abbrev Scope (R : Type) := List (String × Datum R)

variable {R : Type} [Scalar R]

/-- Arithmetic on integers. -/
def Arith.onInts : Arith → Int64 → Int64 → Int64
  | .add, a, b => a + b
  | .sub, a, b => a - b
  | .mul, a, b => a * b

/-- Arithmetic on scalars. -/
def Arith.onScalars : Arith → R → R → R
  | .add, a, b => a + b
  | .sub, a, b => a - b
  | .mul, a, b => a * b

/-- Arithmetic on data. -/
def Arith.apply (op : Arith) : Datum R → Datum R → Datum R
  | .int a, .int b => .int (op.onInts a b)
  | a, b => .float (op.onScalars a.toScalar b.toScalar)

/-- The remainder of integers, never negative. -/
def modulo : Datum R → Datum R → Datum R
  | .int a, .int b => .int (Int64.ofInt (a.toInt % b.toInt))
  | _, _ => .unit

/-- Whether a datum is less than another one. -/
def lessThan : Datum R → Datum R → Bool
  | .str a, .str b => decide (a < b)
  | a, b => Scalar.less a.toScalar b.toScalar

/-- A list with one more item at its end. -/
def pushItem : Datum R → Datum R → Datum R
  | .list items, item => .list (items ++ [item])
  | _, _ => .unit

/-- An item of a list; the unit if there is none at the index. -/
def itemAt : Datum R → Datum R → Datum R
  | .list items, .int i =>
    if i < 0 then .unit else (items[i.toInt.toNat]?).getD .unit
  | _, _ => .unit

/-- The length of a list, or of a text in characters. -/
def lengthOf : Datum R → Datum R
  | .list items => .int (Int64.ofNat items.length)
  | .str s => .int (Int64.ofNat s.length)
  | _ => .unit

/-- Two texts joined. -/
def joined : Datum R → Datum R → Datum R
  | .str a, .str b => .str (a ++ b)
  | _, _ => .unit

/-- An integer as a text. -/
def written : Datum R → Datum R
  | .int i => .str (toString i.toInt)
  | _ => .unit

namespace Term

mutual

/-- Evaluates a term. -/
def eval (env : Option (Env (Native R) R)) (scope : Scope R) : Term R → Datum R
  | .lit d => d
  | .var name => (scope.lookup name).getD .unit
  | .scalar t => .float (eval env scope t).toScalar
  | .arith op a b => op.apply (eval env scope a) (eval env scope b)
  | .mod a b => modulo (eval env scope a) (eval env scope b)
  | .eq a b => .bool (eval env scope a == eval env scope b)
  | .less a b => .bool (lessThan (eval env scope a) (eval env scope b))
  | .not a => .bool (!(eval env scope a).isTrue)
  | .and a b => .bool ((eval env scope a).isTrue && (eval env scope b).isTrue)
  | .or a b => .bool ((eval env scope a).isTrue || (eval env scope b).isTrue)
  | .ite c a b => if (eval env scope c).isTrue then eval env scope a else eval env scope b
  | .list items => .list (evalAll env scope items)
  | .push l item => pushItem (eval env scope l) (eval env scope item)
  | .get l index => itemAt (eval env scope l) (eval env scope index)
  | .len a => lengthOf (eval env scope a)
  | .cat a b => joined (eval env scope a) (eval env scope b)
  | .str a => written (eval env scope a)
  | .has name => .bool (env.any (·.contains name))
  | .envVar name => ((env.bind (·.get? name)).map Native.toDatum).getD .unit
  | .labels =>
    .list (((env.map (·.labels)).getD []).map fun l => .int (Int64.ofNat l.index))
  | .active =>
    .list (((env.map (·.timers.activeNames)).getD []).map .str)

/-- Evaluates terms from left to right. -/
def evalAll (env : Option (Env (Native R) R)) (scope : Scope R) :
    List (Term R) → List (Datum R)
  | [] => []
  | t :: rest => eval env scope t :: evalAll env scope rest

end

/-- The scalar that a term denotes. -/
def evalScalar (env : Option (Env (Native R) R)) (scope : Scope R) (t : Term R) : R :=
  (eval env scope t).toScalar

/-- The size that a term denotes; zero if it is negative or no integer. -/
def evalSize (scope : Scope R) (t : Term R) : Nat :=
  match eval none scope t with
  | .int i => i.toInt.toNat
  | _ => 0

end Term

/-- A size in a script. -/
inductive Size (R : Type) where
  /-- A size that is given. -/
  | exact (n : Nat)
  /-- The size that a term denotes. -/
  | term (t : Term R)

/-- The size meant in a scope. -/
def Size.eval (scope : Scope R) : Size R → Nat
  | .exact n => n
  | .term t => t.evalSize scope

/-- A vector expression with terms in it. -/
inductive VectorTerm (R : Type) where
  /-- A parameter, whether the graph has it or not. -/
  | parameter (name : String)
  /-- A parameter that the graph has to have. -/
  | checkedParameter (name : String)
  /-- A constant vector. -/
  | constant (values : List (Term R))
  /-- An entry of a vector. -/
  | pick (x : VectorTerm R) (index : Size R)
  /-- The log-softmax of a vector. -/
  | logSoftmax (x : VectorTerm R)
  /-- A sum. -/
  | add (x y : VectorTerm R)
  /-- A negation. -/
  | neg (x : VectorTerm R)
  /-- A difference. -/
  | sub (x y : VectorTerm R)
  /-- The log-sum-exp of scalars. -/
  | logSumExp (terms : List (VectorTerm R))
deriving Inhabited

namespace VectorTerm

mutual

/-- The expression that a vector term denotes. Without a graph no parameter is
checked. -/
def toExpr (graph : Option (GraphView R)) (scope : Scope R) :
    VectorTerm R → Except (Error R) (Expr R)
  | .parameter name => .ok (.parameter name)
  | .checkedParameter name =>
    match graph with
    | some g => g.parameter name
    | none => .ok (.parameter name)
  | .constant values => .ok (.constant (values.map (·.evalScalar none scope)))
  | .pick x index => do return .pick (← toExpr graph scope x) (index.eval scope)
  | .logSoftmax x => do return .logSoftmax (← toExpr graph scope x)
  | .add x y => do
    let left ← toExpr graph scope x
    return .add left (← toExpr graph scope y)
  | .neg x => do return .neg (← toExpr graph scope x)
  | .sub x y => do
    let left ← toExpr graph scope x
    return .sub left (← toExpr graph scope y)
  | .logSumExp terms => do return .logSumExp (← toExprs graph scope terms)

/-- The expressions that vector terms denote. -/
def toExprs (graph : Option (GraphView R)) (scope : Scope R) :
    List (VectorTerm R) → Except (Error R) (List (Expr R))
  | [] => .ok []
  | x :: rest => do
    let head ← toExpr graph scope x
    return head :: (← toExprs graph scope rest)

end

/-- The expression that a vector term denotes where no graph is at hand. -/
def unchecked (scope : Scope R) (x : VectorTerm R) : Expr R :=
  match toExpr none scope x with
  | .ok e => e
  | .error _ => .zero

end VectorTerm

end ChoiceSearch.Script
