import ChoiceSearch.Scalar

/-!
# Symbolic expressions

Expressions denote vectors; a scalar is a vector of length one. A search builds
them, and an expression graph evaluates and differentiates them.
-/

namespace ChoiceSearch

/-- A vector expression over named parameters. -/
inductive Expr (R : Type) where
  /-- A named parameter vector. -/
  | parameter (name : String)
  /-- A constant vector. -/
  | constant (values : List R)
  /-- One entry of a vector, as a scalar. -/
  | pick (vector : Expr R) (index : Nat)
  /-- The logarithms of the softmax probabilities of a vector. -/
  | logSoftmax (vector : Expr R)
  /-- The entry-wise sum of two vectors of equal length. -/
  | add (left right : Expr R)
  /-- The entry-wise negation. -/
  | neg (vector : Expr R)
  /-- The logarithm of the sum of exponentials of scalars. -/
  | logSumExp (terms : List (Expr R))
deriving Inhabited

namespace Expr

variable {R : Type}

/-- A constant scalar. -/
def scalar (value : R) : Expr R := .constant [value]

/-- The difference of two vectors. -/
def sub (left right : Expr R) : Expr R := .add left (.neg right)

variable [Scalar R]

/-- The constant scalar zero. -/
def zero : Expr R := scalar Scalar.zero

/-- Whether an expression is a constant zero scalar, of either sign. -/
def isZero : Expr R → Bool
  | .constant [value] => Scalar.isZero value
  | _ => false

end Expr

end ChoiceSearch
