import ChoiceSearch.Graph
import ChoiceSearch.Proofs.Scalar.Real
import Mathlib.Algebra.BigOperators.Fin

/-!
# Tangents

The forward-mode derivative of an expression: how fast its value changes when every
parameter moves in a given direction. `Graph.tangent` follows the usual rules, one per
constructor, and is the specification of the gradients that `Graph.backward` collects.
A direction is a function of the name of a parameter and the position of an entry.

The rules divide by nothing and never ask what the exponential function is, so they make
sense for any scalars that contain the reals.
-/

namespace ChoiceSearch

/-- An expression is a part of another one when it occurs in it, or is it. -/
inductive Expr.PartOf {R : Type} (part : Expr R) : Expr R → Prop
  | self : PartOf part part
  | pick {vector : Expr R} {index : ℕ} : PartOf part vector → PartOf part (.pick vector index)
  | logSoftmax {vector : Expr R} : PartOf part vector → PartOf part (.logSoftmax vector)
  | addLeft {left right : Expr R} : PartOf part left → PartOf part (.add left right)
  | addRight {left right : Expr R} : PartOf part right → PartOf part (.add left right)
  | neg {vector : Expr R} : PartOf part vector → PartOf part (.neg vector)
  | term {term : Expr R} {terms : List (Expr R)} :
      term ∈ terms → PartOf part term → PartOf part (.logSumExp terms)

/-! ## Inner products -/

/-- The inner product of a vector and as many values of a function. -/
def along (us : List ℝ) (f : ℕ → ℝ) : ℝ :=
  ∑ i : Fin us.length, us[i] * f i

theorem along_nil (f : ℕ → ℝ) : along [] f = 0 :=
  Fin.sum_univ_zero _

theorem along_cons (u : ℝ) (us : List ℝ) (f : ℕ → ℝ) :
    along (u :: us) f = u * f 0 + along us fun i => f (i + 1) :=
  Fin.sum_univ_succ _

theorem along_singleton (u : ℝ) (f : ℕ → ℝ) : along [u] f = u * f 0 := by
  rw [along_cons, along_nil, add_zero]

theorem along_fun_zero (us : List ℝ) : along us (fun _ => 0) = 0 := by
  simp [along]

theorem along_fun_add (us : List ℝ) (f g : ℕ → ℝ) :
    (along us fun i => f i + g i) = along us f + along us g := by
  simp only [along, mul_add, Finset.sum_add_distrib]

theorem along_fun_neg (us : List ℝ) (f : ℕ → ℝ) : (along us fun i => -f i) = -along us f := by
  simp only [along, mul_neg, Finset.sum_neg_distrib]

theorem along_fun_const (us : List ℝ) (c : ℝ) : (along us fun _ => c) = us.sum * c := by
  induction us with
  | nil => simp [along_nil]
  | cons u us ih => rw [along_cons, ih, List.sum_cons, add_mul]

theorem along_map_neg (us : List ℝ) (f : ℕ → ℝ) : along (us.map (-·)) f = -along us f := by
  induction us generalizing f with
  | nil => simp [along_nil]
  | cons u us ih => rw [List.map_cons, along_cons, along_cons, ih]; ring

theorem along_map_mul (c : ℝ) (us : List ℝ) (f : ℕ → ℝ) :
    along (us.map (c * ·)) f = c * along us f := by
  induction us generalizing f with
  | nil => simp [along_nil]
  | cons u us ih => rw [List.map_cons, along_cons, along_cons, ih]; ring

theorem along_replicate_zero (n : ℕ) (f : ℕ → ℝ) : along (List.replicate n 0) f = 0 := by
  induction n generalizing f with
  | zero => exact along_nil f
  | succ n ih => rw [List.replicate_succ, along_cons, ih, zero_mul, add_zero]

theorem along_zipWith_add {us vs : List ℝ} (h : us.length = vs.length) (f : ℕ → ℝ) :
    along (List.zipWith (· + ·) us vs) f = along us f + along vs f := by
  induction us generalizing vs f with
  | nil =>
      obtain rfl := List.eq_nil_of_length_eq_zero h.symm
      simp [along_nil]
  | cons u us ih =>
      cases vs with
      | nil => cases h
      | cons v vs =>
          rw [List.zipWith_cons_cons, along_cons, along_cons, along_cons, ih (Nat.succ.inj h)]
          ring

/-- A vector with a single entry other than zero picks one value. -/
theorem along_set {n index : ℕ} (h : index < n) (u : ℝ) (f : ℕ → ℝ) :
    along ((List.replicate n 0).set index u) f = u * f index := by
  induction n generalizing index f with
  | zero => exact absurd h (Nat.not_lt_zero index)
  | succ n ih =>
      cases index with
      | zero => rw [List.replicate_succ, List.set_cons_zero, along_cons, along_replicate_zero,
          add_zero]
      | succ index =>
          rw [List.replicate_succ, List.set_cons_succ, along_cons, zero_mul, zero_add,
            ih (Nat.lt_of_succ_lt_succ h)]

/-! ## Values and tangents -/

open RealScalar

namespace Graph

variable {R : Type} [Scalar R] [RealScalar R]

/-- The value of an expression as a vector of real numbers. -/
noncomputable def reals (g : Graph R) (e : Expr R) : List ℝ :=
  match g.evaluate e with
  | .ok values => values.map toReal
  | .error _ => []

/-- The value of an expression as a real number. -/
noncomputable def realValue (g : Graph R) (e : Expr R) : ℝ :=
  (g.reals e).headD 0

/-- Every part of an expression has a value, of real numbers only. -/
def HasReals (g : Graph R) (e : Expr R) : Prop :=
  ∀ part : Expr R, part.PartOf e → ∃ xs : List ℝ, g.evaluate part = .ok (xs.map real)

/-- The probability of each term of a log-sum-exp. -/
noncomputable def termWeights (g : Graph R) (terms : List (Expr R)) : List ℝ :=
  terms.map fun term => realExp R (g.realValue term - g.realValue (.logSumExp terms))

mutual

/-- The derivative of an expression, entry by entry, when the parameters move in a
direction. -/
noncomputable def tangent (g : Graph R) (direction : String → ℕ → ℝ) : Expr R → ℕ → ℝ
  | .parameter name => direction name
  | .constant _ => fun _ => 0
  | .pick vector index => fun _ => tangent g direction vector index
  | .logSoftmax vector => fun i =>
    tangent g direction vector i -
      along ((g.reals (.logSoftmax vector)).map (realExp R)) (tangent g direction vector)
  | .add left right => fun i => tangent g direction left i + tangent g direction right i
  | .neg vector => fun i => -tangent g direction vector i
  | .logSumExp terms => fun _ => along (g.termWeights terms) (tangents g direction terms)

/-- The derivatives of scalar expressions, by their position. -/
noncomputable def tangents (g : Graph R) (direction : String → ℕ → ℝ) :
    List (Expr R) → ℕ → ℝ
  | [] => fun _ => 0
  | term :: terms => fun
    | 0 => tangent g direction term 0
    | j + 1 => tangents g direction terms j

end

theorem reals_of_evaluate {g : Graph R} {e : Expr R} {xs : List ℝ}
    (h : g.evaluate e = .ok (xs.map real)) : g.reals e = xs := by
  simp only [reals, h, map_toReal_real]

theorem length_reals {g : Graph R} {e : Expr R} {values : List R}
    (h : g.evaluate e = .ok values) : (g.reals e).length = values.length := by
  rw [reals, h]
  exact List.length_map _

theorem realValue_of_evaluate {g : Graph R} {e : Expr R} {x : ℝ}
    (h : g.evaluate e = .ok [real x]) : g.realValue e = x := by
  have hreals : g.reals e = [x] := reals_of_evaluate h
  rw [realValue, hreals, List.headD_cons]

theorem HasReals.evaluate {g : Graph R} {e : Expr R} (h : g.HasReals e) :
    g.evaluate e = .ok ((g.reals e).map real) := by
  obtain ⟨xs, hxs⟩ := h e .self
  rw [reals_of_evaluate hxs, hxs]

/-- The value of a scalar expression, as a real number and as it is. -/
theorem HasReals.eq_realValue {g : Graph R} {e : Expr R} {x : R} (h : g.HasReals e)
    (hx : g.evaluate e = .ok [x]) : x = real (g.realValue e) := by
  have hvalues : (g.reals e).map (real : ℝ → R) = [x] :=
    Except.ok.inj (h.evaluate.symm.trans hx)
  obtain ⟨r, hr⟩ := List.length_eq_one_iff.mp (length_reals hx)
  rw [hr] at hvalues
  rw [realValue, hr]
  exact (List.singleton_inj.mp hvalues).symm

end Graph

end ChoiceSearch
