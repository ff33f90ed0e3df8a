import ChoiceSearch.Proofs.Scalar.Laws
import Mathlib.Analysis.SpecialFunctions.Log.Basic

/-!
# Exact scalars

Real numbers with minus infinity, the scalars of an exact search. A weight is finite
and a log-weight is finite or minus infinity; what would exceed every number is not a
number here. Addition is associative and commutative, so a log-weight is the sum of its
parts in any order.

`Exact.toReal` reads a scalar as a real number, and `Exact.weight` is the weight that
belongs to a log-weight. Minus infinity has weight zero, and the weight of a sum is
always the product of the weights.
-/

namespace ChoiceSearch

/-- A real number, minus infinity, or something that is not a number. -/
inductive Exact where
  /-- Not a number. -/
  | nan
  /-- Minus infinity. -/
  | negInf
  /-- A real number. -/
  | real (x : ℝ)

namespace Exact

/-- The sum; minus infinity absorbs numbers. -/
noncomputable def add : Exact → Exact → Exact
  | .real x, .real y => .real (x + y)
  | .real _, .negInf => .negInf
  | .negInf, .real _ => .negInf
  | .negInf, .negInf => .negInf
  | _, _ => .nan

/-- The difference; minus infinity can be diminished only. -/
noncomputable def sub : Exact → Exact → Exact
  | .real x, .real y => .real (x - y)
  | .negInf, .real _ => .negInf
  | _, _ => .nan

/-- The product; minus infinity can be multiplied by positive numbers only. -/
noncomputable def mul : Exact → Exact → Exact
  | .real x, .real y => .real (x * y)
  | .real x, .negInf => if 0 < x then .negInf else .nan
  | .negInf, .real x => if 0 < x then .negInf else .nan
  | _, _ => .nan

/-- The quotient of numbers, or of minus infinity and a positive number. -/
noncomputable def div : Exact → Exact → Exact
  | .real x, .real y => if y = 0 then .nan else .real (x / y)
  | .negInf, .real y => if 0 < y then .negInf else .nan
  | .real _, .negInf => .real 0
  | _, _ => .nan

/-- The negation of a number. -/
noncomputable def neg : Exact → Exact
  | .real x => .real (-x)
  | _ => .nan

/-- The weight of a log-weight. -/
noncomputable def exp : Exact → Exact
  | .real x => .real (Real.exp x)
  | .negInf => .real 0
  | .nan => .nan

/-- The log-weight of a weight. -/
noncomputable def log : Exact → Exact
  | .real x => if 0 < x then .real (Real.log x) else if x = 0 then .negInf else .nan
  | _ => .nan

/-- Numeric comparison. -/
noncomputable def less : Exact → Exact → Bool
  | .real x, .real y => decide (x < y)
  | .negInf, .real _ => true
  | _, _ => false

/-- Comparison for sorting: what is not a number comes last. -/
noncomputable def below : Exact → Exact → Bool
  | .real x, .real y => decide (x < y)
  | .negInf, .negInf => false
  | .negInf, _ => true
  | .real _, .nan => true
  | _, _ => false

noncomputable instance : Scalar Exact where
  add := add
  sub := sub
  mul := mul
  div := div
  neg := neg
  zero := .real 0
  one := .real 1
  negInf := .negInf
  exp := exp
  log := log
  ofNat n := .real n
  isNaN
    | .nan => true
    | _ => false
  isFinite
    | .real _ => true
    | _ => false
  less := less
  below := below

@[simp] theorem zero_eq : (Scalar.zero : Exact) = .real 0 := rfl
@[simp] theorem real_add (x y : ℝ) : Exact.real x + Exact.real y = .real (x + y) := rfl
@[simp] theorem real_mul (x y : ℝ) : Exact.real x * Exact.real y = .real (x * y) := rfl
@[simp] theorem exp_real (x : ℝ) : Scalar.exp (Exact.real x) = .real (Real.exp x) := rfl
@[simp] theorem admissible_real (x : ℝ) : Scalar.admissible (Exact.real x) = true := rfl
@[simp] theorem admissible_negInf : Scalar.admissible Exact.negInf = false := by
  simp [Scalar.admissible, Scalar.isNaN, Scalar.isNegInf, Scalar.isFinite, Scalar.less, less]
@[simp] theorem admissible_nan : Scalar.admissible Exact.nan = false := rfl

/-- The admissible scalars are the real numbers. -/
theorem admissible_iff {x : Exact} : Scalar.admissible x = true ↔ ∃ r, x = .real r := by
  cases x with
  | nan => simp
  | negInf => simp
  | real r => simp

theorem sum_comm (x y : Exact) : x + y = y + x := by
  cases x <;> cases y <;> first | rfl | exact congrArg Exact.real (add_comm _ _)

theorem sum_assoc (x y z : Exact) : x + y + z = x + (y + z) := by
  cases x <;> cases y <;> cases z <;> first | rfl | exact congrArg Exact.real (add_assoc _ _ _)

theorem sum_zero (x : Exact) : x + Scalar.zero = x := by
  cases x <;> first | rfl | exact congrArg Exact.real (add_zero _)

/-- A sum is admissible when both of its parts are. -/
@[simp] theorem admissible_add (x y : Exact) :
    Scalar.admissible (x + y) = (Scalar.admissible x && Scalar.admissible y) := by
  cases x <;> cases y <;> rfl

/-- There is only one zero. -/
theorem isNegZero_eq (x : Exact) : Scalar.isNegZero x = false := by
  cases x with
  | nan => rfl
  | negInf => simp [Scalar.isNegZero, Scalar.isZero, Scalar.isNaN, Scalar.less, less]
  | real r =>
      by_cases h : r < 0
      · simp [Scalar.isNegZero, Scalar.isZero, Scalar.less, less, h]
      · simp [Scalar.isNegZero, Scalar.below, below, h]

instance : LawfulScalar Exact where
  admissible_of_add x y h := by
    rw [admissible_add, Bool.and_eq_true] at h
    exact h.1
  isNegZero_of_add x y h := by
    rw [isNegZero_eq] at h
    cases h
  below_asymm x y h := by
    cases x <;> cases y <;> simp_all [Scalar.below, below, le_of_lt]
  below_split x y z h := by
    cases x with
    | nan => cases z <;> cases h
    | negInf => cases y <;> cases z <;> simp_all [Scalar.below, below]
    | real r =>
        cases y with
        | nan => exact .inl rfl
        | negInf => exact .inr (by cases z <;> first | rfl | cases h)
        | real s =>
            cases z with
            | nan => exact .inr rfl
            | negInf => cases h
            | real t =>
                have hlt : r < t := of_decide_eq_true h
                rcases lt_or_ge r s with hrs | hsr
                · exact .inl (decide_eq_true hrs)
                · exact .inr (decide_eq_true (lt_of_le_of_lt hsr hlt))
  less_eq_below x y hx hy := by
    cases x <;> cases y <;>
      simp_all [Scalar.isPlainNumber, Scalar.isNaN, Scalar.less, Scalar.below, less, below]

instance : OrderedScalar Exact where
  eq_of_not_below x y h h' := by
    cases x with
    | nan => cases y <;> first | rfl | cases h'
    | negInf => cases y <;> first | rfl | cases h
    | real r =>
        cases y with
        | nan => cases h
        | negInf => cases h'
        | real t =>
            have hle : t ≤ r := not_lt.mp (of_decide_eq_false h)
            have hge : r ≤ t := not_lt.mp (of_decide_eq_false h')
            exact congrArg Exact.real (le_antisymm hge hle)

/-- A scalar as a real number; what is none counts as zero. -/
noncomputable def toReal : Exact → ℝ
  | .real x => x
  | _ => 0

/-- The weight that belongs to a log-weight. -/
noncomputable def weight : Exact → ℝ
  | .real x => Real.exp x
  | _ => 0

@[simp] theorem toReal_real (x : ℝ) : (Exact.real x).toReal = x := rfl

theorem weight_nonneg (x : Exact) : 0 ≤ x.weight := by
  cases x with
  | real r => exact (Real.exp_pos r).le
  | nan => exact le_rfl
  | negInf => exact le_rfl

/-- What is not admissible weighs nothing. -/
theorem weight_of_not_admissible {x : Exact} (h : Scalar.admissible x = false) : x.weight = 0 := by
  cases x with
  | real r => cases h
  | nan => rfl
  | negInf => rfl

/-- The weight of a sum is the product of the weights. -/
theorem weight_add (x y : Exact) : (x + y).weight = x.weight * y.weight := by
  cases x <;> cases y <;> first
    | exact Real.exp_add _ _
    | simp [HAdd.hAdd, Add.add, add, weight]

/-- Exponentials of admissible log-weights are the weights. -/
theorem exp_eq_weight {x : Exact} (h : Scalar.admissible x = true) :
    Scalar.exp x = .real x.weight := by
  obtain ⟨r, rfl⟩ := admissible_iff.mp h
  rfl

/-- Real numbers are summed up in the reals. -/
theorem sum_map_real {α : Type} (f : α → ℝ) (xs : List α) :
    Scalar.sum (xs.map fun x => Exact.real (f x)) = .real (xs.map f).sum := by
  suffices hfold : ∀ (xs : List α) (start : ℝ),
      (xs.map fun x => Exact.real (f x)).foldl (· + ·) (.real start) =
        .real (start + (xs.map f).sum) by
    have hzero : (-Scalar.zero : Exact) = .real (-0) := rfl
    rw [Scalar.sum, hzero, hfold, neg_zero, zero_add]
  intro xs
  induction xs with
  | nil => intro start; simp
  | cons x xs ih =>
      intro start
      rw [List.map_cons, List.foldl_cons, real_add, ih, List.map_cons, List.sum_cons, add_assoc]

/-- The sum over the entries of a list that pass a test. -/
theorem sum_filter_map {α : Type} {xs : List α} {f : α → Exact} {w : α → ℝ} (hit : α → Bool)
    (h : ∀ x ∈ xs, f x = .real (w x)) :
    Scalar.sum ((xs.filter hit).map f) =
      .real (xs.map fun x => if hit x then w x else 0).sum := by
  have hreal : (xs.filter hit).map f = (xs.filter hit).map fun x => .real (w x) :=
    List.map_congr_left fun x hx => h x (List.mem_of_mem_filter hx)
  rw [hreal, sum_map_real]
  congr 1
  clear h hreal
  induction xs with
  | nil => rfl
  | cons x xs ih =>
      rw [List.filter_cons, List.map_cons, List.sum_cons]
      by_cases hx : hit x = true
      · rw [if_pos hx, if_pos hx, List.map_cons, List.sum_cons, ih]
      · rw [if_neg hx, if_neg hx, ih, zero_add]

theorem larger_real (x y : ℝ) : Scalar.larger (Exact.real x) (.real y) = .real (max x y) := by
  by_cases h : x < y
  · simp [Scalar.larger, Scalar.isNaN, Scalar.less, less, h, max_eq_right h.le]
  · simp [Scalar.larger, Scalar.isNaN, Scalar.less, less, h, max_eq_left (not_lt.mp h)]

theorem larger_negInf_of_rejected {w : Exact} (h : Scalar.admissible w = false) :
    Scalar.larger .negInf w = .negInf := by
  cases w with
  | nan => rfl
  | negInf => rfl
  | real x => cases h

/-- From a real number on, a maximum is one. -/
theorem exists_foldl_larger_eq (ws : List Exact) (x : ℝ) :
    ∃ top, ws.foldl Scalar.larger (.real x) = .real top := by
  induction ws generalizing x with
  | nil => exact ⟨x, rfl⟩
  | cons w ws ih =>
      rw [List.foldl_cons]
      cases w with
      | nan => exact ih x
      | negInf => exact ih x
      | real y =>
          rw [larger_real]
          exact ih (max x y)

/-- The maximum is a real number if one of the scalars is admissible. -/
theorem exists_maximum_eq {ws : List Exact} (h : ∃ w ∈ ws, Scalar.admissible w = true) :
    ∃ top, Scalar.maximum ws = .real top := by
  unfold Scalar.maximum
  induction ws with
  | nil =>
      obtain ⟨w, hw, -⟩ := h
      cases hw
  | cons w ws ih =>
      rw [List.foldl_cons]
      cases hw : Scalar.admissible w with
      | true =>
          obtain ⟨x, rfl⟩ := admissible_iff.mp hw
          exact exists_foldl_larger_eq ws x
      | false =>
          -- the maximum stays at minus infinity until the first real number
          obtain ⟨v, hv, hadm⟩ := h
          have hlost : Scalar.larger Scalar.negInf w = .negInf := larger_negInf_of_rejected hw
          rw [hlost]
          rcases List.mem_cons.mp hv with rfl | hv
          · rw [hw] at hadm
            cases hadm
          · exact ih ⟨v, hv, hadm⟩

/-- Without an admissible scalar, the maximum is minus infinity. -/
theorem maximum_of_rejected {ws : List Exact} (h : ∀ w ∈ ws, Scalar.admissible w = false) :
    Scalar.maximum ws = .negInf := by
  unfold Scalar.maximum
  induction ws with
  | nil => rfl
  | cons w ws ih =>
      obtain ⟨hw, hrest⟩ := List.forall_mem_cons.mp h
      have hlost : Scalar.larger Scalar.negInf w = .negInf := larger_negInf_of_rejected hw
      rw [List.foldl_cons, hlost]
      exact ih hrest

end Exact

end ChoiceSearch
