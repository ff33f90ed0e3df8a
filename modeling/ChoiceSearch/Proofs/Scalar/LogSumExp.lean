import ChoiceSearch.Proofs.Scalar.Exact

/-!
# Log-sum-exp of real numbers

Factoring out the largest term changes nothing in exact arithmetic: the log-sum-exp of
real numbers is the logarithm of the sum of their exponentials, unless there are none, and
a log-softmax is each number less that logarithm.
-/

namespace ChoiceSearch

namespace Exact

/-- The logarithm of the sum of the exponentials of real numbers. -/
noncomputable def logTotal (xs : List ℝ) : ℝ :=
  Real.log (xs.map Real.exp).sum

theorem logTotal_singleton (x : ℝ) : logTotal [x] = x := by
  simp [logTotal]

theorem sum_exp_pos {xs : List ℝ} (h : xs ≠ []) : 0 < (xs.map Real.exp).sum :=
  List.sum_pos _ (by simpa using fun x _ => Real.exp_pos x) (by simpa using h)

theorem log_real {x : ℝ} (h : 0 < x) : Scalar.log (Exact.real x) = .real (Real.log x) :=
  if_pos h

/-- The log-sum-exp of real numbers, of which there is one at least. -/
theorem logSumExp_real {xs : List ℝ} (h : xs ≠ []) :
    Scalar.logSumExp (xs.map Exact.real) = .real (logTotal xs) := by
  obtain ⟨top, htop⟩ : ∃ top, Scalar.maximum (xs.map Exact.real) = .real top := by
    obtain ⟨x, hx⟩ := List.exists_mem_of_ne_nil xs h
    exact exists_maximum_eq ⟨.real x, List.mem_map_of_mem hx, rfl⟩
  have hscaled : (xs.map fun x => Real.exp (x - top)).sum =
      (xs.map Real.exp).sum * Real.exp (-top) := by
    simp only [sub_eq_add_neg, Real.exp_add, List.sum_map_mul_right]
  have hsum : Scalar.sum ((xs.map Exact.real).map fun x => Scalar.exp (x - .real top)) =
      .real ((xs.map Real.exp).sum * Real.exp (-top)) := by
    rw [List.map_map, ← hscaled, ← sum_map_real]
    rfl
  have hpos := sum_exp_pos h
  rw [Scalar.logSumExp, htop]
  simp only [Scalar.isNegInf, Scalar.isFinite, Bool.not_true, Bool.and_false, Bool.false_and,
    Bool.false_eq_true, if_false]
  rw [hsum, log_real (by positivity), real_add,
    Real.log_mul hpos.ne' (Real.exp_pos _).ne', Real.log_exp, logTotal]
  ring_nf

theorem logSumExp_singleton (x : ℝ) : Scalar.logSumExp [Exact.real x] = .real x := by
  have hone : Scalar.logSumExp ([x].map Exact.real) = .real (logTotal [x]) :=
    logSumExp_real (List.cons_ne_nil x [])
  rwa [logTotal_singleton] at hone

/-- The log-softmax of real numbers. -/
theorem logSoftmax_real (xs : List ℝ) :
    Scalar.logSoftmax (xs.map Exact.real) = (xs.map (· - logTotal xs)).map Exact.real := by
  cases xs with
  | nil => rfl
  | cons x xs =>
      rw [Scalar.logSoftmax, logSumExp_real (by simp), List.map_map, List.map_map]
      rfl

/-- The weight of the logarithm of a probability. -/
theorem weight_log {p : ℝ} (hp : 0 ≤ p) : (Scalar.log (Exact.real p)).weight = p := by
  rcases hp.lt_or_eq with hpos | rfl
  · rw [log_real hpos]
    exact Real.exp_log hpos
  · simp [Scalar.log, log, weight]

/-- The weights of a log-softmax sum up to one. -/
theorem sum_weight_logSoftmax {xs : List ℝ} (h : xs ≠ []) :
    ((Scalar.logSoftmax (xs.map Exact.real)).map weight).sum = 1 := by
  have hpos := sum_exp_pos h
  have hterm : ∀ x : ℝ, Real.exp (x - logTotal xs) =
      Real.exp x * ((xs.map Real.exp).sum)⁻¹ := by
    intro x
    rw [Real.exp_sub, logTotal, Real.exp_log hpos, div_eq_mul_inv]
  rw [logSoftmax_real, List.map_map, List.map_map]
  calc (xs.map fun x => Real.exp (x - logTotal xs)).sum
      = (xs.map fun x => Real.exp x * ((xs.map Real.exp).sum)⁻¹).sum := by simp only [hterm]
    _ = (xs.map Real.exp).sum * ((xs.map Real.exp).sum)⁻¹ := by rw [List.sum_map_mul_right]
    _ = 1 := mul_inv_cancel₀ hpos.ne'

end Exact

end ChoiceSearch
