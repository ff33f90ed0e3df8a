import ChoiceSearch.Proofs.Search.Weighing
import ChoiceSearch.Proofs.Search.Drawing
import Mathlib.MeasureTheory.Measure.Lebesgue.Basic

/-!
# Drawing in proportion to the weights

A draw takes a number in `[0, 1)` to the alternative whose part of the total weight the number
falls into (`Covers`). Only finite log-weights have a part, and the parts lie one after the other
without gaps, so there is exactly one such alternative, and the numbers that draw it have the
length of its part.

The log-weights may be infinite or no numbers at all (`Extended`). The maximum, the total and the
cumulative sum leave out different ones of them: a maximum that is finite rules out plus infinity,
the total leaves out what is not a number, and the cumulative sum what is not positive. What
remains is the same for all three.
-/

namespace ChoiceSearch

open Scalar MeasureTheory

namespace Extended

/-! ## The maximum -/

theorem less_real (x y : ℝ) : less (Extended.real x) (.real y) = decide (x < y) := by
  refine Bool.eq_iff_iff.mpr ?_
  rw [less_iff, decide_eq_true_iff]
  exact ⟨fun h => by simpa [rank] using h.2, fun h => ⟨rfl, by simpa [rank] using h⟩⟩

theorem larger_of_number {x y : Extended} (hx : x.isNaN = false) (hy : y.isNaN = false) :
    larger x y = if x.rank < y.rank then y else x := by
  have hx' : ¬ Scalar.isNaN x = true := Bool.not_eq_true _ ▸ hx
  have hy' : ¬ Scalar.isNaN y = true := Bool.not_eq_true _ ▸ hy
  have hless : less x y = true ↔ x.rank < y.rank := (less_iff x y).trans (and_iff_right hy)
  unfold larger
  rw [if_neg hx', if_neg hy']
  simp only [hless]

theorem larger_nan (x : Extended) : larger x .nan = x := by
  cases x <;> rfl

theorem larger_posInf (x : Extended) : larger .posInf x = .posInf := by
  cases x with
  | nan => rfl
  | posInf | negInf | real r => rw [larger_of_number rfl rfl]; simp [rank]

theorem larger_negInf {x : Extended} (h : x.isNaN = false) : larger .negInf x = x := by
  rw [larger_of_number rfl h]
  cases x with
  | nan => cases h
  | posInf => exact if_pos (WithTop.coe_lt_coe.mpr bot_lt_top)
  | negInf => exact ite_self _
  | real r => exact if_pos (WithTop.coe_lt_coe.mpr (EReal.bot_lt_coe r))

theorem larger_real (x : ℝ) (y : Extended) : larger (.real x) y = .posInf ∧ y = .posInf ∨
    y ≠ .posInf ∧ ∃ z, larger (.real x) y = .real z := by
  cases y with
  | nan => exact .inr ⟨by simp, x, rfl⟩
  | posInf => exact .inl ⟨by rw [larger_of_number rfl rfl]; simp [rank], rfl⟩
  | negInf => exact .inr ⟨by simp, x, by rw [larger_of_number rfl rfl]; simp [rank]⟩
  | real y =>
      refine .inr ⟨by simp, ?_⟩
      rw [larger_of_number rfl rfl]
      split
      · exact ⟨y, rfl⟩
      · exact ⟨x, rfl⟩

/-- Some weight can be drawn: one is finite and none is plus infinity. -/
def Drawable (ws : List Extended) : Prop := (∃ x, .real x ∈ ws) ∧ .posInf ∉ ws

theorem foldl_larger_posInf (ws : List Extended) : ws.foldl larger .posInf = .posInf := by
  induction ws with
  | nil => rfl
  | cons w ws ih => rw [List.foldl_cons, larger_posInf, ih]

theorem isFinite_foldl_larger (ws : List Extended) (x : ℝ) :
    isFinite (ws.foldl larger (.real x)) = true ↔ .posInf ∉ ws := by
  induction ws generalizing x with
  | nil => exact iff_of_true rfl List.not_mem_nil
  | cons w ws ih =>
      rw [List.foldl_cons, List.mem_cons, not_or]
      rcases larger_real x w with ⟨hlarger, rfl⟩ | ⟨hw, z, hlarger⟩
      · rw [hlarger, foldl_larger_posInf]
        exact iff_of_false nofun fun h => h.1 rfl
      · rw [hlarger, ih, and_iff_right hw.symm]

/-- The maximum is finite if and only if something can be drawn. -/
theorem isFinite_maximum_iff (ws : List Extended) :
    isFinite (maximum ws) = true ↔ Drawable ws := by
  unfold maximum
  induction ws with
  | nil => exact iff_of_false nofun fun ⟨⟨_, h⟩, _⟩ => List.not_mem_nil h
  | cons w ws ih =>
      -- the maximum stays at minus infinity until the first number
      show isFinite (ws.foldl larger (larger .negInf w)) = true ↔ _
      cases w with
      | nan =>
          rw [larger_nan]
          exact ih.trans (by simp [Drawable])
      | negInf =>
          rw [larger_negInf rfl]
          exact ih.trans (by simp [Drawable])
      | posInf =>
          rw [larger_negInf rfl, foldl_larger_posInf]
          exact iff_of_false nofun fun h => h.2 List.mem_cons_self
      | real x =>
          rw [larger_negInf rfl, isFinite_foldl_larger]
          simp [Drawable]

/-- The larger one is shifted with both. -/
theorem larger_add_real (x y : Extended) (c : ℝ) :
    larger (x + .real c) (y + .real c) = larger x y + .real c := by
  have hnumber : ∀ z : Extended, z.isNaN = false → (z + .real c).isNaN = false := by
    intro z hz
    cases z <;> first | rfl | cases hz
  have hrank : (x + .real c).rank < (y + .real c).rank ↔ x.rank < y.rank := by
    have hsum : ∀ z : Extended, z + .real c = z.add (.real c) := fun _ => rfl
    cases x <;> cases y <;>
      simp only [hsum, add, rank, WithTop.coe_lt_coe, WithTop.coe_lt_top, EReal.coe_lt_coe_iff,
        EReal.bot_lt_coe, EReal.coe_lt_top, add_lt_add_iff_right, lt_self_iff_false, not_top_lt,
        not_lt_bot]
  cases hx : x.isNaN with
  | true =>
      cases x with
      | nan => rfl
      | posInf | negInf | real r => cases hx
  | false =>
      cases hy : y.isNaN with
      | true =>
          cases y with
          | nan => rw [larger_nan]; exact larger_nan _
          | posInf | negInf | real r => cases hy
      | false =>
          rw [larger_of_number (hnumber x hx) (hnumber y hy), larger_of_number hx hy]
          simp only [hrank]
          split <;> rfl

/-- The maximum is shifted with the weights. -/
theorem maximum_map_add (ws : List Extended) (c : ℝ) :
    maximum (ws.map (· + .real c)) = maximum ws + .real c := by
  suffices hfold : ∀ start : Extended, (ws.map (· + .real c)).foldl larger (start + .real c) =
      ws.foldl larger start + .real c from hfold .negInf
  induction ws with
  | nil => exact fun _ => rfl
  | cons w ws ih =>
      intro start
      rw [List.map_cons, List.foldl_cons, larger_add_real, ih, List.foldl_cons]

/-! ## Parts of the total weight -/

/-- The weight of a finite log-weight; all others weigh nothing. -/
noncomputable def mass : Extended → ℝ
  | .real x => Real.exp x
  | _ => 0

theorem mass_of_not_finite {w : Extended} (h : ¬ ∃ x, w = .real x) : w.mass = 0 := by
  cases w with
  | real x => exact absurd ⟨x, rfl⟩ h
  | nan | posInf | negInf => rfl

theorem mass_nonneg (w : Extended) : 0 ≤ w.mass := by
  cases w with
  | real x => exact (Real.exp_pos x).le
  | nan | posInf | negInf => exact le_rfl

/-- The total weight. -/
noncomputable def total (ws : List Extended) : ℝ := (ws.map mass).sum

@[simp] theorem total_nil : total [] = 0 := rfl

@[simp] theorem total_cons (w : Extended) (ws : List Extended) :
    total (w :: ws) = w.mass + total ws := List.sum_cons

theorem total_le_of_sublist {vs ws : List Extended} (h : vs.Sublist ws) : total vs ≤ total ws := by
  refine (h.map mass).sum_le_sum ?_
  intro x hx
  obtain ⟨w, -, rfl⟩ := List.mem_map.mp hx
  exact mass_nonneg w

/-- The weight of the alternatives before one of them. -/
noncomputable def before (ws : List Extended) (i : Nat) : ℝ := total (ws.take i)

theorem before_nonneg (ws : List Extended) (i : Nat) : 0 ≤ before ws i :=
  total_le_of_sublist (List.nil_sublist _)

theorem before_succ {ws : List Extended} {i : Nat} {w : Extended} (hw : ws[i]? = some w) :
    before ws (i + 1) = before ws i + w.mass := by
  unfold before total
  rw [List.take_add_one, hw, Option.toList_some, List.map_append, List.sum_append]
  simp

/-- The part of an alternative ends before those of later ones start. -/
theorem before_add_mass_le {ws : List Extended} {i j : Nat} {w : Extended} (hw : ws[i]? = some w)
    (hij : i < j) : before ws i + w.mass ≤ before ws j := by
  rw [← before_succ hw]
  exact total_le_of_sublist (List.take_sublist_take_left hij)

theorem before_add_mass_le_total {ws : List Extended} {i : Nat} {w : Extended}
    (hw : ws[i]? = some w) : before ws i + w.mass ≤ total ws := by
  have hi : i < ws.length := (List.getElem?_eq_some_iff.mp hw).1
  have hall : before ws ws.length = total ws := congrArg total List.take_length
  exact hall ▸ before_add_mass_le hw hi

theorem total_pos {ws : List Extended} (h : Drawable ws) : 0 < total ws := by
  obtain ⟨⟨x, hx⟩, -⟩ := h
  obtain ⟨i, hi⟩ := List.getElem?_of_mem hx
  have hle := before_add_mass_le_total hi
  have hpos : 0 < (Extended.real x).mass := Real.exp_pos x
  linarith [before_nonneg ws i]

/-- A number falls into the part of an alternative, which has a finite log-weight. -/
def Covers (ws : List Extended) (u : ℝ) (i : Nat) : Prop :=
  ∃ x, ws[i]? = some (.real x) ∧ before ws i ≤ u * total ws ∧
    u * total ws < before ws i + Real.exp x

/-- The parts do not overlap. -/
theorem Covers.unique {ws : List Extended} {u : ℝ} {i j : Nat} (hi : Covers ws u i)
    (hj : Covers ws u j) : i = j := by
  -- the part of the later one starts where that of the earlier one has ended
  have hlt : ∀ {i j}, Covers ws u i → Covers ws u j → ¬ i < j := by
    rintro i j ⟨x, hx, -, habove⟩ ⟨y, -, hbelow, -⟩ hij
    have hle : before ws i + Real.exp x ≤ before ws j := before_add_mass_le hx hij
    linarith
  exact le_antisymm (not_lt.mp (hlt hj hi)) (not_lt.mp (hlt hi hj))

/-- The parts leave no gap: they end at the total weight. -/
theorem exists_covers {ws : List Extended} (h : Drawable ws) {u : ℝ} (hu : u ∈ Set.Ico (0 : ℝ) 1) :
    ∃ i, Covers ws u i := by
  have hpos := total_pos h
  have hall : before ws ws.length = total ws := congrArg total List.take_length
  have hend : ∃ n, u * total ws < before ws n := by
    refine ⟨ws.length, ?_⟩
    rw [hall]
    exact mul_lt_of_lt_one_left hpos hu.2
  classical
  -- the first part that ends beyond the target starts at it or before
  cases hn : Nat.find hend with
  | zero =>
      have hbeyond : u * total ws < before ws 0 := hn ▸ Nat.find_spec hend
      exact absurd hbeyond (not_lt.mpr (mul_nonneg hu.1 hpos.le))
  | succ i =>
      have hbeyond : u * total ws < before ws (i + 1) := hn ▸ Nat.find_spec hend
      have hbelow : before ws i ≤ u * total ws :=
        not_lt.mp (Nat.find_min hend (by omega))
      cases hw : ws[i]? with
      | none =>
          have hlen := List.getElem?_eq_none_iff.mp hw
          have hsame : before ws (i + 1) = before ws i := by
            unfold before
            rw [List.take_of_length_le hlen, List.take_of_length_le (by omega)]
          linarith
      | some w =>
          rw [before_succ hw] at hbeyond
          cases w with
          | real x => exact ⟨i, x, hw, hbelow, hbeyond⟩
          | nan | posInf | negInf =>
              rw [mass_of_not_finite (by simp)] at hbeyond
              linarith

/-! ## The shifted weights -/

/-- A weight, scaled as all weights are by a shift of the log-weights. -/
noncomputable def scaled (top x : ℝ) : Extended := .real (x * Real.exp (-top))

/-- The weights of log-weights, scaled by a shift. -/
noncomputable def shifted (top : ℝ) (ws : List Extended) : List Extended :=
  ws.map fun w => Scalar.exp (w - .real top)

theorem scaled_add (top x y : ℝ) : scaled top x + scaled top y = scaled top (x + y) :=
  congrArg Extended.real (add_mul _ _ _).symm

theorem scaled_zero (top : ℝ) : scaled top 0 = Scalar.zero :=
  congrArg Extended.real (zero_mul _)

theorem real_mul_scaled (top u x : ℝ) : Extended.real u * scaled top x = scaled top (u * x) :=
  congrArg Extended.real (mul_assoc _ _ _).symm

theorem less_scaled (top x y : ℝ) : less (scaled top x) (scaled top y) = decide (x < y) := by
  unfold scaled
  rw [less_real]
  simp only [mul_lt_mul_iff_left₀ (Real.exp_pos (-top))]

theorem isPositive_scaled (top x : ℝ) : isPositive (scaled top x) = decide (0 < x) := by
  unfold isPositive
  rw [← scaled_zero top, less_scaled]
  exact Bool.and_true _

/-- A finite log-weight has the scaled weight. -/
theorem exp_sub_real (x top : ℝ) : Scalar.exp (Extended.real x - .real top) =
    scaled top (Real.exp x) := by
  unfold scaled
  rw [← Real.exp_add]
  rfl

/-- The weight of any other log-weight is not positive, or it is infinite. -/
theorem isPositive_exp_sub {w : Extended} (top : ℝ) (hfinite : ¬ ∃ x, w = .real x) :
    isPositive (Scalar.exp (w - .real top)) = false := by
  cases w with
  | nan | posInf => rfl
  | negInf =>
      have hzero : Scalar.exp (Extended.negInf - .real top) = scaled top 0 :=
        (scaled_zero top).symm
      rw [hzero, isPositive_scaled]
      exact decide_eq_false (lt_irrefl 0)
  | real x => exact absurd ⟨x, rfl⟩ hfinite

/-- The weights are added up to the scaled total. -/
theorem sum_shifted {ws : List Extended} (hinf : .posInf ∉ ws) (top : ℝ) :
    Scalar.sum ((shifted top ws).filter isFinite) = scaled top (total ws) := by
  suffices hfold : ∀ start, ((shifted top ws).filter isFinite).foldl (· + ·) (scaled top start) =
      scaled top (start + total ws) by
    have hzero : (-Scalar.zero : Extended) = scaled top 0 :=
      (congrArg Extended.real neg_zero).trans (scaled_zero top).symm
    rw [Scalar.sum, hzero, hfold, zero_add]
  unfold shifted
  induction ws with
  | nil => simp
  | cons w ws ih =>
      intro start
      obtain ⟨hw, hrest⟩ := not_or.mp (List.mem_cons.not.mp hinf)
      rw [List.map_cons, total_cons, ← add_assoc]
      -- the filter leaves out what is not a number, and minus infinity adds a zero
      cases w with
      | nan =>
          have hskip : ¬ isFinite (Scalar.exp (Extended.nan - .real top)) = true :=
            Bool.false_ne_true
          rw [List.filter_cons_of_neg hskip, ih hrest]
          simp [mass]
      | posInf => exact absurd rfl hw
      | negInf =>
          have hzero : Scalar.exp (Extended.negInf - .real top) = scaled top 0 :=
            (scaled_zero top).symm
          rw [List.filter_cons_of_pos rfl, List.foldl_cons, hzero, scaled_add, ih hrest]
          rfl
      | real x =>
          rw [List.filter_cons_of_pos rfl, List.foldl_cons, exp_sub_real, scaled_add, ih hrest]
          rfl

/-- The positive weights before an alternative are added up to the scaled weight of those
alternatives. -/
theorem cumulative_shifted (top c : ℝ) (ws : List Extended) (i : Nat) :
    cumulative (scaled top c) (shifted top ws) i = scaled top (c + before ws i) := by
  unfold cumulative shifted before
  rw [← List.map_take]
  induction ws.take i generalizing c with
  | nil => simp
  | cons w ws ih =>
      rw [List.map_cons, total_cons, ← add_assoc]
      by_cases hreal : ∃ x, w = .real x
      · obtain ⟨x, rfl⟩ := hreal
        have hpos : isPositive (scaled top (Real.exp x)) = true := by
          rw [isPositive_scaled]
          exact decide_eq_true (Real.exp_pos x)
        rw [exp_sub_real, List.filter_cons_of_pos hpos, List.foldl_cons, scaled_add, ih]
        rfl
      · have hskip : ¬ isPositive (Scalar.exp (w - .real top)) = true := by
          rw [isPositive_exp_sub top hreal]
          exact Bool.false_ne_true
        rw [List.filter_cons_of_neg hskip, ih, mass_of_not_finite hreal, add_zero]

/-- The target is exceeded with a finite log-weight whose part ends beyond it. -/
theorem exceeds_shifted_iff (top t : ℝ) (ws : List Extended) (i : Nat) :
    Exceeds (scaled top t) (scaled top 0) (shifted top ws) i ↔
      ∃ x, ws[i]? = some (.real x) ∧ t < before ws i + Real.exp x := by
  unfold Exceeds
  rw [cumulative_shifted, zero_add]
  unfold shifted
  rw [List.getElem?_map]
  constructor
  · rintro ⟨p, hp, hpos, hless⟩
    obtain ⟨w, hw, rfl⟩ := Option.map_eq_some_iff.mp hp
    by_cases hreal : ∃ x, w = .real x
    · obtain ⟨x, rfl⟩ := hreal
      rw [exp_sub_real, scaled_add, less_scaled] at hless
      exact ⟨x, hw, of_decide_eq_true hless⟩
    · rw [isPositive_exp_sub top hreal] at hpos
      cases hpos
  · rintro ⟨x, hw, hlt⟩
    refine ⟨scaled top (Real.exp x), by rw [hw, Option.map_some, exp_sub_real], ?_, ?_⟩
    · rw [isPositive_scaled]
      exact decide_eq_true (Real.exp_pos x)
    · rw [scaled_add, less_scaled]
      exact decide_eq_true hlt

theorem exists_shiftedWeights {ws : List Extended} (h : Drawable ws) :
    ∃ top, shiftedWeights? ws = some (shifted top ws) := by
  have hfinite := (isFinite_maximum_iff ws).mpr h
  unfold shiftedWeights?
  rw [if_pos hfinite]
  cases hmax : maximum ws with
  | real top => exact ⟨top, rfl⟩
  | nan | posInf | negInf => rw [hmax] at hfinite; cases hfinite

theorem shiftedWeights_of_not_drawable {ws : List Extended} (h : ¬ Drawable ws) :
    shiftedWeights? ws = none :=
  if_neg ((isFinite_maximum_iff ws).not.mpr h)

/-- A constant added to all log-weights is taken away by the shift. -/
theorem shiftedWeights_map_add (ws : List Extended) (c : ℝ) :
    shiftedWeights? (ws.map (· + .real c)) = shiftedWeights? ws := by
  unfold shiftedWeights?
  rw [maximum_map_add]
  cases maximum ws with
  | nan | posInf | negInf => rfl
  | real top =>
      have hterm : ∀ w : Extended, Scalar.exp (w + .real c - (.real top + .real c)) =
          Scalar.exp (w - .real top) := by
        intro w
        cases w with
        | nan | posInf | negInf => rfl
        | real x =>
            refine congrArg (fun y => Extended.real (Real.exp y)) ?_
            ring
      show some ((ws.map (· + .real c)).map
        fun w => Scalar.exp (w - (.real top + .real c))) = some _
      rw [List.map_map]
      exact congrArg some (List.map_congr_left fun w _ => hterm w)

/-! ## Draws -/

section Draw

variable {G : Type} [Generator G Extended] {ws : List Extended}

theorem draw_of_not_drawable (h : ¬ Drawable ws) (g : G) : draw ws g = (none, g) := by
  unfold draw
  rw [shiftedWeights_of_not_drawable h]

/-- A number falls into a part, and with the weight of that alternative the cumulative sum of a
draw exceeds its target for the first time. -/
theorem exists_exceeds (h : Drawable ws) {u : ℝ} (hu : u ∈ Set.Ico (0 : ℝ) 1) :
    ∃ ps i, shiftedWeights? ws = some ps ∧ Covers ws u i ∧
      less Scalar.zero (Scalar.sum (ps.filter isFinite)) = true ∧
      Exceeds (.real u * Scalar.sum (ps.filter isFinite)) Scalar.zero ps i ∧
      ∀ j < i, ¬ Exceeds (.real u * Scalar.sum (ps.filter isFinite)) Scalar.zero ps j := by
  obtain ⟨top, hshift⟩ := exists_shiftedWeights h
  obtain ⟨i, x, hx, hbelow, habove⟩ := exists_covers h hu
  -- total and target are scaled alike, so the shift makes no difference
  refine ⟨shifted top ws, i, hshift, ⟨x, hx, hbelow, habove⟩, ?_⟩
  rw [sum_shifted h.2, real_mul_scaled, ← scaled_zero top]
  refine ⟨?_, (exceeds_shifted_iff ..).mpr ⟨x, hx, habove⟩, fun j hj hexceeds => ?_⟩
  · rw [less_scaled]
    exact decide_eq_true (total_pos h)
  · obtain ⟨y, hy, hlt⟩ := (exceeds_shifted_iff ..).mp hexceeds
    have hle : before ws j + Real.exp y ≤ before ws i := before_add_mass_le hy hj
    linarith

theorem exists_draw_eq (h : Drawable ws) {g g' : G} {u : ℝ}
    (hg : Generator.uniform g = (Extended.real u, g')) (hu : u ∈ Set.Ico (0 : ℝ) 1) :
    ∃ i, draw ws g = (some i, g') ∧ Covers ws u i := by
  obtain ⟨ps, i, hshift, hi, htotal, hexceeds, hfirst⟩ := exists_exceeds h hu
  refine ⟨i, ?_, hi⟩
  unfold draw
  rw [hshift]
  dsimp only
  rw [if_pos htotal, hg]
  have hcovering := covering_of_exceeds hexceeds hfirst 0 none
  rw [Nat.zero_add] at hcovering
  exact congrArg (·, g') hcovering

/-- The alternative drawn is the one that covers the number. -/
theorem draw_eq_some_iff (h : Drawable ws) {g g' : G} {u : ℝ}
    (hg : Generator.uniform g = (Extended.real u, g')) (hu : u ∈ Set.Ico (0 : ℝ) 1) (i : Nat) :
    (draw ws g).1 = some i ↔ Covers ws u i := by
  obtain ⟨j, hdraw, hj⟩ := exists_draw_eq h hg hu
  rw [hdraw]
  constructor
  · intro heq
    exact Option.some.inj heq ▸ hj
  · exact fun hi => congrArg some (hj.unique hi)

/-- The part of an alternative, as numbers. -/
theorem setOf_covers {i : Nat} {x : ℝ} (h : Drawable ws) (hx : ws[i]? = some (.real x)) :
    {u ∈ Set.Ico (0 : ℝ) 1 | Covers ws u i} =
      Set.Ico (before ws i / total ws) ((before ws i + Real.exp x) / total ws) := by
  have hpos := total_pos h
  have hend : before ws i + Real.exp x ≤ total ws := before_add_mass_le_total hx
  ext u
  show (u ∈ Set.Ico (0 : ℝ) 1 ∧ Covers ws u i) ↔
    before ws i / total ws ≤ u ∧ u < (before ws i + Real.exp x) / total ws
  rw [div_le_iff₀ hpos, lt_div_iff₀ hpos]
  constructor
  · rintro ⟨-, y, hy, hbelow, habove⟩
    obtain rfl : y = x := Extended.real.inj (Option.some.inj (hy.symm.trans hx))
    exact ⟨hbelow, habove⟩
  · rintro ⟨hbelow, habove⟩
    have hstart := before_nonneg ws i
    exact ⟨⟨nonneg_of_mul_nonneg_left (hstart.trans hbelow) hpos,
      (mul_lt_iff_lt_one_left hpos).mp (habove.trans_le hend)⟩, x, hx, hbelow, habove⟩

end Draw

/-- What a draw does with log-weights, whatever they are. -/
structure Proportional (ws : List Extended) : Prop where
  /-- Without a finite log-weight, or beside one of plus infinity, nothing is drawn and no number
  is taken. -/
  rejected : ¬ Drawable ws → ∀ {G : Type} [Generator G Extended] (g : G), draw ws g = (none, g)
  /-- Else one number is taken and the alternative is drawn that alone covers it. -/
  drawn : Drawable ws → ∀ {G : Type} [Generator G Extended] {g g' : G} {u : ℝ},
    Generator.uniform g = (Extended.real u, g') → u ∈ Set.Ico (0 : ℝ) 1 →
      ∃ i, draw ws g = (some i, g') ∧ Covers ws u i ∧ ∀ j, Covers ws u j → j = i
  /-- It is the first one with whose weight the cumulative sum exceeds the target, so the loop
  does not come to its fallback. -/
  exceeded : Drawable ws → ∀ {u : ℝ}, u ∈ Set.Ico (0 : ℝ) 1 →
    ∃ ps i, shiftedWeights? ws = some ps ∧ Covers ws u i ∧
      Exceeds (.real u * Scalar.sum (ps.filter isFinite)) Scalar.zero ps i ∧
      (∀ j < i, ¬ Exceeds (.real u * Scalar.sum (ps.filter isFinite)) Scalar.zero ps j) ∧
      ∀ last, covering (.real u * Scalar.sum (ps.filter isFinite)) ps 0 Scalar.zero last = some i
  /-- The numbers that draw an alternative have the length of its part of the total weight. -/
  length : Drawable ws → ∀ {G : Type} [Generator G Extended] {state : ℝ → G},
    (∀ u ∈ Set.Ico (0 : ℝ) 1, ∃ g', Generator.uniform (state u) = (Extended.real u, g')) →
      ∀ {i : Nat} {x : ℝ}, ws[i]? = some (.real x) →
        volume {u ∈ Set.Ico (0 : ℝ) 1 | (draw ws (state u)).1 = some i} =
          ENNReal.ofReal (Real.exp x / total ws)
  /-- Nothing but a finite log-weight is ever drawn. -/
  finite : ∀ {G : Type} [Generator G Extended] {g : G} {i : Nat}, (draw ws g).1 = some i →
    ∃ x, ws[i]? = some (.real x)
  /-- A constant added to all log-weights changes nothing. -/
  shift : ∀ {G : Type} [Generator G Extended] (c : ℝ) (g : G),
    draw (ws.map (· + .real c)) g = draw ws g

/-- **Alternatives are drawn in proportion to their weights**, whatever the log-weights are. -/
theorem draw_proportional_to_weights (ws : List Extended) : Proportional ws where
  rejected h _ _ g := draw_of_not_drawable h g
  drawn h {_ _ g g' u} hg hu := by
    obtain ⟨i, hdraw, hi⟩ := exists_draw_eq h hg hu
    exact ⟨i, hdraw, hi, fun j hj => hj.unique hi⟩
  exceeded h _ hu := by
    obtain ⟨ps, i, hshift, hi, -, hexceeds, hfirst⟩ := exists_exceeds h hu
    have hcovering := covering_of_exceeds hexceeds hfirst 0
    rw [Nat.zero_add] at hcovering
    exact ⟨ps, i, hshift, hi, hexceeds, hfirst, hcovering⟩
  length h {G _ state} hstate {i x} hx := by
    have hpart : {u ∈ Set.Ico (0 : ℝ) 1 | (draw ws (state u)).1 = some i} =
        {u ∈ Set.Ico (0 : ℝ) 1 | Covers ws u i} := by
      ext u
      refine and_congr_right fun hu => ?_
      obtain ⟨g', hg⟩ := hstate u hu
      exact draw_eq_some_iff h hg hu i
    rw [hpart, setOf_covers h hx, Real.volume_Ico, ← sub_div, add_sub_cancel_left]
  finite {G _ g i} hdraw := by
    have h : Drawable ws := by
      by_contra hnot
      rw [draw_of_not_drawable hnot] at hdraw
      cases hdraw
    obtain ⟨w, hw, hadm⟩ := admissible_of_draw (Prod.ext hdraw rfl)
    obtain ⟨hnan, hneg⟩ := (admissible_iff w).mp hadm
    cases w with
    | nan => exact absurd rfl hnan
    | negInf => exact absurd rfl hneg
    | posInf => exact absurd (List.mem_of_getElem? hw) h.2
    | real x => exact ⟨x, hw⟩
  shift c g := by
    unfold draw
    rw [shiftedWeights_map_add]

end Extended

/-! ## A mixed choice -/

namespace Draws

noncomputable instance : Generator Draws Extended where
  uniform d := (.real d.upcoming.head, d.after 1)

/-- The same number again and again. -/
noncomputable def constant (u : ℝ) : Draws where
  upcoming := Stream'.const (if h : u ∈ Set.Ico (0 : ℝ) 1 then ⟨u, h⟩ else ⟨0, le_rfl, one_pos⟩)

theorem uniform_constant {u : ℝ} (hu : u ∈ Set.Ico (0 : ℝ) 1) :
    Generator.uniform (constant u) = (Extended.real u, (constant u).after 1) := by
  show (Extended.real (constant u).upcoming.head, _) = _
  congr 2
  show ((if h : u ∈ Set.Ico (0 : ℝ) 1 then ⟨u, h⟩ else ⟨0, le_rfl, one_pos⟩ :
    Set.Ico (0 : ℝ) 1) : ℝ) = u
  rw [dif_pos hu]

end Draws

/-- Weights of one and of Euler's number among log-weights that cannot be drawn. -/
noncomputable def mixed : List Extended := [.nan, .real 0, .negInf, .real 1]

/-- The larger weight is drawn by its share of the numbers. -/
theorem volume_draw_mixed :
    volume {u ∈ Set.Ico (0 : ℝ) 1 | (draw mixed (Draws.constant u)).1 = some 3} =
      ENNReal.ofReal (Real.exp 1 / (1 + Real.exp 1)) := by
  have hdrawable : Extended.Drawable mixed := ⟨⟨0, by simp [mixed]⟩, by simp [mixed]⟩
  have htotal : Extended.total mixed = 1 + Real.exp 1 := by
    simp [mixed, Extended.mass]
  have hlength := (Extended.draw_proportional_to_weights mixed).length hdrawable
    (fun u hu => ⟨_, Draws.uniform_constant hu⟩) (i := 3) rfl
  rwa [htotal] at hlength

end ChoiceSearch
