import ChoiceSearch.Proofs.Scalar.Exact
import ChoiceSearch.Search.Draw
import Mathlib.Data.Stream.Init
import Mathlib.Order.Interval.Set.Basic

/-!
# Exact draws

Uniform numbers are handed out one after the other from a sequence of real numbers in
`[0, 1)`, and it is counted how many were (`Draws`).

Drawing an alternative takes one number if some weight is admissible and none otherwise
(`draw_of_admissible`, `draw_of_rejected`). The alternative drawn has an admissible weight,
and every alternative with an admissible weight is drawn by some number
(`exists_number_draws`): each has its own part of `[0, 1)`.
-/

namespace ChoiceSearch

/-- A sequence of uniform numbers, and how many were taken so far. -/
structure Draws where
  /-- The numbers to come. -/
  upcoming : Stream' (Set.Ico (0 : ℝ) 1)
  /-- How many were taken. -/
  taken : Nat := 0

namespace Draws

/-- The sequence after some more numbers were taken. -/
def after (d : Draws) (n : Nat) : Draws := ⟨d.upcoming.drop n, d.taken + n⟩

theorem after_after (d : Draws) (m n : Nat) : (d.after m).after n = d.after (m + n) := by
  unfold after
  rw [Stream'.drop_drop, Nat.add_assoc]

noncomputable instance : Generator Draws Exact where
  uniform d := (.real d.upcoming.head, d.after 1)

theorem uniform_eq (d : Draws) :
    Generator.uniform d = (Exact.real d.upcoming.head, d.after 1) := rfl

end Draws

/-! ## The covering alternative -/

section Covering

variable {R : Type} [Scalar R] {target : R} {ps : List R}

theorem covering_of_not_positive (h : ∀ p ∈ ps, isPositive p = false) (index : Nat)
    (cumulative : R) (last : Option Nat) : covering target ps index cumulative last = last := by
  induction ps generalizing index with
  | nil => rfl
  | cons p ps ih =>
      rw [covering, h p List.mem_cons_self]
      exact ih (fun q hq => h q (List.mem_cons_of_mem _ hq)) (index + 1)

/-- If some weight is positive, the index of a positive weight is found. -/
theorem exists_covering (h : ∃ p ∈ ps, isPositive p = true) (index : Nat) (cumulative : R)
    (last : Option Nat) : ∃ i p, ps[i]? = some p ∧ isPositive p = true ∧
      covering target ps index cumulative last = some (index + i) := by
  induction ps generalizing index cumulative last with
  | nil =>
      obtain ⟨p, hp, -⟩ := h
      cases hp
  | cons p ps ih =>
      have hshift : ∀ cumulative last, (∃ q ∈ ps, isPositive q = true) → ∃ i q,
          (p :: ps)[i]? = some q ∧ isPositive q = true ∧
          covering target ps (index + 1) cumulative last = some (index + i) := by
        intro cumulative last hrest
        obtain ⟨i, q, hq, hpos, hcov⟩ := ih hrest (index + 1) cumulative last
        exact ⟨i + 1, q, hq, hpos, by rw [hcov]; congr 1; omega⟩
      rw [covering]
      cases hp : isPositive p with
      | true =>
          rw [if_pos rfl]
          dsimp only
          by_cases hless : Scalar.less target (cumulative + p) = true
          · rw [if_pos hless]
            exact ⟨0, p, rfl, hp, rfl⟩
          · rw [if_neg hless]
            by_cases hrest : ∃ q ∈ ps, isPositive q = true
            · exact hshift _ _ hrest
            · -- the last positive weight has been passed
              have hnone : ∀ q ∈ ps, isPositive q = false := by
                intro q hq
                by_contra hpos
                exact hrest ⟨q, hq, by simpa using hpos⟩
              exact ⟨0, p, rfl, hp, covering_of_not_positive hnone _ _ _⟩
      | false =>
          obtain ⟨q, hq, hpos⟩ := h
          rcases List.mem_cons.mp hq with rfl | hq
          · rw [hp] at hpos
            cases hpos
          · exact hshift _ _ ⟨q, hq, hpos⟩

/-- The cumulative sum of the positive weights before an index, from a start on. -/
def cumulative (start : R) (ps : List R) (i : Nat) : R :=
  ((ps.take i).filter isPositive).foldl (· + ·) start

/-- With the weight at an index, which is positive, the cumulative sum exceeds the target. -/
def Exceeds (target start : R) (ps : List R) (i : Nat) : Prop :=
  ∃ p, ps[i]? = some p ∧ isPositive p = true ∧
    Scalar.less target (cumulative start ps i + p) = true

theorem cumulative_cons_succ (start p : R) (ps : List R) (i : Nat) :
    cumulative start (p :: ps) (i + 1) =
      cumulative (if isPositive p then start + p else start) ps i := by
  unfold cumulative
  rw [List.take_succ_cons, List.filter_cons]
  split <;> rfl

theorem exceeds_cons_succ {start p : R} {i : Nat} : Exceeds target start (p :: ps) (i + 1) ↔
    Exceeds target (if isPositive p then start + p else start) ps i := by
  unfold Exceeds
  rw [List.getElem?_cons_succ, cumulative_cons_succ]

/-- The index at which the sum first exceeds the target is found before any fallback. -/
theorem covering_of_exceeds {start : R} {i : Nat} (h : Exceeds target start ps i)
    (hfirst : ∀ j < i, ¬ Exceeds target start ps j) (index : Nat) (last : Option Nat) :
    covering target ps index start last = some (index + i) := by
  induction ps generalizing start i index last with
  | nil =>
      obtain ⟨p, hp, -⟩ := h
      cases hp
  | cons p ps ih =>
      cases i with
      | zero =>
          obtain ⟨q, hq, hpos, hless⟩ := h
          cases hq
          have hhere : Scalar.less target (start + p) = true := hless
          rw [covering, if_pos hpos]
          dsimp only
          rw [if_pos hhere]
          rfl
      | succ i =>
          have hnext := ih (exceeds_cons_succ.mp h) (fun j hj hexceeds =>
            hfirst (j + 1) (Nat.succ_lt_succ hj) (exceeds_cons_succ.mpr hexceeds)) (index + 1)
          have hindex : index + 1 + i = index + (i + 1) := by omega
          rw [hindex] at hnext
          rw [covering]
          by_cases hp : isPositive p = true
          · have hless : ¬ Scalar.less target (start + p) = true := fun hless =>
              hfirst 0 (Nat.succ_pos i) ⟨p, rfl, hp, hless⟩
            rw [if_pos hp] at hnext ⊢
            dsimp only
            rw [if_neg hless]
            exact hnext _
          · rw [if_neg hp] at hnext ⊢
            exact hnext _

end Covering

namespace Exact

/-- The length of the part of `[0, 1)`, before normalisation, that a weight covers. -/
noncomputable def share (p : Exact) : ℝ := if isPositive p then p.toReal else 0

theorem isPositive_iff {p : Exact} : isPositive p = true ↔ ∃ x : ℝ, 0 < x ∧ p = .real x := by
  cases p with
  | nan => exact ⟨fun h => (by cases h), fun ⟨_, _, h⟩ => (by cases h)⟩
  | negInf => exact ⟨fun h => (by cases h), fun ⟨_, _, h⟩ => (by cases h)⟩
  | real x =>
      have hpos : isPositive (Exact.real x) = decide (0 < x) := Bool.and_true _
      rw [hpos, decide_eq_true_iff]
      exact ⟨fun h => ⟨x, h, rfl⟩, fun ⟨y, hy, heq⟩ => by cases heq; exact hy⟩

theorem share_nonneg (p : Exact) : 0 ≤ p.share := by
  unfold share
  split
  · rename_i h
    obtain ⟨x, hx, rfl⟩ := isPositive_iff.mp h
    exact hx.le
  · exact le_rfl

theorem sum_share_nonneg (ps : List Exact) : 0 ≤ (ps.map share).sum := by
  refine List.sum_nonneg fun x hx => ?_
  obtain ⟨p, -, rfl⟩ := List.mem_map.mp hx
  exact share_nonneg p

/-- The cumulative sum is that of the parts. -/
theorem cumulative_eq (c : ℝ) (ps : List Exact) (i : Nat) :
    cumulative (.real c) ps i = .real (c + ((ps.take i).map share).sum) := by
  unfold cumulative
  induction ps.take i generalizing c with
  | nil => simp
  | cons q qs ih =>
      rw [List.filter_cons, List.map_cons, List.sum_cons, ← add_assoc]
      by_cases hq : isPositive q = true
      · obtain ⟨x, hx, rfl⟩ := isPositive_iff.mp hq
        have hshare : share (.real x) = x := if_pos hq
        rw [if_pos hq, List.foldl_cons, hshare]
        exact ih (c + x)
      · have hshare : share q = 0 := if_neg hq
        rw [if_neg hq, hshare, add_zero, ih]

/-- A number within the part of an alternative selects it. -/
theorem covering_eq {ps : List Exact} {i : Nat} {p : Exact} {r c : ℝ} (hp : ps[i]? = some p)
    (hpos : isPositive p = true) (hlow : c + ((ps.take i).map share).sum ≤ r)
    (hhigh : r < c + ((ps.take i).map share).sum + p.share) (index : Nat) (last : Option Nat) :
    covering (.real r) ps index (.real c) last = some (index + i) := by
  have hexceeds : ∀ {j q}, isPositive q = true →
      (Scalar.less (.real r) (cumulative (.real c) ps j + q) = true ↔
        r < c + ((ps.take j).map share).sum + q.share) := by
    intro j q hq
    obtain ⟨x, hx, rfl⟩ := isPositive_iff.mp hq
    have hshare : share (.real x) = x := if_pos hq
    rw [cumulative_eq, hshare]
    exact decide_eq_true_iff
  refine covering_of_exceeds ⟨p, hp, hpos, (hexceeds hpos).mpr hhigh⟩ ?_ index last
  rintro j hj ⟨q, hq, hqpos, hless⟩
  -- the part of an earlier alternative ends before the number
  have hnext : ((ps.take (j + 1)).map share).sum = ((ps.take j).map share).sum + q.share := by
    rw [List.take_add_one, hq, Option.toList_some, List.map_append, List.sum_append]
    simp
  have hle : ((ps.take (j + 1)).map share).sum ≤ ((ps.take i).map share).sum := by
    refine ((List.take_sublist_take_left hj).map share).sum_le_sum fun x hx => ?_
    obtain ⟨y, -, rfl⟩ := List.mem_map.mp hx
    exact share_nonneg y
  have hend := (hexceeds hqpos).mp hless
  linarith

/-- The weights that can be drawn are the admissible ones. -/
theorem isPositive_exp_sub (w : Exact) (top : ℝ) :
    isPositive (Scalar.exp (w - .real top)) = Scalar.admissible w := by
  cases w with
  | nan => rfl
  | negInf =>
      rw [admissible_negInf]
      have hexp : Scalar.exp (Exact.negInf - .real top) = Exact.real 0 := rfl
      rw [hexp]
      exact Bool.eq_false_iff.mpr fun h => by
        obtain ⟨x, hx, heq⟩ := isPositive_iff.mp h
        cases heq
        exact lt_irrefl _ hx
  | real x => exact isPositive_iff.mpr ⟨_, Real.exp_pos (x - top), rfl⟩

/-- The finite weights sum up to the length of all parts. -/
theorem sum_filter_isFinite {ps : List Exact}
    (h : ∀ p ∈ ps, p = .nan ∨ ∃ x : ℝ, 0 ≤ x ∧ p = .real x) :
    Scalar.sum (ps.filter Scalar.isFinite) = .real (ps.map share).sum := by
  have hreal : ps.filter Scalar.isFinite =
      (ps.filter Scalar.isFinite).map fun p => Exact.real p.toReal := by
    refine (List.map_id _).symm.trans (List.map_congr_left fun p hp => ?_)
    rcases h p (List.mem_of_mem_filter hp) with rfl | ⟨x, -, rfl⟩
    · cases (List.mem_filter.mp hp).2
    · rfl
  rw [hreal, sum_map_real]
  congr 1
  clear hreal
  induction ps with
  | nil => rfl
  | cons p ps ih =>
      have hrest := ih fun q hq => h q (List.mem_cons_of_mem _ hq)
      rcases h p List.mem_cons_self with rfl | ⟨x, hx, rfl⟩
      · have hnone : share .nan = 0 := rfl
        rw [List.filter_cons_of_neg (by decide), hrest, List.map_cons, List.sum_cons, hnone,
          zero_add]
      · have hshare : share (.real x) = x := by
          unfold share
          split
          · rfl
          · rename_i hnot
            have hle : ¬ 0 < x := fun hlt => hnot (isPositive_iff.mpr ⟨x, hlt, rfl⟩)
            exact (le_antisymm (not_lt.mp hle) hx).symm
        rw [List.filter_cons_of_pos (by rfl), List.map_cons, List.sum_cons, hrest, List.map_cons,
          List.sum_cons, hshare, toReal_real]

end Exact

/-! ## Draws -/

section Draw

variable {ws : List Exact}

/-- If every weight is rejected, nothing is drawn and no number is taken. -/
theorem draw_of_rejected (h : ∀ w ∈ ws, Scalar.admissible w = false) (d : Draws) :
    draw ws d = (none, d) := by
  unfold draw shiftedWeights?
  rw [Exact.maximum_of_rejected h]
  rfl

/-- If some weight is admissible, the shifted weights are positive for the admissible ones
only, a number is taken, and it selects among them. -/
theorem draw_eq_covering (h : ∃ w ∈ ws, Scalar.admissible w = true) : ∃ ps : List Exact,
    ps.length = ws.length ∧
    (∀ (i : Nat) (p : Exact), ps[i]? = some p →
      ∃ w, ws[i]? = some w ∧ isPositive p = Scalar.admissible w) ∧
    0 < (ps.map Exact.share).sum ∧ ∀ d : Draws, draw ws d =
      (covering (.real (d.upcoming.head * (ps.map Exact.share).sum)) ps 0 Scalar.zero none,
        d.after 1) := by
  obtain ⟨top, htop⟩ := Exact.exists_maximum_eq h
  let ps := ws.map fun w => Scalar.exp (w - .real top)
  have hindex : ∀ (i : Nat) (p : Exact), ps[i]? = some p →
      ∃ w, ws[i]? = some w ∧ isPositive p = Scalar.admissible w := by
    intro i p hp
    obtain ⟨w, hw, rfl⟩ := Option.map_eq_some_iff.mp (List.getElem?_map .. ▸ hp)
    exact ⟨w, hw, Exact.isPositive_exp_sub w top⟩
  have hform : ∀ p ∈ ps, p = .nan ∨ ∃ x : ℝ, 0 ≤ x ∧ p = .real x := by
    intro p hp
    obtain ⟨w, -, rfl⟩ := List.mem_map.mp hp
    cases w with
    | nan => exact .inl rfl
    | negInf => exact .inr ⟨0, le_rfl, rfl⟩
    | real x => exact .inr ⟨Real.exp (x - top), (Real.exp_pos _).le, rfl⟩
  -- one part is positive and none is negative
  have htotal : 0 < (ps.map Exact.share).sum := by
    obtain ⟨w, hw, hadm⟩ := h
    have hp : isPositive (Scalar.exp (w - .real top)) = true := by
      rw [Exact.isPositive_exp_sub, hadm]
    obtain ⟨x, hx, heq⟩ := Exact.isPositive_iff.mp hp
    have hshare : Exact.share (Scalar.exp (w - .real top)) = x := by
      unfold Exact.share
      rw [if_pos hp, heq, Exact.toReal_real]
    have hmem : x ∈ ps.map Exact.share :=
      hshare ▸ List.mem_map_of_mem (List.mem_map_of_mem hw)
    have hnonneg : ∀ y ∈ ps.map Exact.share, 0 ≤ y := by
      intro y hy
      obtain ⟨q, -, rfl⟩ := List.mem_map.mp hy
      exact Exact.share_nonneg q
    exact hx.trans_le (List.single_le_sum hnonneg x hmem)
  refine ⟨ps, List.length_map _, hindex, htotal, fun d => ?_⟩
  have hsum := Exact.sum_filter_isFinite hform
  have hless : Scalar.less (Scalar.zero : Exact) (.real (ps.map Exact.share).sum) = true :=
    decide_eq_true htotal
  unfold draw shiftedWeights?
  have hfinite : Scalar.isFinite (Exact.real top) = true := rfl
  rw [htop]
  dsimp only
  rw [if_pos hfinite]
  dsimp only
  rw [hsum, if_pos hless, Draws.uniform_eq]
  rfl

/-- One number is taken, and the alternative drawn has an admissible weight. -/
theorem draw_of_admissible (h : ∃ w ∈ ws, Scalar.admissible w = true) (d : Draws) :
    ∃ i w, ws[i]? = some w ∧ Scalar.admissible w = true ∧ draw ws d = (some i, d.after 1) := by
  obtain ⟨ps, hlen, hindex, htotal, hdraw⟩ := draw_eq_covering h
  have hpos : ∃ p ∈ ps, isPositive p = true := by
    by_contra hnone
    have hzero : ∀ x ∈ ps.map Exact.share, x = 0 := by
      intro x hx
      obtain ⟨p, hp, rfl⟩ := List.mem_map.mp hx
      exact if_neg fun hpos => hnone ⟨p, hp, hpos⟩
    rw [List.sum_eq_zero hzero] at htotal
    exact lt_irrefl _ htotal
  obtain ⟨i, p, hp, hpi, hcov⟩ := exists_covering hpos 0 Scalar.zero none
  obtain ⟨w, hw, hadm⟩ := hindex i p hp
  exact ⟨i, w, hw, hadm ▸ hpi, by rw [hdraw, hcov, Nat.zero_add]⟩

/-- Every alternative with an admissible weight is drawn by some number. -/
theorem exists_number_draws {i : Nat} {w : Exact} (hw : ws[i]? = some w)
    (hadm : Scalar.admissible w = true) : ∃ number : Set.Ico (0 : ℝ) 1,
      ∀ d : Draws, d.upcoming.head = number → draw ws d = (some i, d.after 1) := by
  obtain ⟨ps, hlen, hindex, htotal, hdraw⟩ :=
    draw_eq_covering ⟨w, List.mem_of_getElem? hw, hadm⟩
  have hi : i < ps.length := hlen ▸ (List.getElem?_eq_some_iff.mp hw).1
  have hp : ps[i]? = some ps[i] := List.getElem?_eq_getElem hi
  have hpos : isPositive ps[i] = true := by
    obtain ⟨w', hw', heq⟩ := hindex i _ hp
    rw [hw] at hw'
    cases hw'
    rw [heq, hadm]
  have hshare : 0 < ps[i].share := by
    obtain ⟨x, hx, heq⟩ := Exact.isPositive_iff.mp hpos
    unfold Exact.share
    rw [if_pos hpos, heq, Exact.toReal_real]
    exact hx
  -- the number at the lower end of the part of the alternative
  have hsplit : ((ps.take i).map Exact.share).sum + ps[i].share ≤ (ps.map Exact.share).sum := by
    have hparts : ps = ps.take i ++ ps[i] :: ps.drop (i + 1) := by
      rw [← List.drop_eq_getElem_cons hi, List.take_append_drop]
    conv_rhs => rw [hparts]
    rw [List.map_append, List.sum_append, List.map_cons, List.sum_cons]
    have hrest := Exact.sum_share_nonneg (ps.drop (i + 1))
    linarith
  have hlow : ((ps.take i).map Exact.share).sum / (ps.map Exact.share).sum ∈ Set.Ico (0 : ℝ) 1 :=
    ⟨div_nonneg (Exact.sum_share_nonneg _) htotal.le, (div_lt_one htotal).mpr (by linarith)⟩
  refine ⟨⟨_, hlow⟩, fun d hd => ?_⟩
  have hcov := Exact.covering_eq (c := 0) hp hpos (zero_add _).le
    (by linarith : ((ps.take i).map Exact.share).sum < _) 0 none
  rw [Nat.zero_add] at hcov
  rw [hdraw, hd, div_mul_cancel₀ _ htotal.ne', ← hcov]
  rfl

end Draw

end ChoiceSearch
