import ChoiceSearch.Proofs.Marginals
import ChoiceSearch.Proofs.Search.Reckoning
import ChoiceSearch.Proofs.Training.Example

/-!
# The value of the training loss

The loss of an example is an expression, made of the differentiable scores of the executions
that its searches found. The score of an execution has the log-weight of the execution as its
value, so what the loss adds up symbolically is what the partition function adds up over
log-weights: `logMass` has the logarithm of the partition function as its value, through the
score itself where there is one execution, and through a log-sum-exp of scores where there
are several.

So the loss is minus the logarithm of the summed probabilities of the conditional
executions, or the difference of two logarithms of partition functions, depending on the
objective (`Trainer.learns_of_searches`).
-/

namespace ChoiceSearch

variable {D κ α : Type}

/-! ## Partition functions of real log-weights -/

/-- The executions have real log-weights, and their scores have them as values. -/
def Marginals.Scored (m : Marginals α D Exact) (g : Graph Exact) : Prop :=
  ∀ e ∈ m.executions, g.evaluate e.env.score = .ok [e.logProb] ∧ ∃ x : ℝ, e.logProb = .real x

namespace Marginals

variable {m : Marginals α D Exact} {g : Graph Exact}

theorem Scored.finite (h : m.Scored g) : m.Finite := fun e he => (h e he).2

/-- Executions among others have no more mass than those. -/
theorem mass_le_of_subperm {m' : Marginals α D Exact}
    (h : m.executions.Subperm m'.executions) : m.mass ≤ m'.mass := by
  obtain ⟨kept, hperm, hsub⟩ := h
  unfold mass
  rw [← (hperm.map _).sum_eq]
  refine (hsub.map _).sum_le_sum fun x hx => ?_
  obtain ⟨e, -, rfl⟩ := List.mem_map.mp hx
  exact e.logProb.weight_nonneg

theorem Scored.mass_pos (h : m.Scored g) (hne : m.executions ≠ []) : 0 < m.mass :=
  h.finite.mass_pos hne

theorem Scored.partition_eq (h : m.Scored g) : m.partition = .real m.mass :=
  h.finite.partition_eq

theorem Scored.logPartition_eq (h : m.Scored g) (hne : m.executions ≠ []) :
    m.logPartition = .real (Real.log m.mass) :=
  h.finite.logPartition_eq hne

/-- The logarithm of the summed probabilities is the log-partition function. -/
theorem Scored.log_partition (h : m.Scored g) (hne : m.executions ≠ []) :
    ∃ x : ℝ, m.logPartition = .real x ∧ Scalar.log m.partition = .real x := by
  refine ⟨Real.log m.mass, h.logPartition_eq hne, ?_⟩
  rw [h.partition_eq, Exact.log_real (h.mass_pos hne)]

/-- **The value of the summed scores is the log-partition function**, for one execution and
for several. -/
theorem Scored.evaluate_logMass (h : m.Scored g) :
    g.evaluate (logMass m) = .ok [m.logPartition] := by
  unfold logMass
  split
  · -- the score of a single execution stands for itself
    rename_i e hone
    obtain ⟨hscore, x, hx⟩ := h e (hone ▸ List.mem_singleton_self e)
    rw [hscore, logPartition, hone, List.map_singleton, hx, Exact.logSumExp_singleton]
  · refine Graph.evaluate_logSumExp (Graph.scalars_eq_ok_iff.mpr ?_)
    rw [List.forall₂_map_left_iff, List.forall₂_map_right_iff]
    exact List.forall₂_same.mpr fun e he => (h e he).1

/-- The difference of two sums of scores has the difference of two log-partition functions as
its value. -/
theorem Scored.evaluate_sub {m' : Marginals α D Exact} (h : m.Scored g) (h' : m'.Scored g) :
    g.evaluate (.sub (logMass m) (logMass m')) = .ok [m.logPartition + -m'.logPartition] := by
  rw [Expr.sub, Graph.evaluate_add_scalars h.evaluate_logMass
    (Graph.evaluate_neg h'.evaluate_logMass)]

end Marginals

/-! ## Examples -/

/-- Both programs of an example leave weight and score to their choices, from a score of
zero, and the oracle keeps paths or rejects them. -/
structure Example.ScoredByChoices (ex : Example D κ Exact) (codes : Codes D κ Exact)
    (K : κ → Prop) : Prop where
  unconditional : ex.unconditional.ScoredByChoices codes K
  conditional : ex.conditional.ScoredByChoices codes K
  oracle : ex.oracle.Filters
  score : ex.env.score.isZero = true

namespace Trainer

variable {T : Trainer D κ Exact} {K : κ → Prop} {g : Graph Exact}

theorem scored_of_search (hK : T.codes.ScoredByChoices K) (hg : g.RealParams)
    {score : ExecutionScore D Exact} (hscore : score.Filters) {program : Program D κ Exact}
    (hprogram : program.ScoredByChoices T.codes K) {env : Env D Exact}
    (hzero : env.score.isZero = true) {m : Marginals (Value D Exact) D Exact}
    (hm : (T.search g score program env).value = .ok m) : m.Scored g := by
  intro e he
  obtain ⟨route, hroute⟩ := Setting.exists_survives_of_mem hm he
  let S : Setting D κ Exact := { codes := T.codes, graph := g, score, fuel := T.fuel }
  obtain ⟨labels, -, htally⟩ :=
    Setting.exists_tally_of_survives (S := S) hK rfl hg hscore hprogram hzero hroute
  obtain ⟨xs, -, hsum⟩ := htally.logProb_eq
  exact ⟨htally.score_eq, xs.sum, hsum⟩

/-- The trainer computes a loss for an example. It is an expression of the given value, and
the value is what learning from the example yields. -/
def Learns (T : Trainer D κ Exact) (index : Nat) (ex : Example D κ Exact) (fit : Fit Exact)
    (value : Exact) : Prop :=
  ∃ loss, (T.exampleLoss fit.graph.renew index ex).value = .ok (some loss) ∧
    fit.graph.renew.evaluate loss = .ok [value] ∧
    (T.learn index ex fit).value.2 = .ok (some value)

/-- A loss with a scalar value is differentiated, and its value is what learning yields. -/
theorem learns_of_evaluate {index : Nat} {ex : Example D κ Exact} {fit : Fit Exact}
    {loss : Expr Exact} {value : Exact}
    (hloss : (T.exampleLoss fit.graph.renew index ex).value = .ok (some loss))
    (hvalue : fit.graph.renew.evaluate loss = .ok [value]) : T.Learns index ex fit value := by
  refine ⟨loss, hloss, hvalue, ?_⟩
  obtain ⟨graph, hbackward⟩ := Graph.exists_backward_of_evaluate hvalue
  have hstep := descendLoss_of_backward { fit with graph := fit.graph.renew } hvalue hbackward
  rw [value_learn_of_descendLoss fit hloss hstep]
  rfl

section Loss

variable {index : Nat} {ex : Example D κ Exact}
  {conditional unconditional : Marginals (Value D Exact) D Exact}

/-- **The value of the training loss.** For an example whose programs leave weight and score
to their choices, and whose conditional search finds something to learn from: it is minus
the logarithm of the summed probabilities of the conditional executions, or what the
logarithm of the unconditional partition function exceeds that of the conditional one by,
depending on the objective. -/
theorem learns_of_searches (hK : T.codes.ScoredByChoices K)
    (hex : ex.ScoredByChoices T.codes K) {fit : Fit Exact} (hg : fit.graph.RealParams)
    (hcond : (T.search fit.graph.renew ex.oracle ex.conditional ex.env).value = .ok conditional)
    (hne : conditional.executions ≠ [])
    (hmany : conditional.size = 1 ∨ T.config.allowMultipleLabels = true) :
    (T.config.objective = .loglikelihood →
      T.Learns index ex fit (-Scalar.log conditional.partition)) ∧
    (T.config.objective = .globalLoglikelihood → ∀ unconditional,
      (T.search fit.graph.renew .zero ex.unconditional ex.env).value = .ok unconditional →
      unconditional.executions ≠ [] →
      T.Learns index ex fit (unconditional.logPartition - conditional.logPartition)) := by
  have hg' : fit.graph.renew.RealParams := hg
  have hscored := scored_of_search hK hg' hex.oracle hex.conditional hex.score hcond
  obtain ⟨x, hx, hlog⟩ := hscored.log_partition hne
  have hgold : fit.graph.renew.evaluate (.neg (logMass conditional)) = .ok [.real (-x)] := by
    rw [Graph.evaluate_neg hscored.evaluate_logMass, hx]
    rfl
  constructor
  · intro hobjective
    have hloss : (T.exampleLoss fit.graph.renew index ex).value =
        .ok (some (.neg (logMass conditional))) :=
      (value_exampleLoss hcond).trans (lossGiven_loglikelihood hne hmany hobjective)
    refine learns_of_evaluate hloss ?_
    rw [hgold, hlog]
    rfl
  · intro hobjective unconditional hunc hune
    have hloss : (T.exampleLoss fit.graph.renew index ex).value =
        .ok (some (.sub (logMass unconditional) (logMass conditional))) :=
      (value_exampleLoss hcond).trans
        (lossGiven_globalLoglikelihood hne hmany hobjective hunc hune)
    have hall :=
      scored_of_search hK hg' ExecutionScore.filters_zero hex.unconditional hex.score hunc
    obtain ⟨y, hy, -⟩ := hall.log_partition hune
    refine learns_of_evaluate hloss ?_
    rw [Expr.sub, Graph.evaluate_add_scalars hall.evaluate_logMass hgold, hx, hy, Exact.real_add,
      ← sub_eq_add_neg]
    rfl

end Loss

end Trainer

/-! ## Learning a side -/

/-- The example in which the first side is right. -/
noncomputable def sideExample : Example Bool (Option Bool) Exact where
  unconditional := keptSide
  conditional := keptSide
  env := .init
  oracle _ choice _ := if choice = some false then .negInf else Scalar.zero

/-- The trainer that prefers the right side to all others. -/
noncomputable def sideTrainer : Trainer Bool (Option Bool) Exact where
  config := { search := .exhaustive 3, objective := .globalLoglikelihood }
  codes := sideCodes
  fuel := 8

theorem scoredByChoices_sideExample : sideExample.ScoredByChoices sideCodes (· = none) where
  unconditional := scoredByChoices_keptSide
  conditional := scoredByChoices_keptSide
  oracle _ choice _ := by
    by_cases h : choice = some false
    · exact .inr (if_pos h)
    · exact .inl (if_neg h)
  score := isZero_zero

/-- The side is learnt: one of the executions of either side is right. -/
theorem learns_sideExample : ∃ conditional unconditional,
    (sideTrainer.search sideGraph.renew sideExample.oracle sideExample.conditional .init).value =
      .ok conditional ∧ conditional.executions ≠ [] ∧ conditional.size = 1 ∧
    (sideTrainer.search sideGraph.renew .zero sideExample.unconditional .init).value =
      .ok unconditional ∧ unconditional.executions ≠ [] ∧
    ∀ descent, sideTrainer.Learns 0 sideExample { graph := sideGraph, descent }
      (unconditional.logPartition - conditional.logPartition) := by
  obtain ⟨conditional, hcond, hsize⟩ : ∃ conditional, (sideTrainer.search sideGraph.renew
      sideExample.oracle sideExample.conditional .init).value = .ok conditional ∧
        conditional.size = 1 := ⟨_, rfl, rfl⟩
  obtain ⟨unconditional, hunc, e, he, -⟩ := exists_label_keptSide
  have hne : conditional.executions ≠ [] := List.ne_nil_of_length_eq_add_one hsize
  have hune : unconditional.executions ≠ [] := List.ne_nil_of_mem he
  refine ⟨conditional, unconditional, hcond, hne, hsize, hunc, hune, fun descent => ?_⟩
  let fit : Fit Exact := { graph := sideGraph, descent }
  have hparams : fit.graph.RealParams := realParams_sideGraph
  obtain ⟨-, hlearns⟩ := Trainer.learns_of_searches (T := sideTrainer) scoredByChoices_sideCodes
    scoredByChoices_sideExample hparams hcond hne (.inl hsize)
  exact hlearns rfl unconditional hunc hune

end ChoiceSearch
