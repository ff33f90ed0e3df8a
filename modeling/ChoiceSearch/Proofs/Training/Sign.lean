import ChoiceSearch.Proofs.Search.Filtering
import ChoiceSearch.Proofs.Training.Loss

/-!
# The sign of the training loss

Under the global objective the loss of an example is the logarithm of the mass that the
unconditional search found, less that of the mass that the conditional search found. It is
nonnegative where the executions of the conditional search are among those of the
unconditional one, and a beam that drops nothing of the unconditional search makes them so
(`Trainer.sign_of_exampleLoss`).

The two searches have beams of their own, though. A narrow unconditional beam may drop the
very paths that the oracle keeps, for the sake of paths that turn out to be worse: then the
loss is negative (`learns_gardenExample_of_narrow`).
-/

namespace ChoiceSearch

variable {D κ : Type}

/-- On exact scalars, a score that keeps paths or rejects them screens states. -/
theorem ExecutionScore.Filters.screens {score : ExecutionScore D Exact} (h : score.Filters) :
    score.Screens := by
  intro tag choice env
  rcases h tag choice env with hzero | hneg
  · rw [hzero]
    exact .inl ScreeningScalar.isZero_zero
  · rw [hneg]
    exact .inr (by simp [Scalar.isNegInf, Scalar.isNaN, Scalar.isFinite, Scalar.less, Exact.less])

namespace Trainer

variable {T : Trainer D κ Exact} {K : κ → Prop} {g : Graph Exact} {index : Nat}
  {ex : Example D κ Exact}

/-- The search that the loss of an example is normalized by. -/
noncomputable def unconditioned (T : Trainer D κ Exact) (g : Graph Exact) : Setting D κ Exact where
  codes := T.codes
  graph := g
  score := .zero
  fuel := T.fuel

/-- A loss under the global objective comes from two searches that found something. -/
theorem exists_searches_of_exampleLoss (hobjective : T.config.objective = .globalLoglikelihood)
    {loss : Expr Exact} (hloss : (T.exampleLoss g index ex).value = .ok (some loss)) :
    ∃ conditional unconditional,
      (T.search g ex.oracle ex.conditional ex.env).value = .ok conditional ∧
      conditional.executions ≠ [] ∧
      (T.search g .zero ex.unconditional ex.env).value = .ok unconditional ∧
      unconditional.executions ≠ [] ∧
      loss = .sub (logMass unconditional) (logMass conditional) := by
  have hjudges := T.judges g index ex
  rw [hloss] at hjudges
  cases hjudges with
  | loglikelihood _ hother =>
      rw [hobjective] at hother
      cases hother
  | globalLoglikelihood hfinds _ hunc hune =>
      exact ⟨_, _, hfinds.search, hfinds.executions, hunc, hune, rfl⟩

section Sign

variable (hK : T.codes.ScoredByChoices K) (hex : ex.ScoredByChoices T.codes K)
  (hg : g.RealParams) {conditional : Marginals (Value D Exact) D Exact}
  (hcond : (T.search g ex.oracle ex.conditional ex.env).value = .ok conditional)
include hex hcond

/-- What the conditional search found is listed by surviving paths of the program without the
oracle. -/
theorem lists_conditional :
    Lists ((T.unconditioned g).Survives ex.conditional ex.env) (fun _ => False)
      conditional.executions := by
  let S : Setting D κ Exact := { codes := T.codes, graph := g, score := ex.oracle, fuel := T.fuel }
  have hscreens : S.score.Screens := hex.oracle.screens
  refine (Setting.lists_found (S := S) hcond).imp (fun route e _ hroute => ?_) fun _ => False.elim
  exact ((Setting.survives_iff_accepts hscreens).mp hroute).1

/-- What a search without the oracle finds has the executions of the conditional search among
its own, if nothing of it is dropped. -/
theorem conditional_subperm {width : Nat} {all : Marginals (Value D Exact) D Exact}
    (hroom : (T.unconditioned g).Exhausts width ex.conditional ex.env)
    (hall : ((T.unconditioned g).beamSearch (.exhaustive width) ex.conditional ex.env).value =
      .ok all) : conditional.executions.Subperm all.executions :=
  (lists_conditional hex hcond).subperm_of_functional (Setting.lists_executions hall hroom)
    (fun _ _ _ => Setting.Survives.unique) fun _ e he => ⟨e, he⟩

/-- With a beam that drops nothing of the search without the oracle, the executions of the
conditional search are a sublist of what that search finds. -/
theorem conditional_sublist {unconditional : Marginals (Value D Exact) D Exact}
    (hroom : (T.unconditioned g).Unpruned T.config.search ex.conditional ex.env)
    (hunc : (T.search g .zero ex.conditional ex.env).value = .ok unconditional) :
    conditional.executions.Sublist unconditional.executions := by
  let S : Setting D κ Exact := { codes := T.codes, graph := g, score := ex.oracle, fuel := T.fuel }
  obtain ⟨found, hfound, hsub⟩ :=
    Setting.exists_beamSearch (S := S) hex.oracle.screens hroom hunc
  cases hcond.symm.trans hfound
  exact hsub

include hK hg

/-- No beam finds more mass under the oracle than the program has without it. -/
theorem conditional_mass_le {width : Nat} {all : Marginals (Value D Exact) D Exact}
    (hroom : (T.unconditioned g).Exhausts width ex.conditional ex.env)
    (hall : ((T.unconditioned g).beamSearch (.exhaustive width) ex.conditional ex.env).value =
      .ok all) : ∃ z, all.partition = .real z ∧ conditional.mass ≤ z := by
  let wide : Trainer D κ Exact := { T with config := { T.config with search := .exhaustive width } }
  have hscored : all.Scored g := scored_of_search (T := wide) hK hg ExecutionScore.filters_zero
    hex.conditional hex.score hall
  exact ⟨all.mass, hscored.partition_eq,
    Marginals.mass_le_of_subperm (conditional_subperm hex hcond hroom hall)⟩

end Sign

/-- **The sign of the loss.** An example has one program, conditional and unconditional, that
leaves weight and score to its choices, and its loss has been computed under the global
objective. The loss is the logarithm of the unconditional mass less that of the conditional
mass, and learning yields it. Whatever the beam, the conditional search found surviving paths
of the program without the oracle, and no more mass than the program has. But the loss is
normalized by the mass that the unconditional search found, with a beam of its own: it is
nonnegative if and only if the conditional mass does not exceed that mass; so it is where the
unconditional beam has all conditional executions, as it does if it drops nothing. -/
theorem sign_of_exampleLoss (hK : T.codes.ScoredByChoices K)
    (hex : ex.ScoredByChoices T.codes K) (hsame : ex.unconditional = ex.conditional)
    {fit : Fit Exact} (hg : fit.graph.RealParams)
    (hobjective : T.config.objective = .globalLoglikelihood) {loss : Expr Exact}
    (hloss : (T.exampleLoss fit.graph.renew index ex).value = .ok (some loss)) :
    ∃ (conditional unconditional : Marginals (Value D Exact) D Exact) (c u : ℝ),
      (T.search fit.graph.renew ex.oracle ex.conditional ex.env).value = .ok conditional ∧
      (T.search fit.graph.renew .zero ex.unconditional ex.env).value = .ok unconditional ∧
      conditional.partition = .real c ∧ unconditional.partition = .real u ∧
      fit.graph.renew.evaluate loss = .ok [.real (Real.log u - Real.log c)] ∧
      (T.learn index ex fit).value.2 = .ok (some (.real (Real.log u - Real.log c))) ∧
      (∀ e ∈ conditional.executions, ∃ route,
        (T.unconditioned fit.graph.renew).Survives ex.unconditional ex.env route e) ∧
      (∀ width all, (T.unconditioned fit.graph.renew).Exhausts width ex.unconditional ex.env →
        ((T.unconditioned fit.graph.renew).beamSearch (.exhaustive width) ex.unconditional
          ex.env).value = .ok all → ∃ z, all.partition = .real z ∧ c ≤ z) ∧
      (0 ≤ Real.log u - Real.log c ↔ c ≤ u) ∧
      (conditional.executions.Subperm unconditional.executions →
        0 ≤ Real.log u - Real.log c) ∧
      ((T.unconditioned fit.graph.renew).Unpruned T.config.search ex.unconditional ex.env →
        conditional.executions.Sublist unconditional.executions ∧
          0 ≤ Real.log u - Real.log c) := by
  obtain ⟨conditional, unconditional, hcond, hne, hunc, hune, rfl⟩ :=
    exists_searches_of_exampleLoss hobjective hloss
  have hg' : fit.graph.renew.RealParams := hg
  have hgold := scored_of_search hK hg' hex.oracle hex.conditional hex.score hcond
  have hall := scored_of_search hK hg' ExecutionScore.filters_zero hex.unconditional hex.score hunc
  have hvalue : fit.graph.renew.evaluate (.sub (logMass unconditional) (logMass conditional)) =
      .ok [.real (Real.log unconditional.mass - Real.log conditional.mass)] := by
    rw [hall.evaluate_sub hgold, hall.logPartition_eq hune, hgold.logPartition_eq hne,
      sub_eq_add_neg]
    rfl
  obtain ⟨-, -, -, hlearn⟩ := learns_of_evaluate hloss hvalue
  have hiff : 0 ≤ Real.log unconditional.mass - Real.log conditional.mass ↔
      conditional.mass ≤ unconditional.mass := by
    rw [sub_nonneg, Real.log_le_log_iff (hgold.mass_pos hne) (hall.mass_pos hune)]
  have hcovered : conditional.executions.Subperm unconditional.executions →
      0 ≤ Real.log unconditional.mass - Real.log conditional.mass :=
    fun hsub => hiff.mpr (Marginals.mass_le_of_subperm hsub)
  refine ⟨conditional, unconditional, _, _, hcond, hunc, hgold.partition_eq, hall.partition_eq,
    hvalue, hlearn, ?_, ?_, hiff, hcovered, ?_⟩
  · rw [hsame]
    exact fun e he => (lists_conditional hex hcond).exists_label e he
  · rw [hsame]
    exact fun width all => conditional_mass_le hK hex hg' hcond
  · intro hroom
    rw [hsame] at hroom hunc
    have hsub := conditional_sublist hex hcond hroom hunc
    exact ⟨hsub, hcovered hsub.subperm⟩

end Trainer

/-! ## A garden path -/

section Narrow

variable {R : Type} [Scalar R] {S : Setting D κ R}

/-- Of two states in order, a beam with room for one keeps the first. -/
theorem firstBest_pair {s t : State D κ R} (h : Scalar.below s.logProb t.logProb = false) :
    firstBest 1 [s, t] = [s] := by
  unfold firstBest
  rw [List.mergeSort_of_pairwise (by simpa using h)]
  rfl

/-- The round at a level of one state. -/
theorem levels_of_step {k fuel n : Nat} {s : State D κ R} {finished : List (State D κ R)}
    {o : Step D κ R} (h : S.step s = .ok o) :
    (S.levels k 0 (fuel + 1) n { frontier := [s], finished }).value =
      (S.levels k 0 fuel (n + 1) {
        frontier := firstBest k (S.pendingOf o)
        finished := finished ++ S.finishedOf o }).value := by
  have hsteps : [s].mapM S.step = .ok [o] := by simp [h]
  rw [Setting.levels_of_go (List.cons_ne_nil s []) rfl,
    Setting.nextLevel_eq_ok_iff.mpr ⟨[o], hsteps, rfl⟩]
  simp [bind, Except.bind]

end Narrow

/-- Picks a side and goes on with it. -/
def gardenPath : Program Bool Unit Exact :=
  .bind (.neural none [true, false] "w" none) [{ name := none, code := () }]

/-- The first side leads to a pick from another parameter, the second one is the end. -/
def gardenCodes : Codes Bool Unit Exact where
  resume
    | _, .data true => .ok (.neural none [true] "v" none)
    | _, v => .ok (.value v)
  consult _ _ := .error (.failed .malformedScript)

/-- The first side is the better one at first, and the worse one in the end. -/
noncomputable def gardenGraph : Graph Exact :=
  (Graph.addParameter { locallyNormalized := false } "w" [.real 0, .real (-1)]).addParameter "v"
    [.real (-(2 : ℕ))]

/-- The example in which the second side is right. -/
noncomputable def gardenExample : Example Bool Unit Exact where
  unconditional := gardenPath
  conditional := gardenPath
  env := .init
  oracle _ choice _ := if choice = some true then .negInf else Scalar.zero

/-- The trainer whose beams have the given width. -/
noncomputable def gardenTrainer (width : Nat) : Trainer Bool Unit Exact where
  config := { search := .exhaustive width, objective := .globalLoglikelihood }
  codes := gardenCodes
  fuel := 8

/-- The search for the sides without the oracle. -/
noncomputable def garden : Setting Bool Unit Exact where
  codes := gardenCodes
  graph := gardenGraph.renew
  score := .zero
  fuel := 8

theorem scoredByChoices_gardenCodes : gardenCodes.ScoredByChoices fun _ => True := by
  rintro c - v q h
  cases v with
  | data side =>
      cases side with
      | true => cases h; exact .neural none [true] "v" none
      | false => cases h; exact .value _
  | _ => cases h; exact .value _

theorem scoredByChoices_gardenExample :
    gardenExample.ScoredByChoices gardenCodes fun _ => True where
  unconditional := .bind (.neural none [true, false] "w" none) fun _ _ => trivial
  conditional := .bind (.neural none [true, false] "w" none) fun _ _ => trivial
  oracle _ choice _ := by
    by_cases h : choice = some true
    · exact .inr (if_pos h)
    · exact .inl (if_neg h)
  score := isZero_zero

theorem realParams_gardenGraph : gardenGraph.RealParams := by
  have hw : (Graph.addParameter { locallyNormalized := false } "w"
      ([0, -1].map Exact.real)).RealParams :=
    .addParameter (fun _ _ h => by cases h) "w" [0, -1]
  exact hw.addParameter "v" [-2]

/-- The first side is offered with more weight than the second one, and its path ends with
less. -/
theorem exists_garden : ∃ root o a b o' c u v w e, ∃ x y : ℝ,
    (State.initial gardenPath .init).scored garden.score = some root ∧
    garden.step root = .ok o ∧ garden.pendingOf o = [a, b] ∧ garden.finishedOf o = [] ∧
    garden.step a = .ok o' ∧ garden.pendingOf o' = [c] ∧ garden.finishedOf o' = [] ∧
    garden.step b = .ok (.finished u) ∧ garden.step c = .ok (.finished v) ∧
    garden.finishedOf (.finished v) = [w] ∧ w.execution = .ok e ∧
    Scalar.below a.logProb b.logProb = decide (x < y) ∧ y < x ∧ e.logProb = .real (-2) :=
  ⟨_, _, _, _, _, _, _, _, _, _, _, _, rfl, rfl, rfl, rfl, rfl, rfl, rfl, rfl, rfl, rfl, rfl, rfl,
    by norm_num, congrArg Exact.real (by norm_num)⟩

/-- With room for one state the second side is lost, and the path of the first one is found. -/
theorem exists_narrow : ∃ m, (garden.beamSearch (.exhaustive 1) gardenPath .init).value = .ok m ∧
    m.executions.map (·.logProb) = [.real (-2)] := by
  obtain ⟨root, o, a, b, o', c, -, v, w, e, x, y, hroot, ho, hpending, hfinished, ho', hpending',
    hfinished', -, hv, hw, he, hbelow, hlt, hlog⟩ := exists_garden
  have hone : ∀ s : State Bool Unit Exact, firstBest 1 [s] = [s] := fun s =>
    List.perm_singleton.mp (Setting.firstBest_perm le_rfl)
  have hbest : firstBest 1 [a, b] = [a] :=
    firstBest_pair (hbelow.trans (decide_eq_false (lt_asymm hlt)))
  have hlevels : (garden.levels 1 0 8 0 (garden.startLevel 1 gardenPath .init)).value =
      .ok ({ frontier := [], finished := [w] }, 3) := by
    rw [Setting.startLevel_eq le_rfl hroot, levels_of_step ho, hpending, hfinished, hbest,
      levels_of_step ho', hpending', hfinished', hone, levels_of_step hv, hw,
      Setting.levels_of_stop (.inl ?_)]
    · simp [Setting.pendingOf, firstBest]
    · simp [Setting.pendingOf, firstBest]
  have hexec : (firstBest 1 [w]).mapM State.execution = .ok [e] := by
    rw [hone]
    simp [he]
  exact ⟨{ executions := [e], iterations := 3 },
    Setting.beamSearch_eq_ok_iff.mpr ⟨_, hlevels, hexec⟩, by simp [hlog]⟩

/-- With room for four routes nothing is lost. -/
theorem exhausts_garden : garden.Exhausts 4 gardenPath .init ∧
    ∃ m, (garden.beamSearch (.exhaustive 4) gardenPath .init).value = .ok m := by
  obtain ⟨root, o, a, b, o', c, u, v, w, e, x, y, hroot, ho, hpending, -, ho', hpending', -, hu, hv,
    -⟩ := exists_garden
  have hleaf : ∀ {s s' : State Bool Unit Exact} (n : Nat), garden.step s = .ok (.finished s') →
      garden.EndsWithin (n + 1) s ∧ garden.routeCount (n + 1) s = 1 := fun n h =>
    ⟨Setting.endsWithin_succ_iff.mpr ⟨_, h, fun t ht => by cases ht⟩, Setting.routeCount_of_step h⟩
  have hside : garden.EndsWithin 2 a ∧ garden.routeCount 2 a = 2 := by
    refine ⟨Setting.endsWithin_succ_iff.mpr ⟨o', ho', fun t ht => ?_⟩, ?_⟩
    · rw [hpending', List.mem_singleton] at ht
      exact ht ▸ (hleaf 0 hv).1
    · rw [Setting.routeCount_of_step ho', hpending', List.map_singleton, (hleaf 0 hv).2]
      rfl
  have hends : garden.EndsWithin 3 root := by
    refine Setting.endsWithin_succ_iff.mpr ⟨o, ho, fun t ht => ?_⟩
    rw [hpending] at ht
    rcases List.mem_pair.mp ht with rfl | rfl
    · exact hside.1
    · exact (hleaf 1 hu).1
  have hcount : garden.routeCount 3 root = 4 := by
    rw [Setting.routeCount_of_step ho, hpending, List.map_cons, List.map_singleton, hside.2,
      (hleaf 1 hu).2]
    rfl
  exact hends.beamSearch hroot (by decide) hcount.le

/-- Under the oracle the path of the second side is found, whatever the beam. -/
theorem exists_conditional (width : Nat) : ∃ m,
    ((gardenTrainer (width + 1)).search gardenGraph.renew gardenExample.oracle gardenPath
      .init).value = .ok m ∧ m.executions.map (·.logProb) = [.real (-1)] :=
  ⟨_, rfl, congrArg (fun x => [Exact.real x]) (by norm_num)⟩

/-- The loss of the example comes from what the two searches found. -/
theorem exampleLoss_gardenExample {width : Nat}
    {conditional unconditional : Marginals (Value Bool Exact) Bool Exact}
    (hcond : ((gardenTrainer (width + 1)).search gardenGraph.renew gardenExample.oracle gardenPath
      .init).value = .ok conditional)
    (hlog : conditional.executions.map (·.logProb) = [.real (-1)])
    (hunc : (garden.beamSearch (.exhaustive (width + 1)) gardenPath .init).value =
      .ok unconditional) (hune : unconditional.executions ≠ []) :
    ((gardenTrainer (width + 1)).exampleLoss gardenGraph.renew 0 gardenExample).value =
      .ok (some (.sub (logMass unconditional) (logMass conditional))) := by
  have hsize : conditional.size = 1 := by
    simpa [Marginals.size] using congrArg List.length hlog
  have hne : conditional.executions ≠ [] := List.ne_nil_of_length_eq_add_one hsize
  exact (Trainer.value_exampleLoss hcond).trans
    (Trainer.lossGiven_globalLoglikelihood hne (.inl hsize) rfl hunc hune)

/-- **A narrow beam may turn the loss negative.** With room for one state, the conditional
search finds the second side, with log-weight minus one, and the unconditional one finds the
first side only, with log-weight minus two. -/
theorem learns_gardenExample_of_narrow :
    gardenCodes.ScoredByChoices (fun _ => True) ∧
    gardenExample.ScoredByChoices gardenCodes (fun _ => True) ∧
    gardenExample.unconditional = gardenExample.conditional ∧ gardenGraph.RealParams ∧
    (gardenTrainer 1).config.objective = .globalLoglikelihood ∧
    ∀ descent, (gardenTrainer 1).Learns 0 gardenExample { graph := gardenGraph, descent }
      (.real (-1)) := by
  refine ⟨scoredByChoices_gardenCodes, scoredByChoices_gardenExample, rfl, realParams_gardenGraph,
    rfl, fun descent => ?_⟩
  obtain ⟨conditional, hcond, hgold⟩ := exists_conditional 0
  obtain ⟨unconditional, hunc, hall⟩ := exists_narrow
  have hune : unconditional.executions ≠ [] := by
    intro hnil
    rw [hnil] at hall
    cases hall
  have hg : gardenGraph.renew.RealParams := realParams_gardenGraph
  have hex := scoredByChoices_gardenExample
  have hscored : conditional.Scored gardenGraph.renew :=
    Trainer.scored_of_search scoredByChoices_gardenCodes hg hex.oracle hex.conditional hex.score
      hcond
  have hscored' : unconditional.Scored gardenGraph.renew :=
    Trainer.scored_of_search (T := gardenTrainer 1) scoredByChoices_gardenCodes hg
      ExecutionScore.filters_zero hex.unconditional hex.score hunc
  refine Trainer.learns_of_evaluate (exampleLoss_gardenExample hcond hgold hunc hune) ?_
  refine (hscored'.evaluate_sub hscored).trans ?_
  rw [Marginals.logPartition, Marginals.logPartition, hall, hgold, Exact.logSumExp_singleton,
    Exact.logSumExp_singleton]
  exact congrArg (fun x => Except.ok [Exact.real x]) (by norm_num)

/-- With room for all states the loss is not negative. -/
theorem sign_gardenExample : gardenCodes.ScoredByChoices (fun _ => True) ∧
    gardenExample.ScoredByChoices gardenCodes (fun _ => True) ∧
    gardenExample.unconditional = gardenExample.conditional ∧ gardenGraph.RealParams ∧
    (gardenTrainer 4).config.objective = .globalLoglikelihood ∧
    ∃ loss, ((gardenTrainer 4).exampleLoss gardenGraph.renew 0 gardenExample).value =
      .ok (some loss) ∧ garden.Unpruned (gardenTrainer 4).config.search gardenPath .init ∧
      ∀ descent : Descent Exact, ∃ x : ℝ, 0 ≤ x ∧ ((gardenTrainer 4).learn 0 gardenExample
        { graph := gardenGraph, descent }).value.2 = .ok (some (.real x)) := by
  obtain ⟨hroom, unconditional, hunc⟩ := exhausts_garden
  obtain ⟨conditional, hcond, hlog⟩ := exists_conditional 3
  have hsub : conditional.executions.Sublist unconditional.executions :=
    Trainer.conditional_sublist scoredByChoices_gardenExample hcond hroom.unpruned hunc
  have hune : unconditional.executions ≠ [] := by
    intro hnil
    rw [hnil, List.sublist_nil] at hsub
    rw [hsub] at hlog
    cases hlog
  have hloss := exampleLoss_gardenExample hcond hlog hunc hune
  refine ⟨scoredByChoices_gardenCodes, scoredByChoices_gardenExample, rfl, realParams_gardenGraph,
    rfl, _, hloss, hroom.unpruned, fun descent => ?_⟩
  let fit : Fit Exact := { graph := gardenGraph, descent }
  have hparams : fit.graph.RealParams := realParams_gardenGraph
  obtain ⟨_, _, c, u, -, -, -, -, -, hlearn, -, -, -, -, hroomy⟩ :=
    Trainer.sign_of_exampleLoss (T := gardenTrainer 4) scoredByChoices_gardenCodes
      scoredByChoices_gardenExample rfl hparams rfl hloss
  exact ⟨Real.log u - Real.log c, (hroomy hroom.unpruned).2, hlearn⟩

end ChoiceSearch
