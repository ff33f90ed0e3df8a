import ChoiceSearch.Training

/-!
# The loss of an example, case by case

What the searches of an example find decides what becomes of it: there is a loss, or nothing
to learn from, or a failure. `Trainer.Judges` has one constructor for each way in which that
can happen, and the loss of an example is always one of them (`Trainer.judges`).

What learning from an example comes to, on any graph and with any optimizer, is said next to
it for each outcome (`Trainer.learn_of_error`, `learn_of_none` and `learn_of_some`); and
`Trainer.StepsTo` has one constructor for each way in which a step for a loss can go, with the
calls that are made (`Trainer.stepsTo_descendLoss`).
-/

namespace ChoiceSearch

section Gradient

variable {R : Type} [Scalar R] {g g' : Graph R} {loss : Expr R}

/-- An expression graph whose gradient is found has it added. -/
theorem Graph.backward_of_ok (h : g.backward loss = .ok g') :
    ComputationGraph.backward g loss = (g', .ok ()) := by
  simp only [ComputationGraph.backward, h]

/-- One whose gradient is not found stays as it is. -/
theorem Graph.backward_of_error {e : Error R} (h : g.backward loss = .error e) :
    ComputationGraph.backward g loss = (g, .error e) := by
  simp only [ComputationGraph.backward, h]

end Gradient

namespace Trainer

variable {D κ R : Type} [Scalar R] {T : Trainer D κ R} {g : GraphView R} {index : Nat}
  {ex : Example D κ R} {conditional unconditional : Marginals (Value D R) D R}

/-- What conditional search found makes the loss of an example. -/
theorem value_exampleLoss
    (h : (T.search g ex.oracle ex.conditional ex.env).value = .ok conditional) :
    (T.exampleLoss g index ex).value = T.lossGiven g index ex conditional := by
  unfold exampleLoss
  simp only [bind, Logged.andThen]
  rw [h]
  rfl

theorem value_exampleLoss_of_error {halt : Halt R}
    (h : (T.search g ex.oracle ex.conditional ex.env).value = .error halt) :
    (T.exampleLoss g index ex).value = .error halt := by
  unfold exampleLoss
  simp only [bind, Logged.andThen]
  rw [h]
  rfl

theorem lossGiven_of_empty (h : conditional.executions = []) :
    T.lossGiven g index ex conditional = .ok none :=
  if_pos (List.isEmpty_iff.mpr h)

/-- Of what conditional search found there is something to learn. -/
theorem lossGiven_of_allowed (hne : conditional.executions ≠ [])
    (hmany : conditional.size = 1 ∨ T.config.allowMultipleLabels = true) :
    T.lossGiven g index ex conditional = match T.config.objective with
      | .loglikelihood => .ok (some (.neg (logMass conditional)))
      | .globalLoglikelihood => do
        let unconditional ←
          (T.search g ExecutionScore.zero ex.unconditional ex.env).silent.value
        if unconditional.isEmpty then return none
        else return some (.sub (logMass unconditional) (logMass conditional)) := by
  have hempty : conditional.isEmpty = false := List.isEmpty_eq_false_iff.mpr hne
  have hallowed : (1 < conditional.size && !T.config.allowMultipleLabels) = false := by
    rcases hmany with hone | hallow
    · simp [hone]
    · simp [hallow]
  refine (if_neg ?_).trans (if_neg ?_)
  · simp [hempty]
  · simp [hallowed]

theorem lossGiven_loglikelihood (hne : conditional.executions ≠ [])
    (hmany : conditional.size = 1 ∨ T.config.allowMultipleLabels = true)
    (hobjective : T.config.objective = .loglikelihood) :
    T.lossGiven g index ex conditional = .ok (some (.neg (logMass conditional))) := by
  rw [lossGiven_of_allowed hne hmany, hobjective]

theorem lossGiven_globalLoglikelihood (hne : conditional.executions ≠ [])
    (hmany : conditional.size = 1 ∨ T.config.allowMultipleLabels = true)
    (hobjective : T.config.objective = .globalLoglikelihood)
    (hunc : (T.search g .zero ex.unconditional ex.env).value = .ok unconditional)
    (hune : unconditional.executions ≠ []) : T.lossGiven g index ex conditional =
      .ok (some (.sub (logMass unconditional) (logMass conditional))) := by
  have hempty : unconditional.isEmpty = false := List.isEmpty_eq_false_iff.mpr hune
  rw [lossGiven_of_allowed hne hmany, hobjective]
  simp only [Logged.silent, Logged.quiet, hunc, bind, Except.bind, hempty]
  rfl

theorem lossGiven_of_unconditional_empty (hne : conditional.executions ≠ [])
    (hmany : conditional.size = 1 ∨ T.config.allowMultipleLabels = true)
    (hobjective : T.config.objective = .globalLoglikelihood)
    (hunc : (T.search g .zero ex.unconditional ex.env).value = .ok unconditional)
    (hune : unconditional.executions = []) :
    T.lossGiven g index ex conditional = .ok none := by
  have hempty : unconditional.isEmpty = true := List.isEmpty_iff.mpr hune
  rw [lossGiven_of_allowed hne hmany, hobjective]
  simp only [Logged.silent, Logged.quiet, hunc, bind, Except.bind, hempty]
  rfl

/-- The conditional search of an example finds executions to learn from. -/
structure Finds (T : Trainer D κ R) (g : GraphView R) (ex : Example D κ R)
    (conditional : Marginals (Value D R) D R) : Prop where
  search : (T.search g ex.oracle ex.conditional ex.env).value = .ok conditional
  executions : conditional.executions ≠ []
  labels : conditional.size = 1 ∨ T.config.allowMultipleLabels = true

/-- What becomes of an example. -/
inductive Judges (T : Trainer D κ R) (g : GraphView R) (index : Nat) (ex : Example D κ R) :
    Result R (Option (Expr R)) → Prop
  | failed {halt : Halt R} :
      (T.search g ex.oracle ex.conditional ex.env).value = .error halt →
      Judges T g index ex (.error halt)
  | nothing {conditional : Marginals (Value D R) D R} :
      (T.search g ex.oracle ex.conditional ex.env).value = .ok conditional →
      conditional.executions = [] → Judges T g index ex (.ok none)
  | ambiguous {conditional : Marginals (Value D R) D R} :
      (T.search g ex.oracle ex.conditional ex.env).value = .ok conditional →
      1 < conditional.size → T.config.allowMultipleLabels = false →
      Judges T g index ex (.error (.failed (.multipleLabels index conditional.size)))
  | loglikelihood {conditional : Marginals (Value D R) D R} : T.Finds g ex conditional →
      T.config.objective = .loglikelihood →
      Judges T g index ex (.ok (some (.neg (logMass conditional))))
  | unconditionalFailed {conditional : Marginals (Value D R) D R} {halt : Halt R} :
      T.Finds g ex conditional → T.config.objective = .globalLoglikelihood →
      (T.search g .zero ex.unconditional ex.env).value = .error halt →
      Judges T g index ex (.error halt)
  | unconditionalNothing {conditional unconditional : Marginals (Value D R) D R} :
      T.Finds g ex conditional → T.config.objective = .globalLoglikelihood →
      (T.search g .zero ex.unconditional ex.env).value = .ok unconditional →
      unconditional.executions = [] → Judges T g index ex (.ok none)
  | globalLoglikelihood {conditional unconditional : Marginals (Value D R) D R} :
      T.Finds g ex conditional → T.config.objective = .globalLoglikelihood →
      (T.search g .zero ex.unconditional ex.env).value = .ok unconditional →
      unconditional.executions ≠ [] →
      Judges T g index ex (.ok (some (.sub (logMass unconditional) (logMass conditional))))

/-- What is found decides, under the objective of the trainer. -/
theorem judges_of_finds (h : T.Finds g ex conditional) :
    T.Judges g index ex (T.lossGiven g index ex conditional) := by
  cases hobjective : T.config.objective with
  | loglikelihood =>
      rw [lossGiven_loglikelihood h.executions h.labels hobjective]
      exact .loglikelihood h hobjective
  | globalLoglikelihood =>
      cases hunc : (T.search g .zero ex.unconditional ex.env).value with
      | error halt =>
          have hloss : T.lossGiven g index ex conditional = .error halt := by
            rw [lossGiven_of_allowed h.executions h.labels, hobjective]
            simp only [Logged.silent, Logged.quiet, hunc]
            rfl
          rw [hloss]
          exact .unconditionalFailed h hobjective hunc
      | ok unconditional =>
          by_cases hune : unconditional.executions = []
          · rw [lossGiven_of_unconditional_empty h.executions h.labels hobjective hunc hune]
            exact .unconditionalNothing h hobjective hunc hune
          · rw [lossGiven_globalLoglikelihood h.executions h.labels hobjective hunc hune]
            exact .globalLoglikelihood h hobjective hunc hune

theorem judges (T : Trainer D κ R) (g : GraphView R) (index : Nat) (ex : Example D κ R) :
    T.Judges g index ex (T.exampleLoss g index ex).value := by
  cases hcond : (T.search g ex.oracle ex.conditional ex.env).value with
  | error halt =>
      rw [value_exampleLoss_of_error hcond]
      exact .failed hcond
  | ok conditional =>
      rw [value_exampleLoss hcond]
      by_cases hne : conditional.executions = []
      · rw [lossGiven_of_empty hne]
        exact .nothing hcond hne
      · by_cases hmany : 1 < conditional.size ∧ T.config.allowMultipleLabels = false
        · have hloss : T.lossGiven g index ex conditional =
              .error (.failed (.multipleLabels index conditional.size)) := by
            have hempty : conditional.isEmpty = false := List.isEmpty_eq_false_iff.mpr hne
            refine (if_neg ?_).trans (if_pos ?_)
            · simp [hempty]
            · simp [hmany]
          rw [hloss]
          exact .ambiguous hcond hmany.1 hmany.2
        · have hpos : 0 < conditional.size := List.length_pos_iff.mpr hne
          have hlabels : conditional.size = 1 ∨ T.config.allowMultipleLabels = true := by
            cases hallow : T.config.allowMultipleLabels with
            | true => exact .inr rfl
            | false =>
                have hfew : ¬ 1 < conditional.size := fun h => hmany ⟨h, hallow⟩
                exact .inl (by omega)
          exact judges_of_finds ⟨hcond, hne, hlabels⟩

/-- The conditional search finds nothing, or the unconditional one does where the objective
asks for it. -/
def FindsNothing (T : Trainer D κ R) (g : GraphView R) (ex : Example D κ R) : Prop :=
  (∃ m, (T.search g ex.oracle ex.conditional ex.env).value = .ok m ∧ m.executions = []) ∨
  ∃ conditional m, T.Finds g ex conditional ∧ T.config.objective = .globalLoglikelihood ∧
    (T.search g .zero ex.unconditional ex.env).value = .ok m ∧ m.executions = []

/-- An example is skipped if and only if one of its searches finds nothing. -/
theorem exampleLoss_eq_none_iff :
    (T.exampleLoss g index ex).value = .ok none ↔ T.FindsNothing g ex := by
  constructor
  · intro h
    have hjudges := T.judges g index ex
    rw [h] at hjudges
    cases hjudges with
    | nothing hcond hne => exact .inl ⟨_, hcond, hne⟩
    | unconditionalNothing hfinds hobjective hunc hune =>
        exact .inr ⟨_, _, hfinds, hobjective, hunc, hune⟩
  · rintro (⟨m, hcond, hne⟩ | ⟨conditional, m, hfinds, hobjective, hunc, hune⟩)
    · rw [value_exampleLoss hcond, lossGiven_of_empty hne]
    · rw [value_exampleLoss hfinds.search]
      exact lossGiven_of_unconditional_empty hfinds.executions hfinds.labels hobjective hunc hune

/-! ## Learning -/

section Learning

open ComputationGraph (view renew backward)

variable {G O : Type} [ComputationGraph G R] [Optimizer O G R]

/-- What a step for a loss comes to, with the calls that it makes. -/
inductive StepsTo (fit : Learner G O) (loss : Expr R) :
    Recorded R (Learner G O × Result R R) → Prop
  /-- The loss has no value. -/
  | valueless {e : Error R} : StepsTo fit loss (.quiet (fit, .error (.failed e)))
  /-- Its gradient is not found. -/
  | notFound {g : G} {e : Error R} : backward fit.graph loss = (g, .error e) →
      StepsTo fit loss
        ⟨.quiet ({ fit with graph := g }, .error (.failed e)), [.backward loss (.error e)]⟩
  /-- The optimizer fails. -/
  | notTaken {g g' : G} {o : O} {e : Error R} : backward fit.graph loss = (g, .ok ()) →
      Optimizer.update fit.descent g = ((o, g'), .error e) →
      StepsTo fit loss ⟨.quiet ({ graph := g', descent := o }, .error (.failed e)),
        [.backward loss (.ok ()), .update (.error e)]⟩
  | taken {value : R} {values : List R} {g g' : G} {o : O} :
      (view fit.graph).evaluate loss = .ok (value :: values) →
      backward fit.graph loss = (g, .ok ()) →
      Optimizer.update fit.descent g = ((o, g'), .ok ()) →
      StepsTo fit loss ⟨.quiet ({ graph := g', descent := o }, .ok value),
        [.backward loss (.ok ()), .update (.ok ())]⟩

omit [Scalar R] in
theorem stepsTo_descendLoss (fit : Learner G O) (loss : Expr R) :
    StepsTo fit loss (descendLoss fit loss) := by
  unfold descendLoss
  split
  · exact .valueless
  · exact .valueless
  · rename_i value values hvalue
    cases hbackward : backward fit.graph loss with
    | mk g outcome =>
        simp only [Learner.backward, hbackward, Recorded.call_bind]
        cases outcome with
        | error e => exact .notFound hbackward
        | ok _ =>
            cases hupdate : Optimizer.update fit.descent g with
            | mk after outcome =>
                simp only [Learner.update, hupdate, Recorded.call_bind]
                cases outcome with
                | error e => exact .notTaken hbackward hupdate
                | ok _ => exact .taken hvalue hbackward hupdate

omit [Scalar R] in
/-- The graph and the optimizer call no logger. -/
theorem events_descendLoss (fit : Learner G O) (loss : Expr R) :
    (descendLoss fit loss).events = [] := by
  have hsteps := stepsTo_descendLoss fit loss
  generalize descendLoss fit loss = run at hsteps ⊢
  cases hsteps <;> rfl

/-- An example that fails leaves a new generation of the graph. -/
theorem learn_of_error (fit : Learner G O) {halt : Halt R}
    (h : (T.exampleLoss (view (renew fit.graph)) index ex).value = .error halt) :
    T.learn index ex fit =
      ⟨⟨(T.exampleLoss (view (renew fit.graph)) index ex).events,
        { fit with graph := renew fit.graph }, .error halt⟩, [.renew]⟩ := by
  unfold learn Learner.renew
  simp [h, Logged.andThen, Recorded.quiet, Logged.quiet]

/-- So does an example that is skipped. -/
theorem learn_of_none (fit : Learner G O)
    (h : (T.exampleLoss (view (renew fit.graph)) index ex).value = .ok none) :
    T.learn index ex fit =
      ⟨⟨(T.exampleLoss (view (renew fit.graph)) index ex).events,
        { fit with graph := renew fit.graph }, .ok none⟩, [.renew]⟩ := by
  unfold learn Learner.renew
  simp [h, Logged.andThen, Recorded.quiet, Logged.quiet]

/-- A step of the optimizer is taken for a loss. -/
theorem learn_of_some (fit : Learner G O) {loss : Expr R}
    (h : (T.exampleLoss (view (renew fit.graph)) index ex).value = .ok (some loss)) :
    T.learn index ex fit =
      let step := descendLoss { fit with graph := renew fit.graph } loss
      ⟨⟨(T.exampleLoss (view (renew fit.graph)) index ex).events ++ step.events, step.value.1,
        step.value.2.map some⟩, .renew :: step.calls⟩ := by
  unfold learn Learner.renew
  simp only [Recorded.call_bind, Recorded.logged_bind, h, Recorded.pure_eq, Recorded.bind_quiet,
    Logged.andThen]

/-- On an expression graph learning yields what the step for the loss does. -/
theorem value_learn_of_descendLoss (fit : Fit R) {loss : Expr R} {result : Fit R × Result R R}
    (hloss : (T.exampleLoss fit.graph.renew index ex).value = .ok (some loss))
    (h : (descendLoss { fit with graph := fit.graph.renew } loss).value = result) :
    (T.learn index ex fit).value = (result.1, result.2.map some) := by
  rw [learn_of_some fit hloss]
  exact congrArg (fun result => (result.1, result.2.map some)) h

/-- On an expression graph gradient descent takes its step wherever the gradient is found. -/
theorem descendLoss_of_backward (fit : Fit R) {loss : Expr R} {value : R} {values : List R}
    {g : Graph R} (hvalue : fit.graph.evaluate loss = .ok (value :: values))
    (hbackward : fit.graph.backward loss = .ok g) :
    (descendLoss fit loss).value = ({ fit with graph := fit.descent.update g }, .ok value) := by
  have hview : (view fit.graph).evaluate loss = .ok (value :: values) := hvalue
  simp only [descendLoss, hview, Learner.backward, Graph.backward_of_ok hbackward]
  rfl

/-- A gradient that is not found changes nothing. -/
theorem descendLoss_of_backward_error (fit : Fit R) {loss : Expr R} {e : Error R}
    (hbackward : fit.graph.backward loss = .error e) :
    ∃ halt, (descendLoss fit loss).value = (fit, .error halt) := by
  unfold descendLoss
  split
  · exact ⟨_, rfl⟩
  · exact ⟨_, rfl⟩
  · simp only [Learner.backward, Graph.backward_of_error hbackward]
    exact ⟨_, rfl⟩

end Learning

end Trainer

end ChoiceSearch
