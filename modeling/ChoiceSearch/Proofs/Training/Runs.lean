import ChoiceSearch.Proofs.Graph.Step
import ChoiceSearch.Proofs.Training.Example

/-!
# Training runs

A training run takes the examples one after the other, epoch after epoch. What one example
does to the fit is said once (`Trainer.Turn`): it is learnt from, which is one step of
gradient descent for its own loss, or it is skipped, or it fails, and then the parameters stay
as they are. In each case gradients that were zero before are zero afterwards.

`Trainer.Passes` follows a run from example to example and remembers the parameters after
the last update. By induction along a run, the gradients are zero before every example, the
parameters are those after the last update, and the learning rate is that of the epoch
(`Trainer.Passes.fits`). A run ends after its last epoch, or with the first example that
fails, and then it yields the parameters it had (`Trainer.run_of_cleared`).

The first epoch has the initial rate. The formula of the later epochs gives that rate too if
the decay is finite, but not if it is infinite (`not_descends_rowGraph`).
-/

namespace ChoiceSearch

/-- Gradient descent after a number of epochs. -/
def Descent.afterEpochs {R : Type} [Scalar R] (rate decay : R) (epochs : Nat) : Descent R where
  initialRate := rate
  rate := if epochs = 0 then rate else rate / (Scalar.one + decay * Scalar.ofNat epochs)
  decay
  epoch := epochs

/-- A graph before its first epoch. -/
def Learner.fresh {R : Type} [Scalar R] (graph : Graph R) (rate decay : R) : Fit R where
  graph
  descent := .start rate decay

/-- A finite decay does not change the first rate. -/
theorem Descent.rate_afterEpochs {R : Type} [Scalar R] [DescentScalar R] {rate decay : R}
    {epochs : Nat} (h : epochs ≠ 0 ∨ Scalar.isFinite decay = true) :
    (Descent.afterEpochs rate decay epochs).rate =
      rate / (Scalar.one + decay * Scalar.ofNat epochs) := by
  by_cases hfirst : epochs = 0
  · subst hfirst
    exact (DescentScalar.div_undecayed rate decay (h.resolve_left (absurd rfl))).symm
  · exact if_neg hfirst

namespace Trainer

variable {D κ R : Type} [Scalar R] {T : Trainer D κ R}

/-! ## One example -/

/-- What an example does to the fit, and what it yields. -/
inductive Turn (T : Trainer D κ R) (index : Nat) (ex : Example D κ R) (fit : Fit R) :
    Fit R → Result R (Option R) → Prop
  | learnt {loss : Expr R} {value : R} {fit' : Fit R} :
      (T.exampleLoss fit.graph.renew index ex).value = .ok (some loss) →
      fit.graph.evaluate loss = .ok [value] →
      fit.graph.Descends fit.descent.rate loss fit'.graph → fit'.descent = fit.descent →
      Turn T index ex fit fit' (.ok (some value))
  | skipped : (T.exampleLoss fit.graph.renew index ex).value = .ok none →
      Turn T index ex fit { fit with graph := fit.graph.renew } (.ok none)
  | failed {halt : Halt R} :
      (T.exampleLoss fit.graph.renew index ex).value = .error halt ∨
        (∃ loss, (T.exampleLoss fit.graph.renew index ex).value = .ok (some loss) ∧
          ∀ value, fit.graph.evaluate loss ≠ .ok [value]) →
      Turn T index ex fit { fit with graph := fit.graph.renew } (.error halt)

/-- A loss without a scalar value changes nothing. -/
theorem descendLoss_of_forall_ne (fit : Fit R) {loss : Expr R}
    (h : ∀ value, fit.graph.evaluate loss ≠ .ok [value]) :
    ∃ halt, (descendLoss fit loss).value = (fit, .error halt) := by
  cases hvalue : fit.graph.evaluate loss with
  | error e =>
      refine descendLoss_of_backward_error fit (e := e) ?_
      rw [Graph.backward, hvalue]
      rfl
  | ok values =>
      have hlength : (values.length == 1) = false := by
        rw [beq_eq_false_iff_ne]
        intro hone
        obtain ⟨value, rfl⟩ := List.length_eq_one_iff.mp hone
        exact h value hvalue
      refine descendLoss_of_backward_error fit (e := .shapeMismatch 1 values.length) ?_
      rw [Graph.backward, hvalue]
      simp only [bind, Except.bind, hlength]
      rfl

/-- **One example**: from zero gradients it is learnt from, skipped, or fails. -/
theorem turn_of_learn [LawfulScalar R] [DescentScalar R] (T : Trainer D κ R) (index : Nat)
    (ex : Example D κ R) {fit : Fit R} (hzero : fit.graph.Cleared) :
    T.Turn index ex fit (T.learn index ex fit).value.1 (T.learn index ex fit).value.2 := by
  cases hloss : (T.exampleLoss fit.graph.renew index ex).value with
  | error halt =>
      rw [learn_of_error fit hloss]
      exact .failed (.inl hloss)
  | ok loss? =>
      cases loss? with
      | none =>
          rw [learn_of_none fit hloss]
          exact .skipped hloss
      | some loss =>
          let renewed : Fit R := { fit with graph := fit.graph.renew }
          have hrenew := fit.graph.evaluate_renew loss
          by_cases hscalar : ∃ value, fit.graph.evaluate loss = .ok [value]
          · obtain ⟨value, hvalue⟩ := hscalar
            obtain ⟨g', hbackward, hdescends⟩ :=
              Graph.descends_update (g := fit.graph.renew) hzero (hrenew.trans hvalue) fit.descent
            have hstep := descendLoss_of_backward renewed (hrenew.trans hvalue) hbackward
            rw [value_learn_of_descendLoss fit hloss hstep]
            exact .learnt hloss hvalue hdescends rfl
          · rw [not_exists] at hscalar
            obtain ⟨halt, hstep⟩ := descendLoss_of_forall_ne renewed fun value => by
              rw [hrenew]
              exact hscalar value
            rw [value_learn_of_descendLoss fit hloss hstep]
            exact .failed (.inr ⟨loss, hloss, hscalar⟩)

/-- After any example the gradients are zero again, and the descent is as before. -/
theorem Turn.fits {index : Nat} {ex : Example D κ R} {fit fit' : Fit R}
    {result : Result R (Option R)} (h : T.Turn index ex fit fit' result)
    (hzero : fit.graph.Cleared) : fit'.graph.Cleared ∧ fit'.descent = fit.descent := by
  cases h with
  | learnt _ _ hdescends hdescent => exact ⟨hdescends.cleared, hdescent⟩
  | skipped _ => exact ⟨hzero, rfl⟩
  | failed _ => exact ⟨hzero, rfl⟩

/-- Only learning changes a parameter. -/
theorem Turn.params_eq {index : Nat} {ex : Example D κ R} {fit fit' : Fit R}
    {result : Result R (Option R)} (h : T.Turn index ex fit fit' result)
    (hresult : ∀ value, result ≠ .ok (some value)) : fit'.graph.params = fit.graph.params := by
  cases h with
  | learnt => exact absurd rfl (hresult _)
  | skipped _ => rfl
  | failed _ => rfl

/-- An example is skipped if and only if one of its searches finds nothing. -/
theorem Turn.skips_iff {index : Nat} {ex : Example D κ R} {fit fit' : Fit R}
    {result : Result R (Option R)} (h : T.Turn index ex fit fit' result) :
    result = .ok none ↔ T.FindsNothing fit.graph.renew ex := by
  have hnone : (T.exampleLoss fit.graph.renew index ex).value = .ok none ↔
      T.FindsNothing fit.graph.renew ex := exampleLoss_eq_none_iff
  rw [← hnone]
  cases h with
  | learnt hloss => simp [hloss]
  | skipped hloss => simp [hloss]
  | failed hfailed =>
      rcases hfailed with hloss | ⟨loss, hloss, -⟩ <;> simp [hloss]

theorem Turn.eq_of_failed {index : Nat} {ex : Example D κ R} {fit fit' : Fit R} {halt : Halt R}
    (h : T.Turn index ex fit fit' (.error halt)) :
    fit' = { fit with graph := fit.graph.renew } := by
  cases h with
  | failed _ => rfl

/-! ## Whole runs -/

/-- A run comes to the example with the given number in the given epoch, or to the end of
the epoch. `last` are the parameters after the last update, or those at the start. -/
inductive Passes (T : Trainer D κ R) (examples : List (Example D κ R)) (start : Fit R) :
    Nat → Nat → Table (Parameter R) → Fit R → Prop
  | start : Passes T examples start 0 0 start.graph.params start
  | learnt {epoch index : Nat} {last : Table (Parameter R)} {fit fit' : Fit R}
      {ex : Example D κ R} {value : R} : Passes T examples start epoch index last fit →
      epoch < T.config.epochs → examples[index]? = some ex →
      (T.learn index ex fit).value = (fit', .ok (some value)) →
      Passes T examples start epoch (index + 1) fit'.graph.params fit'
  | skipped {epoch index : Nat} {last : Table (Parameter R)} {fit fit' : Fit R}
      {ex : Example D κ R} : Passes T examples start epoch index last fit →
      epoch < T.config.epochs → examples[index]? = some ex →
      (T.learn index ex fit).value = (fit', .ok none) →
      Passes T examples start epoch (index + 1) last fit'
  | nextEpoch {epoch : Nat} {last : Table (Parameter R)} {fit : Fit R} :
      Passes T examples start epoch examples.length last fit → epoch < T.config.epochs →
      Passes T examples start (epoch + 1) 0 last { fit with descent := fit.descent.nextEpoch }

section Runs

variable {examples : List (Example D κ R)} {start : Fit R}

/-- **Along a run** the gradients are zero before every example, the parameters are those
after the last update, and the descent is that of the epoch. -/
theorem Passes.fits [LawfulScalar R] [DescentScalar R] {rate decay : R}
    (hzero : start.graph.Cleared) (hstart : start.descent = .start rate decay)
    {epoch index : Nat} {last : Table (Parameter R)} {fit : Fit R}
    (h : T.Passes examples start epoch index last fit) :
    fit.graph.Cleared ∧ fit.graph.params = last ∧
      fit.descent = .afterEpochs rate decay epoch := by
  induction h with
  | start => exact ⟨hzero, rfl, hstart⟩
  | @learnt epoch index last fit fit' ex value _ _ _ hlearn ih =>
      obtain ⟨hcleared, -, hdescent⟩ := ih
      have hturn := turn_of_learn T index ex hcleared
      rw [hlearn] at hturn
      obtain ⟨hcleared', hdescent'⟩ := hturn.fits hcleared
      exact ⟨hcleared', rfl, hdescent'.trans hdescent⟩
  | @skipped epoch index last fit fit' ex _ _ _ hlearn ih =>
      obtain ⟨hcleared, hparams, hdescent⟩ := ih
      have hturn := turn_of_learn T index ex hcleared
      rw [hlearn] at hturn
      obtain ⟨hcleared', hdescent'⟩ := hturn.fits hcleared
      refine ⟨hcleared', ?_, hdescent'.trans hdescent⟩
      exact (hturn.params_eq fun _ h => by cases h).trans hparams
  | nextEpoch _ _ ih =>
      obtain ⟨hcleared, hparams, hdescent⟩ := ih
      exact ⟨hcleared, hparams, by rw [hdescent]; rfl⟩

/-- A run stays among its epochs and its examples. -/
theorem Passes.le {epoch index : Nat} {last : Table (Parameter R)} {fit : Fit R}
    (h : T.Passes examples start epoch index last fit) :
    epoch ≤ T.config.epochs ∧ index ≤ examples.length := by
  induction h with
  | start => exact ⟨Nat.zero_le _, Nat.zero_le _⟩
  | learnt _ hepoch hex _ _ | skipped _ hepoch hex _ _ =>
      exact ⟨hepoch.le, (List.getElem?_eq_some_iff.mp hex).1⟩
  | nextEpoch _ hepoch _ => exact ⟨hepoch, Nat.zero_le _⟩

/-- What is left of a run from an example on, with the accounts of the run and of the epoch
so far. -/
def resume (T : Trainer D κ R) (examples : List (Example D κ R)) (epoch index : Nat)
    (stats : TrainingStats R) (tally : EpochTally R) (fit : Fit R) :
    Fit R × Result R (TrainingStats R) :=
  if epoch < T.config.epochs then
    match (T.learnAll index (examples.drop index) tally fit).value with
    | (fit, .error halt) => (fit, .error halt)
    | (fit, .ok tally) =>
      (T.runEpochs examples (T.config.epochs - (epoch + 1)) (epoch + 1) (addEpoch stats tally)
        { fit with descent := fit.descent.nextEpoch }).value
  else (fit, .ok stats)

section Resume

variable {epoch index : Nat} {stats : TrainingStats R} {tally : EpochTally R} {fit fit' : Fit R}
  {ex : Example D κ R}

theorem resume_of_done (h : T.config.epochs ≤ epoch) :
    T.resume examples epoch index stats tally fit = (fit, .ok stats) :=
  if_neg (Nat.not_lt.mpr h)

/-- Epochs are resumed at the first example. -/
theorem value_runEpochs (T : Trainer D κ R) (examples : List (Example D κ R)) (epoch : Nat)
    (stats : TrainingStats R) (fit : Fit R) :
    (T.runEpochs examples (T.config.epochs - epoch) epoch stats fit).value =
      T.resume examples epoch 0 stats { loss := Scalar.zero } fit := by
  by_cases hepoch : epoch < T.config.epochs
  · have hcount : T.config.epochs - epoch = T.config.epochs - (epoch + 1) + 1 := by omega
    rw [hcount, runEpochs, resume, if_pos hepoch, List.drop_zero]
    simp only [Recorded.value_bind]
    cases (T.learnAll 0 examples { loss := Scalar.zero } fit).value with
    | mk fit result => cases result <;> rfl
  · rw [resume_of_done (Nat.not_lt.mp hepoch), Nat.sub_eq_zero_of_le (Nat.not_lt.mp hepoch)]
    rfl

/-- The last example of an epoch is followed by the first one of the next epoch. -/
theorem resume_of_length (hepoch : epoch < T.config.epochs) :
    T.resume examples epoch examples.length stats tally fit =
      T.resume examples (epoch + 1) 0 (addEpoch stats tally) { loss := Scalar.zero }
        { fit with descent := fit.descent.nextEpoch } := by
  rw [← value_runEpochs, resume, if_pos hepoch, List.drop_length]
  rfl

theorem resume_of_failed {halt : Halt R} (hepoch : epoch < T.config.epochs)
    (hex : examples[index]? = some ex)
    (hlearn : (T.learn index ex fit).value = (fit', .error halt)) :
    T.resume examples epoch index stats tally fit = (fit', .error halt) := by
  obtain ⟨hindex, rfl⟩ := List.getElem?_eq_some_iff.mp hex
  rw [resume, if_pos hepoch, List.drop_eq_getElem_cons hindex, learnAll]
  simp only [Recorded.value_bind, hlearn]
  rfl

theorem resume_of_skipped (hepoch : epoch < T.config.epochs) (hex : examples[index]? = some ex)
    (hlearn : (T.learn index ex fit).value = (fit', .ok none)) :
    T.resume examples epoch index stats tally fit =
      T.resume examples epoch (index + 1) stats
        { tally with searchErrors := tally.searchErrors + 1 } fit' := by
  obtain ⟨hindex, rfl⟩ := List.getElem?_eq_some_iff.mp hex
  rw [resume, resume, if_pos hepoch, if_pos hepoch, List.drop_eq_getElem_cons hindex, learnAll]
  simp only [Recorded.value_bind, hlearn]

theorem resume_of_learnt {value : R} (hepoch : epoch < T.config.epochs)
    (hex : examples[index]? = some ex)
    (hlearn : (T.learn index ex fit).value = (fit', .ok (some value))) :
    T.resume examples epoch index stats tally fit =
      T.resume examples epoch (index + 1) stats
        { tally with loss := tally.loss + value, examples := tally.examples + 1 } fit' := by
  obtain ⟨hindex, rfl⟩ := List.getElem?_eq_some_iff.mp hex
  rw [resume, resume, if_pos hepoch, if_pos hepoch, List.drop_eq_getElem_cons hindex, learnAll]
  simp only [Recorded.value_bind, hlearn]

end Resume

/-- Training yields what is left of the run from any example on that it comes to. -/
theorem Passes.train_eq {epoch index : Nat} {last : Table (Parameter R)} {fit : Fit R}
    (h : T.Passes examples start epoch index last fit) :
    ∃ stats tally,
      (T.train examples start).value = T.resume examples epoch index stats tally fit := by
  induction h with
  | start => exact ⟨{}, { loss := Scalar.zero }, T.value_runEpochs examples 0 {} start⟩
  | learnt _ hepoch hex hlearn ih =>
      obtain ⟨stats, tally, htrain⟩ := ih
      exact ⟨_, _, htrain.trans (resume_of_learnt hepoch hex hlearn)⟩
  | skipped _ hepoch hex hlearn ih =>
      obtain ⟨stats, tally, htrain⟩ := ih
      exact ⟨_, _, htrain.trans (resume_of_skipped hepoch hex hlearn)⟩
  | nextEpoch _ hepoch ih =>
      obtain ⟨stats, tally, htrain⟩ := ih
      exact ⟨_, _, htrain.trans (resume_of_length hepoch)⟩

/-- Where an example fails training ends, with what the example left. -/
theorem Passes.train_of_failed {epoch index : Nat} {last : Table (Parameter R)} {fit fit' : Fit R}
    {ex : Example D κ R} {halt : Halt R} (h : T.Passes examples start epoch index last fit)
    (hepoch : epoch < T.config.epochs) (hex : examples[index]? = some ex)
    (hlearn : (T.learn index ex fit).value = (fit', .error halt)) :
    (T.train examples start).value = (fit', .error halt) := by
  obtain ⟨stats, tally, htrain⟩ := h.train_eq
  exact htrain.trans (resume_of_failed hepoch hex hlearn)

/-- A run that has not come to its end goes on, unless an example fails. -/
theorem Passes.progress {epoch index : Nat} {last : Table (Parameter R)} {fit : Fit R}
    (h : T.Passes examples start epoch index last fit) (hepoch : epoch < T.config.epochs) :
    (∃ ex fit' halt, examples[index]? = some ex ∧
      (T.learn index ex fit).value = (fit', .error halt)) ∨
    ∃ epoch' index' last' fit', T.Passes examples start epoch' index' last' fit' ∧
      (epoch' = epoch + 1 ∨ epoch' = epoch ∧ index < index') := by
  cases hex : examples[index]? with
  | none =>
      have hindex : index = examples.length :=
        le_antisymm h.le.2 (List.getElem?_eq_none_iff.mp hex)
      subst hindex
      exact .inr ⟨_, _, _, _, .nextEpoch h hepoch, .inl rfl⟩
  | some ex =>
      cases hlearn : (T.learn index ex fit).value with
      | mk fit' result =>
          match result with
          | .error halt => exact .inl ⟨ex, fit', halt, rfl, hlearn⟩
          | .ok none =>
              exact .inr ⟨_, _, _, _, .skipped h hepoch hex hlearn, .inr ⟨rfl, by omega⟩⟩
          | .ok (some value) =>
              exact .inr ⟨_, _, _, _, .learnt h hepoch hex hlearn, .inr ⟨rfl, by omega⟩⟩

/-- Every run ends: after its last epoch, or with an example that fails. -/
theorem Passes.exists_end {epoch index : Nat} {last : Table (Parameter R)} {fit : Fit R}
    (h : T.Passes examples start epoch index last fit) :
    ∃ epoch' index' last' fit', T.Passes examples start epoch' index' last' fit' ∧
      (epoch' = T.config.epochs ∨ epoch' < T.config.epochs ∧ ∃ ex fit'' halt,
        examples[index']? = some ex ∧ (T.learn index' ex fit').value = (fit'', .error halt)) := by
  -- epochs are left, or examples of this epoch
  induction hepochs : T.config.epochs - epoch using Nat.strong_induction_on
    generalizing epoch index last fit with
  | _ _ ihepoch =>
    induction hindices : examples.length - index using Nat.strong_induction_on
      generalizing index last fit with
    | _ _ ihindex =>
      obtain ⟨hle, -⟩ := h.le
      rcases hle.eq_or_lt with hdone | hepoch
      · exact ⟨_, _, _, _, h, .inl hdone⟩
      rcases h.progress hepoch with hfailed | ⟨epoch', index', last', fit', h', hnext⟩
      · exact ⟨_, _, _, _, h, .inr ⟨hepoch, hfailed⟩⟩
      · have hindex' := h'.le.2
        rcases hnext with rfl | ⟨rfl, hlt⟩
        · exact ihepoch _ (by omega) h' rfl
        · exact ihindex _ (by omega) h' rfl

end Runs

variable [LawfulScalar R] [DescentScalar R]

/-- Where an example fails in a run from zero gradients, training ends with the parameters that
the run came with. -/
theorem Passes.train_of_cleared {examples : List (Example D κ R)} {start : Fit R}
    {rate decay : R} (hzero : start.graph.Cleared) (hstart : start.descent = .start rate decay)
    {epoch index : Nat} {last : Table (Parameter R)} {fit : Fit R} {ex : Example D κ R}
    {halt : Halt R} (h : T.Passes examples start epoch index last fit)
    (hepoch : epoch < T.config.epochs) (hex : examples[index]? = some ex)
    (hhalt : (T.learn index ex fit).value.2 = .error halt) :
    (T.train examples start).value = ({ fit with graph := fit.graph.renew }, .error halt) := by
  have hturn := turn_of_learn T index ex (h.fits hzero hstart).1
  rw [hhalt] at hturn
  rw [← hturn.eq_of_failed]
  exact h.train_of_failed hepoch hex (Prod.ext rfl hhalt)

/-- **Training runs**. From zero gradients, wherever a run comes to, the gradients are zero,
the parameters are those after the last update, and the rate is that of the epoch; an example
is learnt from on its own, skipped, or fails, and then the run yields the parameters that it
had there. Every run ends after its last epoch or with such an example. -/
theorem run_of_cleared (T : Trainer D κ R) (examples : List (Example D κ R)) {graph : Graph R}
    (hzero : graph.Cleared) (rate decay : R) :
    (∀ epoch index last fit,
      T.Passes examples (.fresh graph rate decay) epoch index last fit →
      fit.graph.Cleared ∧ fit.graph.params = last ∧
      (epoch = 0 → fit.descent.rate = rate) ∧
      (epoch ≠ 0 ∨ Scalar.isFinite decay = true →
        fit.descent.rate = rate / (Scalar.one + decay * Scalar.ofNat epoch)) ∧
      ∀ ex, epoch < T.config.epochs → examples[index]? = some ex →
        T.Turn index ex fit (T.learn index ex fit).value.1 (T.learn index ex fit).value.2 ∧
        ((T.learn index ex fit).value.2 = .ok none ↔ T.FindsNothing fit.graph.renew ex) ∧
        ∀ halt, (T.learn index ex fit).value.2 = .error halt →
          (T.train examples (.fresh graph rate decay)).value =
            ({ fit with graph := fit.graph.renew }, .error halt)) ∧
    ∃ epoch index last fit,
      T.Passes examples (.fresh graph rate decay) epoch index last fit ∧
      ((epoch = T.config.epochs ∧ ∃ stats,
          (T.train examples (.fresh graph rate decay)).value = (fit, .ok stats)) ∨
        (epoch < T.config.epochs ∧ ∃ ex halt, examples[index]? = some ex ∧
          (T.train examples (.fresh graph rate decay)).value =
            ({ fit with graph := fit.graph.renew }, .error halt))) := by
  refine ⟨fun epoch index last fit h => ?_, ?_⟩
  · obtain ⟨hcleared, hparams, hdescent⟩ := h.fits hzero rfl
    refine ⟨hcleared, hparams, fun hfirst => ?_, fun hlater => ?_,
      fun ex hepoch hex => ⟨turn_of_learn T index ex hcleared,
        (turn_of_learn T index ex hcleared).skips_iff, fun halt hhalt => ?_⟩⟩
    · rw [hdescent]
      exact if_pos hfirst
    · rw [hdescent]
      exact Descent.rate_afterEpochs hlater
    · exact h.train_of_cleared hzero rfl hepoch hex hhalt
  · have hstart : T.Passes examples (.fresh graph rate decay) 0 0 graph.params
        (.fresh graph rate decay) := .start
    obtain ⟨epoch, index, last, fit, h, hend⟩ := hstart.exists_end
    refine ⟨epoch, index, last, fit, h, ?_⟩
    rcases hend with hdone | ⟨hepoch, ex, fit', halt, hex, hlearn⟩
    · -- nothing is left of the run
      obtain ⟨stats, tally, htrain⟩ := h.train_eq
      exact .inl ⟨hdone, stats, htrain.trans (resume_of_done hdone.ge)⟩
    · have hhalt : (T.learn index ex fit).value.2 = .error halt := congrArg Prod.snd hlearn
      exact .inr ⟨hepoch, ex, halt, hex, h.train_of_cleared hzero rfl hepoch hex hhalt⟩

end Trainer

/-! ## A run that fails, and a decay that is not finite -/

/-- Continuations that do nothing. -/
def rowCodes : Codes Bool Unit Float where
  resume _ v := .ok (.value v)
  consult _ _ := .error (.failed .malformedScript)

/-- A graph with one parameter. -/
def rowGraph : Graph Float :=
  Graph.addParameter { locallyNormalized := false } "w" [2]

/-- A single choice, weighted by the parameter of the given name. -/
def rowExample (param : String) : Example Bool Unit Float where
  unconditional := .neural none [true] param none
  conditional := .neural none [true] param none
  env := .init
  oracle := .zero

/-- A single epoch. -/
def rowTrainer : Trainer Bool Unit Float where
  config := { epochs := 1 }
  codes := rowCodes
  fuel := 3

theorem cleared_rowGraph : rowGraph.Cleared := by
  intro name p hp
  rw [rowGraph, Graph.addParameter, Table.get?_insert] at hp
  by_cases hname : name = "w"
  · rw [if_pos hname] at hp
    cases hp
    rfl
  · rw [if_neg hname] at hp
    cases hp

/-- The second example asks for a parameter that does not exist. The run fails, and yields the
parameter that the first example left. -/
theorem run_rowGraph : rowGraph.Cleared ∧ ∃ epoch index last fit ex halt,
    rowTrainer.Passes [rowExample "w", rowExample "v"] (.fresh rowGraph 1 0) epoch index last fit ∧
    [rowExample "w", rowExample "v"][index]? = some ex ∧
    (rowTrainer.train [rowExample "w", rowExample "v"] (.fresh rowGraph 1 0)).value =
      ({ fit with graph := fit.graph.renew }, .error halt) ∧
    fit.graph.params = last ∧ fit.graph.Cleared ∧
    (last.get? "w").map (·.value) = some [3] := by
  obtain ⟨hpoints, epoch, index, last, fit, hpasses, hend⟩ :=
    rowTrainer.run_of_cleared [rowExample "w", rowExample "v"] cleared_rowGraph 1 0
  obtain ⟨hcleared, hparams, -⟩ := hpoints epoch index last fit hpasses
  have hfailed : (rowTrainer.train [rowExample "w", rowExample "v"]
      (.fresh rowGraph 1 0)).value.2.isOk = false := by decide +kernel
  have hvalue : ((rowTrainer.train [rowExample "w", rowExample "v"]
      (.fresh rowGraph 1 0)).value.1.graph.params.get? "w").map (·.value) = some [3] := by
    decide +kernel
  rcases hend with ⟨-, stats, htrain⟩ | ⟨-, ex, halt, hex, htrain⟩
  · rw [htrain] at hfailed
    cases hfailed
  · rw [htrain] at hvalue
    exact ⟨cleared_rowGraph, epoch, index, last, fit, ex, halt, hpasses, hex, htrain, hparams,
      hcleared, hparams ▸ hvalue⟩

/-- With an infinite decay the rate of the first epoch is not given by its formula, whose value
is not a number there: the step is taken at the initial rate. -/
theorem not_descends_rowGraph : rowGraph.Cleared ∧ ∃ loss,
    (rowTrainer.exampleLoss rowGraph.renew 0 (rowExample "w")).value = .ok (some loss) ∧
    rowGraph.evaluate loss = .ok [-2] ∧
    ¬ rowGraph.Descends (1 / (Scalar.one + -Scalar.negInf * Scalar.ofNat 0)) loss
      (rowTrainer.train [rowExample "w"] (.fresh rowGraph 1 (-Scalar.negInf))).value.1.graph := by
  refine ⟨cleared_rowGraph, _, rfl, by decide +kernel, ?_⟩
  rintro ⟨collected, hcollected, -, hparams⟩
  have hself : rowGraph.SameValues rowGraph := fun _ => rfl
  have hgradient : collected.get? "w" = some [-1] := by
    have hrun := congrArg (fun result => result.toOption.map (·.get? "w"))
      (hcollected rowGraph hself)
    exact (Option.some.inj hrun).symm.trans (by decide +kernel)
  have hparam : rowGraph.params.get? "w" = some (.ofValue [2]) := rfl
  have hvalue := congrArg (Option.map (·.value)) (hparams "w")
  rw [hparam, Option.map_some, Option.map_some, Graph.gradientOf, hgradient] at hvalue
  exact absurd hvalue (by decide +kernel)

end ChoiceSearch
