import ChoiceSearch.Proofs.Graph.Shapes
import ChoiceSearch.Proofs.Log.Statistics
import ChoiceSearch.Proofs.Training.Runs

/-!
# Accounts of training runs

A training run records its calls to the graph and to the optimizer. Whatever it ends in, they
are calls that lead from the fit at its start to the fit at its end, with the outcomes that
were recorded (`Trainer.performs_of_train`).

What a run does is entered in a ledger, with one row for each epoch and one entry for each
example of it: the example was learnt from, at a loss, or it was skipped (`Trainer.Fills`). The
account of a run that comes to its end is that of its ledger (`Trainer.accounts_of_train`), for
every graph and every optimizer: the calls that were recorded are those of its entries, so
every renewal of the graph, every update and every end of an epoch is accounted for; and the
statistics in the log are read off its rows. A graph that counts its renewals, as an expression
graph does under gradient descent (`countsRenewals_graph`), has counted every example.
-/

namespace ChoiceSearch

open ComputationGraph (view renew backward)

variable {D κ R G O : Type}

/-! ## Ledgers -/

namespace Call

/-- Whether a call starts a new generation. -/
def isRenew : Call R → Bool
  | .renew => true
  | _ => false

/-- Whether a call asks for an update of the parameters. -/
def isUpdate : Call R → Bool
  | .update _ => true
  | _ => false

/-- Whether a call ends an epoch. -/
def isUpdateEpoch : Call R → Bool
  | .updateEpoch => true
  | _ => false

end Call

/-- What was done with an example. -/
inductive Entry (R : Type) where
  /-- It was learnt from, at a loss of the given value. -/
  | learnt (loss : Expr R) (value : R)
  /-- There was nothing to learn from. -/
  | skipped

namespace Entry

/-- The value of the loss, if there was one. -/
def value? : Entry R → Option R
  | .learnt _ value => some value
  | .skipped => none

/-- Whether the example was learnt from. -/
def isLearnt (entry : Entry R) : Bool := entry.value?.isSome

/-- Whether the example was skipped. -/
def isSkipped (entry : Entry R) : Bool := entry.value?.isNone

@[simp] theorem isLearnt_learnt (loss : Expr R) (value : R) : (learnt loss value).isLearnt = true :=
  rfl
@[simp] theorem isLearnt_skipped : (skipped : Entry R).isLearnt = false := rfl
@[simp] theorem isSkipped_eq (entry : Entry R) : entry.isSkipped = !entry.isLearnt := by
  cases entry <;> rfl
@[simp] theorem value?_learnt (loss : Expr R) (value : R) :
    (learnt loss value).value? = some value := rfl
@[simp] theorem value?_skipped : (skipped : Entry R).value? = none := rfl

/-- The calls that an entry stands for: an update follows upon the gradient of the loss, and
both go through. -/
def calls : Entry R → List (Call R)
  | .learnt loss _ => [.renew, .backward loss (.ok ()), .update (.ok ())]
  | .skipped => [.renew]

/-- The calls that the rows of a ledger stand for. -/
def callsOf (ledger : List (List (Entry R))) : List (Call R) :=
  ledger.flatMap fun row => row.flatMap calls ++ [.updateEpoch]

end Entry

variable [Scalar R]

/-- The sum of the losses in a row. -/
def lossOf (row : List (Entry R)) : R :=
  (row.filterMap Entry.value?).foldl (· + ·) Scalar.zero

/-- The account of an epoch with one more example. -/
def EpochTally.enter (tally : EpochTally R) : Entry R → EpochTally R
  | .learnt _ value => { tally with loss := tally.loss + value, examples := tally.examples + 1 }
  | .skipped => { tally with searchErrors := tally.searchErrors + 1 }

/-- The account of the epoch of a row. -/
def tallyOf (row : List (Entry R)) : EpochTally R :=
  row.foldl EpochTally.enter { loss := Scalar.zero }

variable [ComputationGraph G R] [Optimizer O G R]

namespace Trainer

/-- The example with the given number is handled from a fit as the entry says. -/
inductive Enters (T : Trainer D κ R) (index : Nat) (ex : Example D κ R) (fit : Learner G O) :
    Entry R → Learner G O → Prop
  | learnt {loss : Expr R} {value : R} {values : List R} {g g' : G} {o : O} :
      (T.exampleLoss (view (renew fit.graph)) index ex).value = .ok (some loss) →
      (view (renew fit.graph)).evaluate loss = .ok (value :: values) →
      backward (renew fit.graph) loss = (g, .ok ()) →
      Optimizer.update fit.descent g = ((o, g'), .ok ()) →
      Enters T index ex fit (.learnt loss value) { graph := g', descent := o }
  | skipped : (T.exampleLoss (view (renew fit.graph)) index ex).value = .ok none →
      Enters T index ex fit .skipped { fit with graph := renew fit.graph }

/-- Examples are handled one after the other as a row says; the first one has the given
number. -/
inductive EntersAll (T : Trainer D κ R) :
    Nat → List (Example D κ R) → Learner G O → List (Entry R) → Learner G O → Prop
  | nil {index fit} : EntersAll T index [] fit [] fit
  | cons {index ex rest fit fit' fit'' entry row} : T.Enters index ex fit entry fit' →
      EntersAll T (index + 1) rest fit' row fit'' →
      EntersAll T index (ex :: rest) fit (entry :: row) fit''

/-- Epochs are run one after the other as a ledger says. -/
inductive Fills (T : Trainer D κ R) (examples : List (Example D κ R)) :
    Learner G O → List (List (Entry R)) → Learner G O → Prop
  | nil {fit} : Fills T examples fit [] fit
  | cons {fit fit' fit'' row ledger} : T.EntersAll 0 examples fit row fit' →
      Fills T examples { fit' with descent := Optimizer.updateEpoch G fit'.descent } ledger fit'' →
      Fills T examples fit (row :: ledger) fit''

end Trainer

/-! ## Calls -/

/-- A call made by a fit, with its outcome, and the fit after it. -/
inductive Learner.Makes (fit : Learner G O) : Call R → Learner G O → Prop
  | renew : Makes fit .renew { fit with graph := ComputationGraph.renew fit.graph }
  | backward {loss : Expr R} {g : G} {outcome : Except (Error R) Unit} :
      ComputationGraph.backward fit.graph loss = (g, outcome) →
      Makes fit (.backward loss outcome) { fit with graph := g }
  | update {o : O} {g : G} {outcome : Except (Error R) Unit} :
      Optimizer.update fit.descent fit.graph = ((o, g), outcome) →
      Makes fit (.update outcome) { graph := g, descent := o }
  | updateEpoch :
      Makes fit .updateEpoch { fit with descent := Optimizer.updateEpoch G fit.descent }

/-- Calls made one after the other. -/
inductive Learner.Performs : Learner G O → List (Call R) → Learner G O → Prop
  | nil {fit} : Performs fit [] fit
  | cons {fit fit' fit'' call calls} : Learner.Makes fit call fit' →
      Performs fit' calls fit'' → Performs fit (call :: calls) fit''

/-- The generation of a graph is the number of its renewals: a renewal counts, and neither a
gradient nor an update does. -/
structure CountsRenewals (G O : Type) {R : Type} [ComputationGraph G R] [Optimizer O G R] :
    Prop where
  renew : ∀ g : G, (view (renew g)).generation = (view g).generation + 1
  backward : ∀ (g : G) (loss : Expr R),
    (view (backward g loss).1).generation = (view g).generation
  update : ∀ (o : O) (g : G),
    (view (Optimizer.update o g).1.2).generation = (view g).generation

namespace Trainer

/-- The account of a training run, its final fit, its log and its calls are those of a
ledger. -/
structure Accounts (T : Trainer D κ R) (examples : List (Example D κ R)) (fit fit' : Learner G O)
    (stats : TrainingStats R) (events : List (Event R)) (calls : List (Call R))
    (ledger : List (List (Entry R))) : Prop where
  /-- The run is the one in the ledger. -/
  fills : T.Fills examples fit ledger fit'
  /-- The calls that were recorded are those that the ledger stands for. -/
  calls_eq : calls = Entry.callsOf ledger
  /-- They lead to the final fit. -/
  performed : fit.Performs calls fit'
  /-- There is a row for each epoch. -/
  rows : ledger.length = T.config.epochs
  /-- There is an entry for each example in each row. -/
  entries : ∀ row ∈ ledger, row.length = examples.length
  epochs : stats.epochs = T.config.epochs
  /-- The loss of an epoch is the sum over the examples that were learnt from in it. -/
  losses : stats.losses = ledger.map lossOf
  losses_length : stats.losses.length = T.config.epochs
  learnt : stats.examples = ledger.flatten.countP Entry.isLearnt
  skipped : stats.searchErrors = ledger.flatten.countP Entry.isSkipped
  handled : stats.examples + stats.searchErrors = T.config.epochs * examples.length
  renewals : calls.countP Call.isRenew = T.config.epochs * examples.length
  generation : CountsRenewals G O → (view fit'.graph).generation =
    (view fit.graph).generation + T.config.epochs * examples.length
  updates : calls.countP Call.isUpdate = stats.examples
  updateEpochs : calls.countP Call.isUpdateEpoch = T.config.epochs
  /-- One loss is logged for each epoch. -/
  lossLog : statisticsNamed "loss" events = stats.losses.mapIdx fun epoch loss => (epoch, loss)
  /-- One number of skipped examples is logged for each epoch, and no other one. -/
  errorLog : statisticsNamed "search_errors" events =
    (ledger.map (·.countP Entry.isSkipped)).mapIdx fun epoch n => (epoch, Scalar.ofNat n)
  errorLog_sum : (ledger.map (·.countP Entry.isSkipped)).sum = stats.searchErrors

end Trainer

section Calls

variable {fit fit' fit'' : Learner G O} {calls calls' : List (Call R)}

omit [Scalar R] in
theorem Learner.Performs.append (h : fit.Performs calls fit') (h' : fit'.Performs calls' fit'') :
    fit.Performs (calls ++ calls') fit'' := by
  induction h with
  | nil => exact h'
  | cons hcall _ ih => exact .cons hcall (ih h')

omit [Scalar R] in
/-- Only a renewal starts a new generation. -/
theorem CountsRenewals.makes (hcounts : CountsRenewals G O) {call : Call R}
    (h : fit.Makes call fit') : (view fit'.graph).generation =
      (view fit.graph).generation + if call.isRenew then 1 else 0 := by
  cases h with
  | renew => exact hcounts.renew fit.graph
  | @backward loss g outcome hbackward =>
      have hsame := hcounts.backward fit.graph loss
      rwa [hbackward] at hsame
  | @update o g outcome hupdate =>
      have hsame := hcounts.update fit.descent fit.graph
      rwa [hupdate] at hsame
  | updateEpoch => rfl

omit [Scalar R] in
/-- A graph that counts its renewals has counted those among the calls. -/
theorem CountsRenewals.performs (hcounts : CountsRenewals G O) (h : fit.Performs calls fit') :
    (view fit'.graph).generation =
      (view fit.graph).generation + calls.countP Call.isRenew := by
  induction h with
  | nil => rfl
  | cons hcall _ ih =>
      rw [ih, hcounts.makes hcall, List.countP_cons]
      omega

/-- An expression graph counts its renewals under gradient descent. -/
theorem countsRenewals_graph : CountsRenewals (Graph R) (Descent R) where
  renew _ := rfl
  backward g loss := by
    cases hbackward : g.backward loss with
    | error e => rw [Graph.backward_of_error hbackward]
    | ok g' =>
        rw [Graph.backward_of_ok hbackward]
        obtain ⟨collected, -, rfl⟩ := Graph.exists_of_backward_eq_ok hbackward
        rfl
  update _ _ := rfl

omit [Scalar R] in
/-- An entry renews the graph once, and updates it if it was learnt from. -/
theorem Entry.countP_calls (entry : Entry R) :
    entry.calls.countP Call.isRenew = 1 ∧
    entry.calls.countP Call.isUpdate = (if entry.isLearnt then 1 else 0) ∧
    entry.calls.countP Call.isUpdateEpoch = 0 := by
  cases entry <;> exact ⟨rfl, rfl, rfl⟩

omit [Scalar R] in
theorem Entry.countP_flatMap_calls (row : List (Entry R)) :
    (row.flatMap Entry.calls).countP Call.isRenew = row.length ∧
    (row.flatMap Entry.calls).countP Call.isUpdate = row.countP Entry.isLearnt ∧
    (row.flatMap Entry.calls).countP Call.isUpdateEpoch = 0 := by
  induction row with
  | nil => exact ⟨rfl, rfl, rfl⟩
  | cons entry row ih =>
      obtain ⟨hrenew, hupdate, hnext⟩ := entry.countP_calls
      obtain ⟨hrenews, hupdates, hnexts⟩ := ih
      simp only [List.flatMap_cons, List.countP_append, hrenew, hupdate, hnext, hrenews, hupdates,
        hnexts, List.countP_cons, List.length_cons]
      exact ⟨Nat.add_comm _ _, Nat.add_comm _ _, trivial⟩

omit [Scalar R] in
theorem Entry.countP_callsOf (ledger : List (List (Entry R))) :
    (Entry.callsOf ledger).countP Call.isRenew = (ledger.map List.length).sum ∧
    (Entry.callsOf ledger).countP Call.isUpdate = ledger.flatten.countP Entry.isLearnt ∧
    (Entry.callsOf ledger).countP Call.isUpdateEpoch = ledger.length := by
  unfold Entry.callsOf
  induction ledger with
  | nil => exact ⟨rfl, rfl, rfl⟩
  | cons row ledger ih =>
      obtain ⟨hrenew, hupdate, hnext⟩ := Entry.countP_flatMap_calls row
      obtain ⟨hrenews, hupdates, hnexts⟩ := ih
      simp only [List.flatMap_cons, List.countP_append, hrenew, hupdate, hnext, hrenews, hupdates,
        hnexts, List.map_cons, List.sum_cons, List.flatten_cons, List.length_cons]
      refine ⟨rfl, rfl, ?_⟩
      show 0 + 1 + ledger.length = _
      omega

omit [Scalar R] in
/-- An example is either learnt from or skipped. -/
theorem Entry.countP_add_countP (row : List (Entry R)) :
    row.countP Entry.isLearnt + row.countP Entry.isSkipped = row.length := by
  rw [List.length_eq_countP_add_countP Entry.isLearnt]
  refine congrArg (_ + ·) (List.countP_congr fun entry _ => ?_)
  simp

end Calls

/-! ## Tallies -/

section Tallies

/-- What the entries of a row add to the account of an epoch. -/
theorem EpochTally.foldl_enter (row : List (Entry R)) (tally : EpochTally R) :
    row.foldl EpochTally.enter tally =
      { loss := (row.filterMap Entry.value?).foldl (· + ·) tally.loss
        examples := tally.examples + row.countP Entry.isLearnt
        searchErrors := tally.searchErrors + row.countP Entry.isSkipped } := by
  induction row generalizing tally with
  | nil => rfl
  | cons entry row ih =>
      rw [List.foldl_cons, ih, List.countP_cons, List.countP_cons]
      cases entry with
      | learnt loss value => simp [EpochTally.enter, Nat.add_assoc, Nat.add_comm 1]
      | skipped =>
          rw [List.filterMap_cons_none rfl]
          simp [EpochTally.enter, Nat.add_assoc, Nat.add_comm 1]

theorem tallyOf_eq (row : List (Entry R)) : tallyOf row =
    { loss := lossOf row
      examples := row.countP Entry.isLearnt
      searchErrors := row.countP Entry.isSkipped } := by
  rw [tallyOf, EpochTally.foldl_enter]
  simp [lossOf]

/-- What the rows of a ledger add to the account of a run. -/
theorem Trainer.foldl_addEpoch (ledger : List (List (Entry R))) (stats : TrainingStats R) :
    ledger.foldl (fun stats row => addEpoch stats (tallyOf row)) stats =
      { epochs := stats.epochs + ledger.length
        examples := stats.examples + ledger.flatten.countP Entry.isLearnt
        searchErrors := stats.searchErrors + ledger.flatten.countP Entry.isSkipped
        losses := stats.losses ++ ledger.map lossOf } := by
  induction ledger generalizing stats with
  | nil => simp
  | cons row ledger ih =>
      rw [List.foldl_cons, ih, addEpoch, tallyOf_eq]
      simp
      omega

end Tallies

/-! ## Logs -/

section Logs

variable {name : String}

namespace Trainer

variable (T : Trainer D κ R)

theorem statisticsNamed_learn (hname : name ≠ "frontier_size") (index : Nat)
    (ex : Example D κ R) (fit : Learner G O) :
    statisticsNamed name (T.learn index ex fit).events = [] := by
  have hloss :
      statisticsNamed name (T.exampleLoss (view (renew fit.graph)) index ex).events = [] := by
    have hsearch := Setting.statisticsNamed_beamSearch
      { codes := T.codes, graph := view (renew fit.graph), score := ex.oracle, fuel := T.fuel }
      hname T.config.search ex.conditional ex.env
    unfold exampleLoss search
    simp only [bind, Logged.andThen, statisticsNamed_append]
    refine List.append_eq_nil_iff.mpr ⟨hsearch, ?_⟩
    split <;> rfl
  cases hvalue : (T.exampleLoss (view (renew fit.graph)) index ex).value with
  | error halt =>
      rw [learn_of_error fit hvalue]
      exact hloss
  | ok loss? =>
      cases loss? with
      | none =>
          rw [learn_of_none fit hvalue]
          exact hloss
      | some loss =>
          rw [learn_of_some fit hvalue]
          simpa [events_descendLoss] using hloss

theorem statisticsNamed_learnAll (hname : name ≠ "frontier_size") (index : Nat)
    (examples : List (Example D κ R)) (tally : EpochTally R) (fit : Learner G O) :
    statisticsNamed name (T.learnAll index examples tally fit).events = [] := by
  induction examples generalizing index tally fit with
  | nil => rfl
  | cons ex rest ih =>
      unfold learnAll
      simp only [Recorded.events_bind, statisticsNamed_append]
      refine List.append_eq_nil_iff.mpr ⟨T.statisticsNamed_learn hname index ex fit, ?_⟩
      split
      · rfl
      · exact ih ..
      · exact ih ..

/-- The timer of a run is no statistic. -/
theorem statisticsNamed_train (examples : List (Example D κ R)) (fit : Learner G O) :
    statisticsNamed name (T.train examples fit).events =
      statisticsNamed name (T.runEpochs examples T.config.epochs 0 {} fit).events :=
  statisticsNamed_timed name "pnp_train" (T.runEpochs examples T.config.epochs 0 {} fit).toLogged

end Trainer

end Logs

/-! ## Runs -/

namespace Trainer

variable {T : Trainer D κ R} {examples : List (Example D κ R)} {fit fit' : Learner G O}

section Performs

omit [Scalar R] in
/-- The calls of a run and of what comes after it. -/
theorem performs_bind {α β : Type} {first : Recorded R (Learner G O × α)}
    {next : Learner G O × α → Recorded R (Learner G O × β)}
    (h : fit.Performs first.calls first.value.1)
    (hnext : first.value.1.Performs (next first.value).calls (next first.value).value.1) :
    fit.Performs (first >>= next).calls (first >>= next).value.1 :=
  h.append hnext

omit [Scalar R] in
theorem performs_descendLoss (fit : Learner G O) (loss : Expr R) :
    fit.Performs (descendLoss fit loss).calls (descendLoss fit loss).value.1 := by
  have hsteps := stepsTo_descendLoss fit loss
  generalize descendLoss fit loss = run at hsteps ⊢
  cases hsteps with
  | valueless => exact .nil
  | notFound hbackward => exact .cons (.backward hbackward) .nil
  | notTaken hbackward hupdate =>
      exact .cons (.backward hbackward) (.cons (.update hupdate) .nil)
  | taken _ hbackward hupdate =>
      exact .cons (.backward hbackward) (.cons (.update hupdate) .nil)

theorem performs_learn (T : Trainer D κ R) (index : Nat) (ex : Example D κ R)
    (fit : Learner G O) :
    fit.Performs (T.learn index ex fit).calls (T.learn index ex fit).value.1 := by
  cases hvalue : (T.exampleLoss (view (renew fit.graph)) index ex).value with
  | error halt =>
      rw [learn_of_error fit hvalue]
      exact .cons .renew .nil
  | ok loss? =>
      cases loss? with
      | none =>
          rw [learn_of_none fit hvalue]
          exact .cons .renew .nil
      | some loss =>
          rw [learn_of_some fit hvalue]
          exact .cons .renew (performs_descendLoss ..)

theorem performs_learnAll (T : Trainer D κ R) (index : Nat) (examples : List (Example D κ R))
    (tally : EpochTally R) (fit : Learner G O) :
    fit.Performs (T.learnAll index examples tally fit).calls
      (T.learnAll index examples tally fit).value.1 := by
  induction examples generalizing index tally fit with
  | nil => exact .nil
  | cons ex rest ih =>
      unfold learnAll
      refine performs_bind (T.performs_learn index ex fit) ?_
      split <;> rename_i heq <;> rw [heq]
      · exact .nil
      · exact ih ..
      · exact ih ..

theorem performs_runEpochs (T : Trainer D κ R) (examples : List (Example D κ R))
    (count epoch : Nat) (stats : TrainingStats R) (fit : Learner G O) :
    fit.Performs (T.runEpochs examples count epoch stats fit).calls
      (T.runEpochs examples count epoch stats fit).value.1 := by
  induction count generalizing epoch stats fit with
  | zero => exact .nil
  | succ count ih =>
      have hlearn := T.performs_learnAll 0 examples { loss := Scalar.zero } fit
      cases hvalue : (T.learnAll 0 examples { loss := Scalar.zero } fit).value with
      | mk fit' result =>
          rw [hvalue] at hlearn
          unfold runEpochs
          simp only [Recorded.calls_bind, Recorded.value_bind, hvalue]
          refine hlearn.append ?_
          cases result with
          | error halt => exact .nil
          | ok tally => exact .cons .updateEpoch (ih ..)

/-- **The calls of a training run**, whatever it ends in, lead from the fit at its start to the
fit at its end. -/
theorem performs_of_train (T : Trainer D κ R) (examples : List (Example D κ R))
    (fit : Learner G O) :
    fit.Performs (T.train examples fit).calls (T.train examples fit).value.1 := by
  unfold train
  simp only [Recorded.calls_bind, Recorded.value_bind]
  exact (T.performs_runEpochs ..).append .nil

end Performs

/-- An example that does not fail is entered, with the calls that were made for it. -/
theorem exists_entry_of_learn {index : Nat} {ex : Example D κ R} {value? : Option R}
    (h : (T.learn index ex fit).value = (fit', .ok value?)) :
    ∃ entry, T.Enters index ex fit entry fit' ∧ entry.value? = value? ∧
      (T.learn index ex fit).calls = entry.calls := by
  cases hloss : (T.exampleLoss (view (renew fit.graph)) index ex).value with
  | error halt =>
      rw [learn_of_error fit hloss] at h
      cases h
  | ok loss? =>
      cases loss? with
      | none =>
          rw [learn_of_none fit hloss] at h ⊢
          cases h
          exact ⟨.skipped, .skipped hloss, rfl, rfl⟩
      | some loss =>
          rw [learn_of_some fit hloss] at h ⊢
          have hsteps := stepsTo_descendLoss { fit with graph := renew fit.graph } loss
          generalize descendLoss { fit with graph := renew fit.graph } loss = run at h hsteps ⊢
          cases hsteps with
          | valueless => cases h
          | notFound _ => cases h
          | notTaken _ _ => cases h
          | @taken value _ _ _ _ hvalue hbackward hupdate =>
              cases h
              exact ⟨.learnt loss value, .learnt hloss hvalue hbackward hupdate, rfl, rfl⟩

/-- An entry adds to the account of the epoch what its value says, and its calls to those of
the run. -/
theorem exists_row_of_learnAll {index : Nat} {tally tally' : EpochTally R}
    (h : (T.learnAll index examples tally fit).value = (fit', .ok tally')) :
    ∃ row, T.EntersAll index examples fit row fit' ∧ tally' = row.foldl EpochTally.enter tally ∧
      (T.learnAll index examples tally fit).calls = row.flatMap Entry.calls := by
  induction examples generalizing index tally fit with
  | nil =>
      cases h
      exact ⟨[], .nil, rfl, rfl⟩
  | cons ex rest ih =>
      unfold learnAll at h ⊢
      simp only [Recorded.value_bind] at h
      simp only [Recorded.calls_bind]
      cases hlearn : (T.learn index ex fit).value with
      | mk middle result =>
          rw [hlearn] at h
          cases result with
          | error halt => cases h
          | ok value? =>
              obtain ⟨entry, henters, rfl, hcalls⟩ := exists_entry_of_learn hlearn
              rw [hcalls]
              cases entry with
              | skipped =>
                  obtain ⟨row, hrow, htally, hrest⟩ := ih h
                  exact ⟨.skipped :: row, .cons henters hrow, htally, congrArg (_ ++ ·) hrest⟩
              | learnt loss value =>
                  obtain ⟨row, hrow, htally, hrest⟩ := ih h
                  exact ⟨.learnt loss value :: row, .cons henters hrow, htally,
                    congrArg (_ ++ ·) hrest⟩

/-- An epoch that does not fail, with what it logs and the calls that it makes. -/
theorem runEpochs_succ {events : List (Event R)} {calls : List (Call R)} {count epoch : Nat}
    {stats : TrainingStats R} {tally : EpochTally R}
    (h : T.learnAll 0 examples { loss := Scalar.zero } fit =
      ⟨⟨events, fit', .ok tally⟩, calls⟩) :
    T.runEpochs examples (count + 1) epoch stats fit =
      let rest := T.runEpochs examples count (epoch + 1) (addEpoch stats tally)
        { fit' with descent := Optimizer.updateEpoch G fit'.descent }
      ⟨⟨.iterationStart epoch :: events ++ .statistic epoch "loss" tally.loss ::
          .statistic epoch "search_errors" (Scalar.ofNat tally.searchErrors) ::
          .iterationEnd epoch :: rest.events, rest.value⟩,
        calls ++ .updateEpoch :: rest.calls⟩ := by
  rw [runEpochs]
  simp only [bind, Recorded.andThen, h]
  rfl

omit [Scalar R] [ComputationGraph G R] [Optimizer O G R] in
/-- What an epoch logs under a name that no search uses. -/
theorem statisticsNamed_epoch {name : String} {events rest : List (Event R)} {epoch : Nat}
    (h : statisticsNamed name events = []) (loss errors : R) :
    statisticsNamed name (.iterationStart epoch :: events ++ .statistic epoch "loss" loss ::
        .statistic epoch "search_errors" errors :: .iterationEnd epoch :: rest) =
      (if "loss" = name then [(epoch, loss)] else []) ++
        (if "search_errors" = name then [(epoch, errors)] else []) ++
          statisticsNamed name rest := by
  rw [List.cons_append]
  unfold statisticsNamed at h ⊢
  rw [List.filterMap_cons_none rfl, List.filterMap_append, h, List.nil_append]
  simp only [List.filterMap_cons]
  split <;> split <;> simp_all

theorem EntersAll.length_eq {index : Nat} {row : List (Entry R)}
    (h : T.EntersAll index examples fit row fit') : row.length = examples.length := by
  induction h with
  | nil => rfl
  | cons _ _ ih => exact congrArg (· + 1) ih

theorem Fills.length_eq {ledger : List (List (Entry R))} (h : T.Fills examples fit ledger fit') :
    ∀ row ∈ ledger, row.length = examples.length := by
  induction h with
  | nil => exact List.forall_mem_nil _
  | cons hrow _ ih => exact List.forall_mem_cons.mpr ⟨hrow.length_eq, ih⟩

/-- The epochs of a run that does not fail fill a ledger, which holds its account, its
statistics and its calls. By induction on the epochs that are left. -/
theorem exists_ledger_of_runEpochs {count epoch : Nat} {stats stats' : TrainingStats R}
    (h : (T.runEpochs examples count epoch stats fit).value = (fit', .ok stats')) :
    ∃ ledger, T.Fills examples fit ledger fit' ∧ ledger.length = count ∧
      stats' = ledger.foldl (fun stats row => addEpoch stats (tallyOf row)) stats ∧
      statisticsNamed "loss" (T.runEpochs examples count epoch stats fit).events =
        ledger.mapIdx (fun i row => (epoch + i, lossOf row)) ∧
      statisticsNamed "search_errors" (T.runEpochs examples count epoch stats fit).events =
        ledger.mapIdx (fun i row => (epoch + i, Scalar.ofNat (row.countP Entry.isSkipped))) ∧
      (T.runEpochs examples count epoch stats fit).calls = Entry.callsOf ledger := by
  induction count generalizing epoch stats fit with
  | zero =>
      cases h
      exact ⟨[], .nil, rfl, rfl, rfl, rfl, rfl⟩
  | succ count ih =>
      have hquiet : ∀ name ≠ "frontier_size",
          statisticsNamed name (T.learnAll 0 examples { loss := Scalar.zero } fit).events = [] :=
        fun name hname => T.statisticsNamed_learnAll hname 0 examples _ fit
      cases hlearn : T.learnAll 0 examples { loss := Scalar.zero } fit with
      | mk logged calls =>
        obtain ⟨events, middle, result⟩ := logged
        rw [hlearn] at hquiet
        cases result with
        | error halt =>
            unfold runEpochs at h
            simp only [Recorded.value_bind, hlearn] at h
            cases h
        | ok tally =>
            obtain ⟨row, hrow, htally, hcalls⟩ :=
              exists_row_of_learnAll (congrArg (fun run => run.value) hlearn)
            obtain rfl : tally = tallyOf row := htally
            rw [hlearn] at hcalls
            rw [runEpochs_succ hlearn] at h ⊢
            obtain ⟨ledger, hfills, hlength, hstats, hlosses, herrors, hrest⟩ := ih h
            refine ⟨row :: ledger, .cons hrow hfills, congrArg (· + 1) hlength, hstats, ?_, ?_, ?_⟩
            · dsimp only
              rw [statisticsNamed_epoch (hquiet "loss" (by decide)), hlosses, List.mapIdx_cons,
                tallyOf_eq]
              simp [Nat.add_assoc, Nat.add_comm 1]
            · dsimp only
              rw [statisticsNamed_epoch (hquiet "search_errors" (by decide)), herrors,
                List.mapIdx_cons, tallyOf_eq]
              simp [Nat.add_assoc, Nat.add_comm 1]
            · dsimp only at hcalls ⊢
              rw [hrest, hcalls, Entry.callsOf, Entry.callsOf, List.flatMap_cons, List.append_assoc,
                List.singleton_append]

/-- **The account of a training run** that comes to its end, on any graph and with any
optimizer, is that of a ledger with a row for each epoch and an entry for each example. -/
theorem accounts_of_train {stats : TrainingStats R}
    (h : (T.train examples fit).value = (fit', .ok stats)) :
    ∃ ledger, T.Accounts examples fit fit' stats (T.train examples fit).events
      (T.train examples fit).calls ledger := by
  have hruns : (T.runEpochs examples T.config.epochs 0 {} fit).value = (fit', .ok stats) := h
  have hperforms : fit.Performs (T.train examples fit).calls fit' := by
    have hrun := T.performs_of_train examples fit
    rwa [h] at hrun
  have hcalls : (T.train examples fit).calls =
      (T.runEpochs examples T.config.epochs 0 {} fit).calls :=
    List.append_nil _
  obtain ⟨ledger, hfills, hrows, hstats, hlosses, herrors, hledger⟩ :=
    exists_ledger_of_runEpochs hruns
  rw [hledger] at hcalls
  rw [hcalls] at hperforms ⊢
  rw [foldl_addEpoch] at hstats
  subst hstats
  have hentries := hfills.length_eq
  have hhandled : (ledger.map List.length).sum = T.config.epochs * examples.length := by
    rw [List.map_congr_left hentries, List.map_const', List.sum_replicate_nat, hrows]
  obtain ⟨hrenewals, hupdates, hnextEpochs⟩ := Entry.countP_callsOf ledger
  have hsplit : ledger.flatten.countP Entry.isLearnt + ledger.flatten.countP Entry.isSkipped =
      T.config.epochs * examples.length := by
    rw [Entry.countP_add_countP, List.length_flatten, hhandled]
  refine ⟨ledger, {
    fills := hfills
    calls_eq := rfl
    performed := hperforms
    rows := hrows
    entries := hentries
    epochs := ?_
    losses := ?_
    losses_length := ?_
    learnt := ?_
    skipped := ?_
    handled := ?_
    renewals := hrenewals.trans hhandled
    generation := fun hcounts => ?_
    updates := ?_
    updateEpochs := hnextEpochs.trans hrows
    lossLog := ?_
    errorLog := ?_
    errorLog_sum := ?_ }⟩
  · simp [hrows]
  · simp
  · simp [hrows]
  · simp
  · simp
  · simpa using hsplit
  · rw [hcounts.performs hperforms, hrenewals, hhandled]
  · simpa using hupdates
  · rw [statisticsNamed_train, hlosses]
    exact List.ext_getElem (by simp) (by simp)
  · rw [statisticsNamed_train, herrors]
    exact List.ext_getElem (by simp) (by simp)
  · rw [← List.countP_flatten]
    simp

/-- Two epochs over an example that is learnt from and one that no path of the search survives:
half of the entries are updates, and the graph counts all of them. -/
theorem accounts_rowExample :
    let T : Trainer Bool Unit Float := { rowTrainer with config := { epochs := 2 } }
    let examples := [rowExample "w", { rowExample "w" with conditional := .fail }]
    CountsRenewals (Graph Float) (Descent Float) ∧
    ∃ fit' stats ledger, (T.train examples (.fresh rowGraph 1 0)).value = (fit', .ok stats) ∧
      T.Accounts examples (.fresh rowGraph 1 0) fit' stats
        (T.train examples (.fresh rowGraph 1 0)).events
        (T.train examples (.fresh rowGraph 1 0)).calls ledger ∧
      stats.examples = 2 ∧ stats.searchErrors = 2 ∧ fit'.graph.generation = 4 := by
  intro T examples
  have hok : (T.train examples (.fresh rowGraph 1 0)).value.2.toOption.map
      (fun stats => (stats.examples, stats.searchErrors)) = some (2, 2) := by decide +kernel
  cases htrain : (T.train examples (.fresh rowGraph 1 0)).value with
  | mk fit' result =>
      rw [htrain] at hok
      cases result with
      | error halt => cases hok
      | ok stats =>
          obtain ⟨ledger, haccounts⟩ := accounts_of_train htrain
          obtain ⟨hexamples, herrors⟩ := Prod.mk.inj (Option.some.inj hok)
          exact ⟨countsRenewals_graph, fit', stats, ledger, rfl, haccounts, hexamples, herrors,
            haccounts.generation countsRenewals_graph⟩

end Trainer

end ChoiceSearch
