import ChoiceSearch.Proofs.Training.Example
import ChoiceSearch.Search.Sample
import ChoiceSearch.Search.SumProduct

/-!
# Nested timers

Searches and training runs start timers of their logger and stop them again. The calls are
replayed on a stack of the timers that run (`runningAfter?`): a call may stop the newest timer
only. They are properly nested (`Nested`) if the replay goes through and leaves no timer
running.

A replay never looks below the timers that it has started itself (`runningAfter?_frame`), so
nested calls stay nested when they are put next to each other or between the start and the
stop of a timer. Whatever a search or a training run ends in, its calls are nested
(`nested_of_runs`): an error is passed on from within the timers that are still to be stopped.
-/

namespace ChoiceSearch

variable {D κ R G α β : Type}

/-- The timers that run after a call, the newest one first. Only the newest one may be
stopped. -/
def Event.runningAfter? (running : List String) : Event R → Option (List String)
  | .start timer => some (timer :: running)
  | .stop timer => if running.head? = some timer then some running.tail else none
  | .statistic .. | .iterationStart _ | .iterationEnd _ => some running

/-- The timers that run after some calls, unless one of them is out of order. -/
def runningAfter? (running : List String) (events : List (Event R)) : Option (List String) :=
  events.foldlM Event.runningAfter? running

/-- Every timer that is started is stopped once, inner timers before outer ones. -/
def Nested (events : List (Event R)) : Prop :=
  runningAfter? [] events = some []

instance (events : List (Event R)) : Decidable (Nested events) :=
  inferInstanceAs (Decidable (_ = _))

/-- The calls take place while a timer of their own runs, from its start to its stop. -/
structure TimedBy (timer : String) (events : List (Event R)) : Prop where
  nested : Nested events
  spans : ∃ inner, Nested inner ∧ events = .start timer :: inner ++ [.stop timer]

/-! ## Replaying calls -/

/-- A call does not touch the timers below those that it was replayed on. -/
theorem Event.runningAfter?_frame {running running' : List String} {event : Event R}
    (h : event.runningAfter? running = some running') (below : List String) :
    event.runningAfter? (running ++ below) = some (running' ++ below) := by
  cases event with
  | start timer =>
      cases h
      rfl
  | stop timer =>
      by_cases hhead : running.head? = some timer
      · obtain ⟨rest, rfl⟩ := List.head?_eq_some_iff.mp hhead
        simp only [Event.runningAfter?, List.head?_cons, if_true] at h
        cases h
        simp [Event.runningAfter?]
      · simp only [Event.runningAfter?, if_neg hhead] at h
        cases h
  | statistic iteration name value =>
      cases h
      rfl
  | iterationStart iteration =>
      cases h
      rfl
  | iterationEnd iteration =>
      cases h
      rfl

theorem runningAfter?_frame {running running' : List String} {events : List (Event R)}
    (h : runningAfter? running events = some running') (below : List String) :
    runningAfter? (running ++ below) events = some (running' ++ below) := by
  unfold runningAfter? at h ⊢
  induction events generalizing running with
  | nil =>
      cases h
      rfl
  | cons event events ih =>
      rw [List.foldlM_cons] at h ⊢
      obtain ⟨middle, hevent, hevents⟩ := Option.bind_eq_some_iff.mp h
      rw [event.runningAfter?_frame hevent below]
      exact ih hevents

/-- Nested calls leave the same timers running. -/
theorem Nested.runningAfter? {events : List (Event R)} (h : Nested events)
    (running : List String) : runningAfter? running events = some running :=
  runningAfter?_frame h running

theorem nested_nil : Nested ([] : List (Event R)) := rfl

theorem Nested.append {events events' : List (Event R)} (h : Nested events)
    (h' : Nested events') : Nested (events ++ events') := by
  unfold Nested ChoiceSearch.runningAfter? at h h' ⊢
  rw [List.foldlM_append, h]
  exact h'

/-- Nested calls may be enclosed by the start and the stop of a timer. -/
theorem Nested.timed {events : List (Event R)} (h : Nested events) (timer : String) :
    Nested (.start timer :: events ++ [.stop timer]) := by
  have hinner := h.runningAfter? [timer]
  unfold Nested ChoiceSearch.runningAfter? at hinner ⊢
  rw [List.cons_append, List.foldlM_cons]
  show (events ++ [Event.stop timer]).foldlM Event.runningAfter? [timer] = some []
  rw [List.foldlM_append, hinner]
  simp [Event.runningAfter?]

/-! ## Logged computations -/

theorem nested_bind {first : Logged R α} {next : α → Logged R β} (h : Nested first.events)
    (hnext : ∀ a, Nested (next a).events) : Nested (first >>= next).events :=
  h.append (hnext first.value)

/-- A single call to the logger, not to a timer, may come first. -/
theorem nested_emit {event : Event R} {next : Unit → Logged R β} (h : Nested [event])
    (hnext : Nested (next ()).events) : Nested (Logged.emit event >>= next).events :=
  nested_bind h fun _ => hnext

/-- What is timed is timed by its timer. -/
theorem timedBy_timed {inner : Logged R α} (h : Nested inner.events) (timer : String) :
    TimedBy timer (inner.timed timer).events :=
  ⟨h.timed timer, inner.events, h, rfl⟩

/-- A timed computation stays timed when something is made of its value without a call. -/
theorem TimedBy.bind_quiet {timer : String} {first : Logged R α} (h : TimedBy timer first.events)
    {next : α → Logged R β} (hnext : ∀ a, (next a).events = []) :
    TimedBy timer (first >>= next).events := by
  have hevents : (first >>= next).events = first.events :=
    (congrArg (first.events ++ ·) (hnext first.value)).trans (List.append_nil _)
  rw [hevents]
  exact h

variable [Scalar R]

namespace Setting

variable (S : Setting D κ R)

/-- The rounds of a beam search make nested calls, by induction on the rounds; and if one of
them fails the timer of the search is stopped after those, and not otherwise. -/
theorem exists_nested_rounds (limit fuel n : Nat) (beam : Beam D κ R) :
    ∃ inner, Nested inner ∧ (S.rounds limit fuel n beam).events = inner ++
      match (S.rounds limit fuel n beam).value with
      | .error _ => [.stop beamTimer]
      | .ok _ => [] := by
  induction fuel generalizing n beam with
  | zero => exact ⟨[], nested_nil, rfl⟩
  | succ fuel ih =>
      unfold rounds
      split
      · exact ⟨[], nested_nil, rfl⟩
      · cases S.round beam with
        | error halt => exact ⟨[.iterationStart n], rfl, rfl⟩
        | ok next =>
            obtain ⟨inner, hinner, hevents⟩ := ih (n + 1) next
            let before : List (Event R) := [.iterationStart n,
              .statistic n "frontier_size" (Scalar.ofNat next.frontier.size), .iterationEnd n]
            have hbefore : Nested before := rfl
            exact ⟨before ++ inner, hbefore.append hinner,
              (congrArg (before ++ ·) hevents).trans (List.append_assoc ..).symm⟩

/-- Either the round that fails stops the timer of a beam search or the search does so after
its last round. -/
theorem timedBy_beamSearch (config : SearchConfig) (program : Program D κ R) (env : Env D R) :
    TimedBy "pnp_beam_search" (S.beamSearch config program env).events := by
  obtain ⟨inner, hinner, hrounds⟩ := S.exists_nested_rounds config.maxIterations S.fuel 0
    (S.startBeam config.beamSize program env)
  have hspan : (S.beamSearch config program env).events =
      .start beamTimer :: inner ++ [.stop beamTimer] := by
    unfold beamSearch
    simp only [bind, Logged.andThen, Logged.emit]
    rw [hrounds]
    cases (S.rounds config.maxIterations S.fuel 0
      (S.startBeam config.beamSize program env)).value with
    | error halt =>
        -- the timer was stopped in the round that failed
        exact congrArg (Event.start beamTimer :: ·) (List.append_nil _)
    | ok result => simp [pure, Logged.quiet]
  rw [hspan]
  exact ⟨hinner.timed beamTimer, inner, hinner, rfl⟩

/-- An exploration starts and stops no timer, by induction on its turns. -/
theorem nested_explore (limit fuel : Nat) (x : Exploration D κ R) :
    Nested (S.explore limit fuel x).events := by
  induction fuel generalizing x with
  | zero => exact nested_nil
  | succ fuel ih =>
      unfold explore
      split
      · exact nested_nil
      · exact ih _
      · split
        · split
          · exact nested_nil
          · refine nested_emit rfl ?_
            dsimp only
            split
            · exact nested_nil
            · exact nested_emit rfl (ih _)
        · exact ih _

theorem nested_summarize (x : Exploration D κ R) (truncated : Bool) (rootMass : R) :
    Nested (summarize x truncated rootMass).events := by
  unfold summarize
  dsimp only
  split
  · exact nested_nil
  · refine nested_emit rfl ?_
    exact nested_emit rfl nested_nil

theorem timedBy_sumProduct (config : SearchConfig) (program : Program D κ R) (env : Env D R) :
    TimedBy "pnp_sum_product" (S.sumProduct config program env).events := by
  refine timedBy_timed ?_ _
  cases S.sumRoot? program env with
  | none => exact nested_nil
  | some root =>
      refine nested_bind (S.nested_explore ..) fun ⟨x, ending⟩ => ?_
      cases ending with
      | complete => exact nested_summarize ..
      | truncated => exact nested_summarize ..
      | cyclic vertex => exact nested_nil
      | halted halt => exact nested_nil

variable [Generator G R]

theorem timedBy_sample (program : Program D κ R) (env : Env D R) (g : G) :
    TimedBy "pnp_sample" (S.sample program env g).events := by
  refine (timedBy_timed nested_nil _).bind_quiet fun ⟨result, g⟩ => ?_
  rcases result with halt | execution?
  · rfl
  · cases execution? <;> rfl

/-- Samples are timed one after the other, by induction on their number. -/
theorem nested_sampleFrom (program : Program D κ R) (env : Env D R) (count i : Nat)
    (samples : Samples D R) (g : G) :
    Nested (S.sampleFrom program env count i samples g).events := by
  induction count generalizing i samples g with
  | zero => exact nested_nil
  | succ count ih =>
      unfold sampleFrom
      refine nested_emit rfl ?_
      refine nested_bind (S.timedBy_sample program env g).nested fun result => ?_
      split
      · exact nested_emit rfl (ih _ _ _)
      · exact nested_emit rfl (ih _ _ _)
      · exact nested_nil

theorem nested_sampleMany (count : Nat) (program : Program D κ R) (env : Env D R) (g : G) :
    Nested (S.sampleMany count program env g).events := by
  refine nested_bind (S.nested_sampleFrom ..) fun result => ?_
  cases result with
  | error halt => exact nested_nil
  | ok samples => exact nested_emit rfl nested_nil

end Setting

/-! ## Training runs -/

omit [Scalar R] in
theorem nested_andThen {first : Recorded R α} {next : α → Recorded R β}
    (h : Nested first.events) (hnext : ∀ a, Nested (next a).events) :
    Nested (first >>= next).events :=
  h.append (hnext first.value)

namespace Trainer

variable {O : Type} [ComputationGraph G R] [Optimizer O G R] (T : Trainer D κ R)

/-- Of the two searches of an example the second one calls no logger. -/
theorem nested_learn (index : Nat) (ex : Example D κ R) (fit : Learner G O) :
    Nested (T.learn index ex fit).events := by
  unfold learn
  refine nested_andThen nested_nil fun fit' => ?_
  refine nested_andThen ?_ fun result => ?_
  · refine nested_bind (Setting.timedBy_beamSearch ..).nested fun found => ?_
    cases found <;> exact nested_nil
  · rcases result with halt | loss?
    · exact nested_nil
    · cases loss? with
      | none => exact nested_nil
      | some loss =>
          refine nested_andThen ?_ fun _ => nested_nil
          rw [events_descendLoss]
          exact nested_nil

theorem nested_learnAll (index : Nat) (examples : List (Example D κ R)) (tally : EpochTally R)
    (fit : Learner G O) : Nested (T.learnAll index examples tally fit).events := by
  induction examples generalizing index tally fit with
  | nil => exact nested_nil
  | cons ex rest ih =>
      unfold learnAll
      refine nested_andThen (T.nested_learn index ex fit) fun ⟨fit', result⟩ => ?_
      rcases result with halt | value?
      · exact nested_nil
      · cases value? <;> exact ih _ _ _

/-- The epochs call the logger within the timer of the run, by induction on their number. -/
theorem nested_runEpochs (examples : List (Example D κ R)) (count epoch : Nat)
    (stats : TrainingStats R) (fit : Learner G O) :
    Nested (T.runEpochs examples count epoch stats fit).events := by
  induction count generalizing epoch stats fit with
  | zero => exact nested_nil
  | succ count ih =>
      have hcall : ∀ event : Event R, Nested [event] → Nested (Recorded.emit event).events :=
        fun _ h => h
      unfold runEpochs
      refine nested_andThen (hcall _ rfl) fun _ => ?_
      refine nested_andThen (T.nested_learnAll ..) fun ⟨fit', result⟩ => ?_
      cases result with
      | error halt => exact nested_nil
      | ok tally =>
          refine nested_andThen nested_nil fun fit'' => ?_
          refine nested_andThen (hcall _ rfl) fun _ => ?_
          refine nested_andThen (hcall _ rfl) fun _ => ?_
          exact nested_andThen (hcall _ rfl) fun _ => ih _ _ _

theorem timedBy_train (examples : List (Example D κ R)) (fit : Learner G O) :
    TimedBy "pnp_train" (T.train examples fit).events := by
  let epochs := (T.runEpochs examples T.config.epochs 0 {} fit).toLogged
  have htimed : TimedBy "pnp_train" (epochs.timed "pnp_train").events :=
    timedBy_timed (T.nested_runEpochs ..) _
  exact htimed

end Trainer

/-- **Timers are properly nested**, whatever a search or a training run ends in. Each but
repeated sampling, which times its samples one by one, runs within a timer of its own. -/
theorem nested_of_runs {O G' : Type} [Generator G R] [ComputationGraph G' R] [Optimizer O G' R]
    (S : Setting D κ R) (T : Trainer D κ R) (config : SearchConfig) (count : Nat)
    (program : Program D κ R) (env : Env D R) (g : G) (examples : List (Example D κ R))
    (fit : Learner G' O) :
    TimedBy "pnp_beam_search" (S.beamSearch config program env).events ∧
      TimedBy "pnp_sum_product" (S.sumProduct config program env).events ∧
      TimedBy "pnp_sample" (S.sample program env g).events ∧
      Nested (S.sampleMany count program env g).events ∧
      TimedBy "pnp_train" (T.train examples fit).events :=
  ⟨S.timedBy_beamSearch config program env, S.timedBy_sumProduct config program env,
    S.timedBy_sample program env g, S.nested_sampleMany count program env g,
    T.timedBy_train examples fit⟩

end ChoiceSearch
