import ChoiceSearch.Proofs.Search.Exhaustion
import ChoiceSearch.Proofs.Search.Filtering
import ChoiceSearch.Proofs.Search.Lockstep

/-!
# When beam search ends

A limit on the rounds ends every beam search whose steps return, on infinite choice trees as well
(`Setting.exists_beamYields`). It starts no more rounds than the limit allows, and a round advances
no more states than the beam has room for (`Setting.Capped`).

Without a limit the search ends if the choice tree does. A search that drops no state comes to the
end of the tree in as many rounds as the tree has levels, and a narrower beam holds at each level
some of the states that are there (`Setting.exists_beamSearch_of_wide`).
-/

namespace ChoiceSearch

variable {D κ R : Type}

/-- The number of rounds that begin in a log. -/
def roundsIn (events : List (Event R)) : Nat :=
  events.countP fun
    | .iterationStart _ => true
    | _ => false

theorem roundsIn_append (events more : List (Event R)) :
    roundsIn (events ++ more) = roundsIn events + roundsIn more := List.countP_append

variable [Scalar R]

namespace Setting

variable {S : Setting D κ R} {program : Program D κ R} {env : Env D R} {k limit : Nat}

/-! ## The number of rounds -/

/-- The rounds that a search performs are those that its log shows, and their number stays within
the limit. -/
theorem rounds_within (hlimit : 0 < limit) (fuel i : Nat) (hi : i ≤ limit) (beam : Beam D κ R) :
    i + roundsIn (S.rounds limit fuel i beam).events ≤ limit ∧
      ∀ beam' j, (S.rounds limit fuel i beam).value = .ok (beam', j) →
        j = i + roundsIn (S.rounds limit fuel i beam).events := by
  induction fuel generalizing i beam with
  | zero => exact ⟨hi, fun _ _ h => by cases h⟩
  | succ fuel ih =>
      rw [rounds_succ]
      by_cases hstop : (beam.frontier.isEmpty || limitReached limit i) = true
      · rw [if_pos hstop]
        refine ⟨hi, fun _ _ h => ?_⟩
        cases h
        rfl
      · rw [if_neg hstop]
        have hlt : i < limit := by
          by_contra hge
          refine hstop (Bool.or_eq_true_iff.mpr (.inr ?_))
          simp [limitReached, Nat.ne_of_gt hlimit, Nat.le_of_not_lt hge]
        cases S.round beam with
        | error halt => exact ⟨hlt, fun _ _ h => by cases h⟩
        | ok next =>
            obtain ⟨hcount, hvalue⟩ := ih (i + 1) hlt next
            unfold roundsAfter
            dsimp only
            rw [roundsIn_append, show roundsIn [Event.iterationStart i, _, _] = 1 from rfl]
            refine ⟨by omega, fun beam' j h => ?_⟩
            rw [hvalue beam' j h]
            omega

/-- A search without an error ends with the containers after as many rounds as it reports. -/
theorem beamAfter_of_rounds {fuel i j : Nat} {beam beam' : Beam D κ R}
    (hbeam : S.beamAfter k program env i = .ok beam)
    (h : (S.rounds limit fuel i beam).value = .ok (beam', j)) :
    S.beamAfter k program env j = .ok beam' := by
  induction fuel generalizing i beam with
  | zero => cases h
  | succ fuel ih =>
      rw [rounds_succ] at h
      split at h
      · cases h
        exact hbeam
      · cases hround : S.round beam with
        | error halt => rw [hround] at h; cases h
        | ok next =>
            rw [hround] at h
            have hnext : S.beamAfter k program env (i + 1) = .ok next := by
              unfold beamAfter
              rw [hbeam]
              exact hround
            exact ih hnext h

/-! ## What a search makes of its rounds -/

omit [Scalar R] in
/-- A search whose rounds have ended has ended. -/
theorem value_marginalsOf_ne {x : Logged R (Result R (Beam D κ R × Nat))}
    (hx : x.value ≠ .error .outOfFuel) : (marginalsOf x).value ≠ .error .outOfFuel := by
  obtain ⟨events, halt | ⟨beam, i⟩⟩ := x
  · intro heq
    cases heq
    exact hx rfl
  · have hvalue : (marginalsOf ⟨events, .ok (beam, i)⟩).value =
        Result.ofExcept beam.executions >>= fun executions =>
          .ok { executions, iterations := i } := rfl
    rw [hvalue]
    intro heq
    cases hexec : beam.executions with
    | error e => rw [hexec] at heq; cases heq
    | ok executions => rw [hexec] at heq; cases heq

omit [Scalar R] in
/-- A search that succeeds returns what the containers hold after its rounds. -/
theorem exists_of_marginalsOf_eq_ok {x : Logged R (Result R (Beam D κ R × Nat))}
    {m : Marginals (Value D R) D R} (h : (marginalsOf x).value = .ok m) :
    ∃ beam, x.value = .ok (beam, m.iterations) ∧ beam.executions = .ok m.executions := by
  obtain ⟨events, halt | ⟨beam, i⟩⟩ := x
  · cases h
  · have hvalue : (Result.ofExcept beam.executions >>= fun executions =>
        .ok { executions, iterations := i } : Result R _) = .ok m := h
    cases hexec : beam.executions with
    | error e => rw [hexec] at hvalue; cases hvalue
    | ok executions =>
        rw [hexec] at hvalue
        cases hvalue
        exact ⟨beam, rfl, hexec⟩

omit [Scalar R] in
/-- Beside its rounds a search logs the two calls of its timer. -/
theorem roundsIn_marginalsOf (x : Logged R (Result R (Beam D κ R × Nat))) :
    roundsIn (marginalsOf x).events = roundsIn x.events := by
  obtain ⟨events, halt | ⟨beam, i⟩⟩ := x
  · show roundsIn (.start beamTimer :: (events ++ [])) = roundsIn events
    simp [roundsIn]
  · show roundsIn (.start beamTimer :: (events ++ [.stop beamTimer])) = roundsIn events
    simp [roundsIn]

/-! ## Enough fuel -/

/-- The step of a state returns, given enough fuel. -/
def Returns (S : Setting D κ R) (s : State D κ R) : Prop :=
  ∃ fuel, (S.withFuel fuel).step s ≠ .error .outOfFuel

/-- A run that is not cut off if it has enough fuel, and then ends in the same way with more. -/
def Settles {α : Type} (run : Nat → Nat → Result R α) : Prop :=
  ∃ x, x ≠ .error .outOfFuel ∧ EndsAs run x

theorem Returns.settles {s : State D κ R} (h : S.Returns s) :
    Settles fun fuel _ => (S.withFuel fuel).step s :=
  let ⟨fuel, hend⟩ := h
  ⟨_, hend, fuel, fun _ hle _ _ => step_mono hle s hend⟩

omit [Scalar R] in
theorem Settles.bind {α β : Type} {run : Nat → Nat → Result R α}
    {next : Nat → Nat → α → Result R β} (h : Settles run)
    (hnext : ∀ a, EndsAs run (.ok a) → Settles fun fuel n => next fuel n a) :
    Settles fun fuel n => run fuel n >>= next fuel n := by
  obtain ⟨x, hx, hends⟩ := h
  cases x with
  | error halt =>
      refine ⟨.error halt, fun heq => hx (by cases heq; rfl), ?_⟩
      exact hends.andThen (f := fun fuel n y => y >>= next fuel n) (.of_forall fun _ _ => rfl)
  | ok a =>
      obtain ⟨y, hy, hends'⟩ := hnext a hends
      exact ⟨y, hy, hends.andThen (f := fun fuel n x => x >>= next fuel n) hends'⟩

/-- States are advanced one after the other. -/
theorem settles_advanceAll {states : List (State D κ R)} (h : ∀ s ∈ states, S.Returns s)
    (beam : Beam D κ R) : Settles fun fuel _ => (S.withFuel fuel).advanceAll beam states := by
  induction states generalizing beam with
  | nil => exact ⟨.ok beam, by simp, .of_forall fun _ _ => rfl⟩
  | cons s states ih =>
      have hrest : ∀ t ∈ states, S.Returns t := fun t ht => h t (List.mem_cons_of_mem _ ht)
      exact (h s List.mem_cons_self).settles.bind fun o _ => ih hrest (S.takeStep beam o)

theorem settles_round {beam : Beam D κ R}
    (h : ∀ s ∈ beam.frontier.toList.map (·.2), S.Returns s) :
    Settles fun fuel _ => (S.withFuel fuel).round beam :=
  settles_advanceAll h { beam with frontier := .empty beam.frontier.capacity }

/-! ## The states of a round -/

/-- A level has no more states than the beam has room for. -/
theorem length_frontier_le {i : Nat} {level : Level D κ R}
    (h : S.levelAfter k program env i = .ok level) : level.frontier.length ≤ k := by
  have hfirst : ∀ states : List (State D κ R), (firstBest k states).length ≤ k := fun states =>
    List.length_take_le _ _
  cases i with
  | zero =>
      cases h
      exact hfirst _
  | succ i =>
      obtain ⟨before, -, hnext⟩ := exists_of_bind_eq_ok h
      obtain ⟨steps, -, rfl⟩ := nextLevel_eq_ok_iff.mp hnext
      exact hfirst _

variable [LawfulScalar R]

/-- The level after a number of rounds holds the routes of as many decisions. -/
theorem surveyed_after {i : Nat} {level : Level D κ R}
    (h : S.levelAfter k program env i = .ok level) : S.Surveyed k 0 program env i level := by
  induction i generalizing level with
  | zero =>
      cases h
      exact surveyed_start k 0 program env
  | succ i ih =>
      obtain ⟨before, hbefore, hnext⟩ := exists_of_bind_eq_ok h
      exact surveyed_next (ih hbefore) rfl hnext

/-- Before each round the beam holds a level. -/
theorem exists_level_of_beamAfter {i : Nat} {beam : Beam D κ R}
    (h : S.beamAfter k program env i = .ok beam) : ∃ level,
      S.levelAfter k program env i = .ok level ∧
        beam.frontier.toList.map (·.2) = level.frontier := by
  rcases refines_after (S := S) k program env i with ⟨halt, hbeam, -⟩ | ⟨beam', level, hbeam,
    hlevel, hrefines⟩
  · cases h.symm.trans hbeam
  · cases h.symm.trans hbeam
    exact ⟨level, hlevel, hrefines.states_eq.1⟩

/-- A round advances no more states than the beam has room for. -/
theorem length_drain_le {i : Nat} {beam : Beam D κ R}
    (h : S.beamAfter k program env i = .ok beam) : beam.frontier.drain.1.length ≤ k := by
  obtain ⟨level, hlevel, hstates⟩ := exists_level_of_beamAfter h
  calc beam.frontier.drain.1.length = (beam.frontier.toList.map (·.2)).length :=
        (List.length_map _).symm
    _ = level.frontier.length := by rw [hstates]
    _ ≤ k := length_frontier_le hlevel

/-- Whatever the beam holds is the end of a route. -/
theorem exists_reaches_of_beamAfter {i : Nat} {beam : Beam D κ R}
    (h : S.beamAfter k program env i = .ok beam) :
    ∀ s ∈ beam.frontier.toList.map (·.2), ∃ route, S.Reaches program env route s := by
  obtain ⟨level, hlevel, hstates⟩ := exists_level_of_beamAfter h
  intro s hs
  rw [hstates] at hs
  obtain ⟨route, hreach, -⟩ := (surveyed_after hlevel).frontier.exists_label s hs
  exact ⟨route, hreach⟩

/-! ## Searches with a limit -/

omit [LawfulScalar R] in
theorem endsAs_rounds_of_stop {i : Nat} {beam : Beam D κ R}
    (hstop : (beam.frontier.isEmpty || limitReached limit i) = true) :
    EndsAs (fun fuel n => (S.withFuel fuel).rounds limit n i beam) (.quiet (.ok (beam, i))) := by
  have hturn : ∀ fuel n,
      (S.withFuel fuel).rounds limit (n + 1) i beam = .quiet (.ok (beam, i)) := by
    intro fuel n
    rw [rounds_succ, if_pos hstop]
  exact .turn hturn (.of_forall fun _ _ => rfl)

omit [LawfulScalar R] in
theorem endsAs_rounds_of_round {i : Nat} {beam : Beam D κ R}
    (hstop : ¬ (beam.frontier.isEmpty || limitReached limit i) = true)
    {x : Result R (Beam D κ R)} (hround : EndsAs (fun fuel _ => (S.withFuel fuel).round beam) x)
    {outcome : Logged R (Result R (Beam D κ R × Nat))}
    (hrest : EndsAs (fun fuel n => (S.withFuel fuel).roundsAfter limit n i x) outcome) :
    EndsAs (fun fuel n => (S.withFuel fuel).rounds limit n i beam) outcome :=
  .turn (fun fuel n => by rw [rounds_succ, if_neg hstop])
    (hround.andThen (f := fun fuel n x => (S.withFuel fuel).roundsAfter limit n i x) hrest)

/-- The rounds that a limit allows come to an end, by induction on their number. -/
theorem exists_rounds (hsteps : ∀ route s, S.Reaches program env route s → S.Returns s)
    (hlimit : 0 < limit) (left : Nat) {i : Nat} (hleft : limit ≤ i + left) {beam : Beam D κ R}
    (hbeam : EndsAs (fun fuel (_ : Nat) => (S.withFuel fuel).beamAfter k program env i)
      (.ok beam)) :
    ∃ outcome, outcome.value ≠ .error .outOfFuel ∧
      EndsAs (fun fuel n => (S.withFuel fuel).rounds limit n i beam) outcome := by
  induction left generalizing i beam with
  | zero =>
      have hstop : (beam.frontier.isEmpty || limitReached limit i) = true := by
        simp [limitReached, Nat.ne_of_gt hlimit, show limit ≤ i from hleft]
      exact ⟨_, by simp [Logged.quiet], endsAs_rounds_of_stop hstop⟩
  | succ left ih =>
      by_cases hstop : (beam.frontier.isEmpty || limitReached limit i) = true
      · exact ⟨_, by simp [Logged.quiet], endsAs_rounds_of_stop hstop⟩
      obtain ⟨fuel₀, hfuel₀⟩ := id hbeam
      have hreturns : ∀ s ∈ beam.frontier.toList.map (·.2), S.Returns s := by
        intro s hs
        obtain ⟨route, hreach⟩ :=
          exists_reaches_of_beamAfter (hfuel₀ fuel₀ le_rfl fuel₀ le_rfl) s hs
        exact hsteps route s (reaches_withFuel.mp hreach)
      obtain ⟨x, hx, hround⟩ := settles_round hreturns
      cases x with
      | error halt =>
          refine ⟨⟨[.iterationStart i, .stop beamTimer], .error halt⟩, fun heq => hx ?_,
            endsAs_rounds_of_round hstop hround (.of_forall fun _ _ => rfl)⟩
          cases heq
          rfl
      | ok next =>
          have hnext : EndsAs (fun fuel (_ : Nat) =>
              (S.withFuel fuel).beamAfter k program env (i + 1)) (.ok next) :=
            hbeam.andThen (f := fun fuel _ x => x >>= (S.withFuel fuel).round) hround
          obtain ⟨outcome, hend, hrest⟩ := ih (by omega) hnext
          let before : List (Event R) := [.iterationStart i,
            .statistic i "frontier_size" (Scalar.ofNat next.frontier.size), .iterationEnd i]
          refine ⟨⟨before ++ outcome.events, outcome.value⟩, hend,
            endsAs_rounds_of_round hstop hround ?_⟩
          exact hrest.andThen (f := fun _ _ rest =>
            (⟨before ++ rest.events, rest.value⟩ : Logged R (Result R (Beam D κ R × Nat))))
            (.of_forall fun _ _ => rfl)

/-- **A search with a limit ends**, if every step returns. -/
theorem exists_beamYields (hsteps : ∀ route s, S.Reaches program env route s → S.Returns s)
    {config : SearchConfig} (hlimit : 0 < config.maxIterations) :
    ∃ outcome, S.BeamYields config program env outcome := by
  have hstart : EndsAs (fun fuel (_ : Nat) =>
      (S.withFuel fuel).beamAfter config.beamSize program env 0)
      (.ok (S.startBeam config.beamSize program env)) := .of_forall fun _ _ => rfl
  obtain ⟨outcome, hend, fuel₀, hrun⟩ :=
    exists_rounds hsteps hlimit config.maxIterations (by omega) hstart
  refine ⟨marginalsOf outcome, value_marginalsOf_ne hend, fuel₀, fun fuel hfuel => ?_⟩
  rw [beamSearch_eq_marginalsOf]
  exact congrArg marginalsOf (hrun fuel hfuel fuel hfuel)

/-- What a limit on the rounds makes of a beam search. -/
structure Capped (S : Setting D κ R) (k limit : Nat) (program : Program D κ R) (env : Env D R) :
    Prop where
  /-- Whatever becomes of the search, no more rounds begin than the limit allows. -/
  rounds : roundsIn (S.beamSearch { beamSize := k, maxIterations := limit } program env).events ≤
    limit
  /-- A search that succeeds reports the rounds that it performed, and it returns what the
  containers hold after them. -/
  iterations : ∀ m,
    (S.beamSearch { beamSize := k, maxIterations := limit } program env).value = .ok m →
      m.iterations =
        roundsIn (S.beamSearch { beamSize := k, maxIterations := limit } program env).events ∧
      ∃ beam, S.beamAfter k program env m.iterations = .ok beam ∧
        beam.executions = .ok m.executions
  /-- In each round no more states are taken out, and advanced, than the beam has room for. -/
  states : ∀ i beam, S.beamAfter k program env i = .ok beam →
    beam.frontier.drain.1.length ≤ k
  /-- The search ends if every step of a state on the way returns. -/
  ends : (∀ route s, S.Reaches program env route s → S.Returns s) →
    ∃ outcome, S.BeamYields { beamSize := k, maxIterations := limit } program env outcome

theorem capped (S : Setting D κ R) (k : Nat) (hlimit : 0 < limit) (program : Program D κ R)
    (env : Env D R) : S.Capped k limit program env := by
  have hevents : roundsIn (S.beamSearch { beamSize := k, maxIterations := limit } program
      env).events = roundsIn (S.rounds limit S.fuel 0 (S.startBeam k program env)).events :=
    roundsIn_marginalsOf _
  obtain ⟨hcount, hreport⟩ :=
    rounds_within (S := S) hlimit S.fuel 0 (Nat.zero_le _) (S.startBeam k program env)
  rw [Nat.zero_add, ← hevents] at hcount hreport
  refine ⟨hcount, fun m hm => ?_, fun _ _ => length_drain_le,
    fun hsteps => exists_beamYields hsteps hlimit⟩
  obtain ⟨beam, hrun, hexec⟩ := exists_of_marginalsOf_eq_ok hm
  exact ⟨hreport beam _ hrun, beam, beamAfter_of_rounds (i := 0) rfl hrun, hexec⟩

/-! ## Searches without a limit -/

omit [LawfulScalar R] in
/-- A search comes to the end of a tree in no more rounds than the tree has levels. -/
theorem le_of_levels {n fuel i j : Nat} {level level' : Level D κ R}
    (h : ∀ s ∈ level.frontier, S.EndsWithin n s)
    (hrun : (S.levels k limit fuel i level).value = .ok (level', j)) : j ≤ i + n := by
  induction fuel generalizing n i level with
  | zero => cases hrun
  | succ fuel ih =>
      by_cases hstop : level.frontier = [] ∨ limitReached limit i = true
      · cases (levels_of_stop hstop).symm.trans hrun
        exact Nat.le_add_right _ _
      · obtain ⟨hne, hlimit⟩ := not_or.mp hstop
        rw [Bool.not_eq_true] at hlimit
        rw [levels_of_go hne hlimit] at hrun
        obtain ⟨next, hnext, hrest⟩ := exists_of_bind_eq_ok hrun
        cases n with
        | zero => exact absurd (List.eq_nil_iff_forall_not_mem.mpr h) hne
        | succ n =>
            have hle := ih (endsWithin_of_nextLevel h hnext) hrest
            omega

/-- A search that drops no state has seen every path to its end, and performs a round for each
level of the tree. -/
theorem endsWithin_of_rounds {width fuel i j : Nat} {level level' : Level D κ R}
    (hwide : S.Wide width 0 program env) (h : S.Surveyed width 0 program env i level)
    (hrun : (S.levels width 0 fuel i level).value = .ok (level', j)) :
    i ≤ j ∧ j < i + fuel ∧ ∀ s ∈ level.frontier, S.EndsWithin (j - i) s := by
  induction fuel generalizing i level with
  | zero => cases hrun
  | succ fuel ih =>
      by_cases hempty : level.frontier = []
      · cases (levels_of_stop (.inl hempty)).symm.trans hrun
        refine ⟨le_rfl, by omega, fun s hs => ?_⟩
        rw [hempty] at hs
        cases hs
      · rw [levels_of_go hempty rfl] at hrun
        obtain ⟨next, hnext, hrest⟩ := exists_of_bind_eq_ok hrun
        obtain ⟨hle, hlt, hends⟩ := ih (surveyed_next h rfl hnext) hrest
        refine ⟨by omega, by omega, fun s hs => ?_⟩
        obtain ⟨o, hstep, hoffers⟩ := exists_step_of_wide hwide h hnext hs
        rw [show j - i = j - (i + 1) + 1 by omega]
        exact endsWithin_succ_iff.mpr ⟨o, hstep, fun t ht => hends t (hoffers t ht)⟩

/-- **A narrower beam ends where a wide one does**, after no more rounds. -/
theorem exists_beamSearch_of_wide {width : Nat} (hwide : S.Wide width 0 program env)
    {m : Marginals (Value D R) D R}
    (hm : (S.beamSearch (.exhaustive width) program env).value = .ok m) (k : Nat) :
    ∃ m', (S.beamSearch { beamSize := k, maxIterations := 0 } program env).value = .ok m' ∧
      m'.iterations ≤ m.iterations := by
  obtain ⟨level, hrun, -⟩ := beamSearch_eq_ok_iff.mp hm
  have hsurvey := surveyed_start (S := S) width 0 program env
  obtain ⟨-, hfuel, hends⟩ := endsWithin_of_rounds hwide hsurvey hrun
  have hstart : ∀ s ∈ (S.startLevel k program env).frontier, S.EndsWithin m.iterations s := by
    intro s hs
    obtain ⟨s₀, hs₀, hscore⟩ := List.mem_filterMap.mp (mem_of_mem_firstBest hs)
    rw [List.mem_singleton.mp hs₀] at hscore
    have hreach : S.Reaches program env [] s := ⟨s, hscore, .nil⟩
    exact hends s (hsurvey.frontier.mem (functional_reaches 0) ⟨hwide, rfl, rfl, s, hreach⟩
      ⟨hreach, rfl⟩)
  obtain ⟨⟨level', j⟩, hlevels⟩ : ∃ r,
      (S.levels k 0 S.fuel 0 (S.startLevel k program env)).value = .ok r :=
    exists_levels_eq_ok S.fuel 0 (by omega) hstart
  obtain ⟨executions, hexec⟩ := exists_executions hlevels
  refine ⟨{ executions, iterations := j }, beamSearch_eq_ok_iff.mpr ⟨level', hlevels, hexec⟩, ?_⟩
  have hle := le_of_levels hstart hlevels
  rwa [Nat.zero_add] at hle

/-- **When beam search ends.** With a limit on its rounds, any beam search stays within the limit,
and within its beam in every round; it ends if its steps return, on infinite choice trees as well.
Without a limit, a search ends with any beam if the search that drops no state does, and after no
more rounds. -/
theorem beamSearch_bounded (S : Setting D κ R) (program : Program D κ R) (env : Env D R) :
    (∀ k limit, 0 < limit → S.Capped k limit program env) ∧
    ∀ width m, S.Wide width 0 program env →
      (S.beamSearch (.exhaustive width) program env).value = .ok m →
      ∀ k, ∃ m', (S.beamSearch { beamSize := k, maxIterations := 0 } program env).value = .ok m' ∧
        m'.iterations ≤ m.iterations :=
  ⟨fun k _ hlimit => S.capped k hlimit program env,
    fun _ _ hwide hm k => exists_beamSearch_of_wide hwide hm k⟩

end Setting

/-! ### A coin that is tossed again and again -/

/-- A toss, after which there is another one. -/
def tossAgain : Program Bool Unit Float := .bind toss [{ name := none, code := () }]

/-- The continuation of every toss is the next one, so no path ends. -/
def endless : Setting Bool Unit Float where
  codes := { resume := fun _ _ => .ok tossAgain, consult := fun _ _ => .error .outOfFuel }
  graph := Graph.view {}
  score := .zero
  fuel := 8

/-- The states of the endless program: its start, and the results of its tosses. -/
def Tossing (s : State Bool Unit Float) : Prop :=
  (s.program = tossAgain ∧ s.stack = []) ∨ ∃ v frame, s.program = .value v ∧ s.stack = [frame]

/-- Each of the states is followed by the two results of the next toss. -/
theorem step_of_tossing {s : State Bool Unit Float} (hs : Tossing s) :
    ∃ o, endless.step s = .ok o ∧ ∀ t ∈ endless.pendingOf o, Tossing t := by
  obtain ⟨frame, path, hstep⟩ : ∃ frame path, endless.step s =
      .ok (.pending (State.ofChoice none [⟨false, -1.0, s.path.env⟩, ⟨true, 0.0, s.path.env⟩] none
        [frame] path)) := by
    obtain ⟨program, stack, path, tag, choice, site⟩ := s
    obtain ⟨rfl, rfl⟩ | ⟨v, frame, rfl, rfl⟩ := hs
    · exact ⟨_, _, rfl⟩
    · exact ⟨_, _, rfl⟩
  refine ⟨_, hstep, fun t ht => .inr ?_⟩
  obtain ⟨t₀, ht₀, hscore⟩ := List.mem_filterMap.mp ht
  rw [State.eq_of_scored hscore]
  rcases List.mem_pair.mp ht₀ with rfl | rfl
  · exact ⟨_, _, rfl, rfl⟩
  · exact ⟨_, _, rfl, rfl⟩

/-- The tosses never end, but the step of each state returns. -/
theorem returns_endless {route : List Decision} {s : State Bool Unit Float}
    (h : endless.Reaches tossAgain .init route s) : endless.Returns s := by
  have hs : Tossing s := by
    refine h.invariant (fun root hroot => ?_) fun _ => step_of_tossing
    rw [State.eq_of_scored hroot]
    exact .inl ⟨rfl, rfl⟩
  obtain ⟨o, hstep, -⟩ := step_of_tossing hs
  exact ⟨endless.fuel, by rw [show endless.withFuel endless.fuel = endless from rfl, hstep]; simp⟩

/-- The search for endless tosses stays within a limit of three rounds, and the search for a
single toss ends with a beam of any size. -/
theorem bounded_tossAgain :
    (endless.Capped 1 3 tossAgain .init ∧
      (∃ outcome, endless.BeamYields { beamSize := 1, maxIterations := 3 } tossAgain .init
        outcome) ∧
      (endless.beamSearch { beamSize := 1, maxIterations := 3 } tossAgain .init).value.toOption.map
        (·.iterations) = some 3) ∧
    ∃ m, (tosses.beamSearch (.exhaustive 3) toss .init).value = .ok m ∧ ∀ k, ∃ m',
      (tosses.beamSearch { beamSize := k, maxIterations := 0 } toss .init).value = .ok m' ∧
      m'.iterations ≤ m.iterations := by
  have hcapped := (Setting.beamSearch_bounded endless tossAgain .init).1 1 3 (by decide)
  refine ⟨⟨hcapped, hcapped.ends fun _ _ h => returns_endless h, by decide +kernel⟩, ?_⟩
  obtain ⟨m, hm⟩ : ∃ m, (tosses.beamSearch (.exhaustive 3) toss .init).value = .ok m := ⟨_, rfl⟩
  exact ⟨m, hm, (Setting.beamSearch_bounded tosses toss .init).2 3 m exhausts_tosses.levels hm⟩

end ChoiceSearch
