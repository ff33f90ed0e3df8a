import ChoiceSearch.Proofs.Frontier.KBest
import ChoiceSearch.Proofs.Scalar.Double
import ChoiceSearch.Proofs.Search.Resolve
import ChoiceSearch.Search.Beam

/-!
# Beam search, level by level

The plain account of beam search: the next level consists of the first `k` of all
offers of the present one, and the executions are the first `k` of all that finished
(`Setting.levelSearch`). Nothing is evicted and no item is offered to a container.

Beam search does the same (`Setting.beamSearch_eq_levelSearch`). A round offers the
states one by one to the containers (`Setting.advanceAll_eq`), which by then are the
first `k` of the stable sort of all offers so far (`KBest.toList_pushAll`). That needs
the scores to be comparable in both orders; the invariant is that no log-weight on the
way is negative zero.
-/

namespace ChoiceSearch

variable {D κ R : Type} [Scalar R]

/-- The first `k` states by log-weight, the largest first; among equal log-weights the
earlier state comes first. -/
def firstBest (k : Nat) (states : List (State D κ R)) : List (State D κ R) :=
  (states.mergeSort fun s t => !Scalar.below s.logProb t.logProb).take k

/-- What a beam search has after some rounds. -/
structure Level (D κ R : Type) where
  /-- The states of the level, best first. -/
  frontier : List (State D κ R)
  /-- Everything that has finished so far, in the order of the offers. -/
  finished : List (State D κ R)

namespace Setting

/-- Every state of the level is advanced once, the best one first. -/
def nextLevel (S : Setting D κ R) (k : Nat) (level : Level D κ R) :
    Result R (Level D κ R) := do
  let steps ← level.frontier.mapM S.step
  return {
    frontier := firstBest k (steps.flatMap S.pendingOf)
    finished := level.finished ++ steps.flatMap S.finishedOf }

/-- The first level, which holds the initial state if the score admits it. -/
def startLevel (S : Setting D κ R) (k : Nat) (program : Program D κ R) (env : Env D R) :
    Level D κ R :=
  { frontier := firstBest k (S.admitted [.initial program env]), finished := [] }

/-- The level after a number of rounds. -/
def levelAfter (S : Setting D κ R) (k : Nat) (program : Program D κ R) (env : Env D R) :
    Nat → Result R (Level D κ R)
  | 0 => .ok (S.startLevel k program env)
  | n + 1 => S.levelAfter k program env n >>= S.nextLevel k

/-- The containers of a beam search after a number of rounds. -/
def beamAfter (S : Setting D κ R) (k : Nat) (program : Program D κ R) (env : Env D R) :
    Nat → Result R (Beam D κ R)
  | 0 => .ok (S.startBeam k program env)
  | n + 1 => S.beamAfter k program env n >>= S.round

/-- Level after level until no state is left or the limit is reached. -/
def levels (S : Setting D κ R) (k limit : Nat) :
    Nat → Nat → Level D κ R → Logged R (Result R (Level D κ R × Nat))
  | 0, _, _ => .quiet (.error .outOfFuel)
  | fuel + 1, n, level =>
    if level.frontier.isEmpty || limitReached limit n then .quiet (.ok (level, n))
    else do
      .emit (.iterationStart n)
      match S.nextLevel k level with
      | .error halt => return .error halt
      | .ok level => do
        .emit (.statistic n "frontier_size" (Scalar.ofNat level.frontier.length))
        .emit (.iterationEnd n)
        S.levels k limit fuel (n + 1) level

/-- Searches a program level by level for its most probable executions. -/
def levelSearch (S : Setting D κ R) (config : SearchConfig) (program : Program D κ R)
    (env : Env D R) : Logged R (Result R (Marginals (Value D R) D R)) := do
  let k := config.beamSize
  let start := S.startLevel k program env
  match ← (S.levels k config.maxIterations S.fuel 0 start).timed "pnp_beam_search" with
  | .error halt => return .error halt
  | .ok (level, iterations) => return do
    let executions ← Result.ofExcept ((firstBest k level.finished).mapM State.execution)
    return { executions, iterations }

section Levels

variable {S : Setting D κ R} {k limit n fuel : Nat} {level next : Level D κ R}

/-- The next level is made of the steps of the present one. -/
theorem nextLevel_eq_ok_iff : S.nextLevel k level = .ok next ↔
    ∃ steps, level.frontier.mapM S.step = .ok steps ∧ next = {
      frontier := firstBest k (steps.flatMap S.pendingOf)
      finished := level.finished ++ steps.flatMap S.finishedOf } := by
  unfold nextLevel
  cases hsteps : level.frontier.mapM S.step with
  | error halt =>
      constructor
      · intro h
        cases h
      · rintro ⟨_, hok, -⟩
        cases hok
  | ok steps =>
      constructor
      · intro h
        cases h
        exact ⟨steps, rfl, rfl⟩
      · rintro ⟨_, hok, rfl⟩
        cases hok
        rfl

/-- The search ends at a level without states, and at the limit. -/
theorem levels_of_stop (h : level.frontier = [] ∨ limitReached limit n = true) :
    (S.levels k limit (fuel + 1) n level).value = .ok (level, n) := by
  have hstop : (level.frontier.isEmpty || limitReached limit n) = true := by
    simpa [List.isEmpty_iff] using h
  rw [levels, if_pos hstop]
  rfl

/-- At any other level it goes on with the next one. -/
theorem levels_of_go (hne : level.frontier ≠ []) (hlimit : limitReached limit n = false) :
    (S.levels k limit (fuel + 1) n level).value =
      S.nextLevel k level >>= fun next => (S.levels k limit fuel (n + 1) next).value := by
  have hgo : ¬ (level.frontier.isEmpty || limitReached limit n) = true := by
    simpa [List.isEmpty_iff, hlimit] using hne
  rw [levels, if_neg hgo]
  cases S.nextLevel k level with
  | error halt => rfl
  | ok next => rfl

end Levels

end Setting

/-- A state as an item of a container. -/
def State.entry (s : State D κ R) : R × State D κ R := (s.logProb, s)

/-- A log-weight that both orders can compare. -/
def State.Plain (s : State D κ R) : Prop :=
  Scalar.admissible s.logProb = true ∧ Scalar.isNegZero s.logProb = false

/-- Sorting states is sorting the items they make. -/
theorem map_entry_firstBest (k : Nat) (states : List (State D κ R)) :
    (firstBest k states).map State.entry =
      (Unbounded.bestFirst (states.map State.entry)).take k := by
  unfold firstBest Unbounded.bestFirst
  rw [List.map_take]
  congr 1
  exact List.map_mergeSort fun _ _ _ _ => rfl

/-- The first states are among the states. -/
theorem mem_of_mem_firstBest {k : Nat} {states : List (State D κ R)} {s : State D κ R}
    (h : s ∈ firstBest k states) : s ∈ states :=
  List.mem_mergeSort.mp (List.mem_of_mem_take h)

namespace Setting

/-- Nothing is dropped from a list that has room. -/
theorem firstBest_perm {k : Nat} {states : List (State D κ R)} (h : states.length ≤ k) :
    (firstBest k states).Perm states := by
  unfold firstBest
  rw [List.take_of_length_le (by rwa [List.length_mergeSort])]
  exact List.mergeSort_perm _ _

variable {S : Setting D κ R}

/-- The first level of an admitted program. -/
theorem startLevel_eq {k : Nat} (hk : 1 ≤ k) {program : Program D κ R} {env : Env D R}
    {root : State D κ R} (hroot : (State.initial program env).scored S.score = some root) :
    S.startLevel k program env = { frontier := [root], finished := [] } := by
  have hadmitted : S.admitted [.initial program env] = [root] := by
    unfold admitted
    rw [List.filterMap_cons_some hroot]
    rfl
  have hfirst : (firstBest k [root]).Perm [root] := firstBest_perm hk
  unfold startLevel
  rw [hadmitted, List.perm_singleton.mp hfirst]

/-- Offering states one by one is offering the admitted ones. -/
theorem foldl_offerBest (states : List (State D κ R)) (queue : KBest R (State D κ R)) :
    states.foldl S.offerBest queue = queue.pushAll ((S.admitted states).map State.entry) := by
  induction states generalizing queue with
  | nil => rfl
  | cons s states ih =>
      rw [List.foldl_cons, ih]
      unfold offerBest admitted
      cases hs : s.scored S.score with
      | none => rw [List.filterMap_cons_none hs]
      | some t => rw [List.filterMap_cons_some hs]; rfl

/-- What a step adds to the containers. -/
theorem takeStep_eq (beam : Beam D κ R) (o : Step D κ R) :
    S.takeStep beam o =
      { frontier := beam.frontier.pushAll ((S.pendingOf o).map State.entry)
        finished := beam.finished.pushAll ((S.finishedOf o).map State.entry) } := by
  cases o with
  | finished u =>
      have hoffer := foldl_offerBest (S := S) [u] beam.finished
      rw [List.foldl_cons, List.foldl_nil] at hoffer
      show { beam with finished := S.offerBest beam.finished u } = _
      rw [hoffer]
      rfl
  | pending states =>
      show { beam with frontier := states.foldl S.offerBest beam.frontier } = _
      rw [foldl_offerBest]
      rfl

/-- Advancing states one after the other offers the containers everything that the
steps admit, in order. -/
theorem advanceAll_eq (states : List (State D κ R)) (beam : Beam D κ R) :
    S.advanceAll beam states = (states.mapM S.step).map fun steps =>
      { frontier := beam.frontier.pushAll ((steps.flatMap S.pendingOf).map State.entry)
        finished := beam.finished.pushAll ((steps.flatMap S.finishedOf).map State.entry) } := by
  induction states generalizing beam with
  | nil => rfl
  | cons s states ih =>
      rw [advanceAll, List.mapM_cons]
      cases hstep : S.step s with
      | error halt => rfl
      | ok o =>
          show S.advanceAll (S.takeStep beam o) states = _
          rw [ih, takeStep_eq]
          cases hsteps : states.mapM S.step with
          | error halt => simp [Except.map, bind, Except.bind]
          | ok steps =>
              simp [Except.map, bind, Except.bind, pure, Except.pure, KBest.pushAll]

section Plain

variable [LawfulScalar R]

theorem plain_of_scored {s t : State D κ R} (h : s.scored S.score = some t)
    (hs : Scalar.isNegZero s.logProb = false) : t.Plain :=
  ⟨(State.logProb_of_scored h).1, isNegZero_of_scored h hs⟩

/-- The offers of a step have plain log-weights if its state has. -/
theorem plain_of_step {s t : State D κ R} {o : Step D κ R} (hstep : S.step s = .ok o)
    (hs : s.Plain) (ht : t ∈ S.pendingOf o ∨ t ∈ S.finishedOf o) : t.Plain := by
  cases o with
  | finished u =>
      have ht : t ∈ S.admitted [u] := by simpa [pendingOf, finishedOf] using ht
      obtain ⟨u', hu', hscore⟩ := List.mem_filterMap.mp ht
      rw [List.mem_singleton] at hu'
      subst hu'
      obtain ⟨value, path, hfin, rfl⟩ := advances_of_step_finished hstep
      exact plain_of_scored hscore (isNegZero_of_advances hfin hs.2)
  | pending states =>
      have ht : t ∈ S.admitted states := by simpa [pendingOf, finishedOf] using ht
      have hoffers := lists_admitted (S := S) (lists_leads_of_step hstep)
      obtain ⟨d, t₀, hlead, hscore⟩ := hoffers.exists_label t ht
      exact plain_of_scored hscore (isNegZero_of_leads hlead hs.2)

end Plain

/-- The containers hold what the level has. -/
structure Refines (k : Nat) (beam : Beam D κ R) (level : Level D κ R) : Prop where
  capacity : beam.frontier.capacity = k
  frontier : beam.frontier.toList = level.frontier.map State.entry
  finished : beam.finished = (KBest.empty k).pushAll (level.finished.map State.entry)
  frontier_plain : ∀ s ∈ level.frontier, s.Plain
  finished_plain : ∀ s ∈ level.finished, s.Plain

variable [LawfulScalar R]

/-- A container holds the first states of what it was offered. -/
theorem toList_pushAll_entries (k : Nat) {states : List (State D κ R)}
    (h : ∀ s ∈ states, s.Plain) :
    ((KBest.empty k).pushAll (states.map State.entry)).toList =
      (firstBest k states).map State.entry := by
  rw [map_entry_firstBest]
  refine KBest.toList_pushAll k _ ?_
  intro entry hentry
  obtain ⟨s, hs, rfl⟩ := List.mem_map.mp hentry
  exact h s hs

/-- Before the first round the containers hold what the first level has. -/
theorem refines_start (k : Nat) (program : Program D κ R) (env : Env D R) :
    Refines k (S.startBeam k program env) (S.startLevel k program env) := by
  have hplain : ∀ s ∈ S.admitted [.initial program env], s.Plain := by
    intro s hs
    obtain ⟨root, hroot, hscore⟩ := List.mem_filterMap.mp hs
    rw [List.mem_singleton.mp hroot] at hscore
    exact plain_of_scored hscore Scalar.isNegZero_zero
  have hoffer : S.offerBest (.empty k) (.initial program env) =
      (KBest.empty k).pushAll ((S.admitted [.initial program env]).map State.entry) :=
    foldl_offerBest (S := S) [.initial program env] (.empty k)
  refine ⟨?_, ?_, rfl, fun s hs => hplain s (mem_of_mem_firstBest hs), fun s hs => by cases hs⟩
  · show (S.offerBest (.empty k) (.initial program env)).capacity = k
    rw [hoffer, KBest.capacity_pushAll]
    rfl
  · show (S.offerBest (.empty k) (.initial program env)).toList = _
    rw [hoffer, toList_pushAll_entries k hplain]
    rfl

/-- What the containers hold, as states. -/
theorem Refines.states_eq {k : Nat} {beam : Beam D κ R} {level : Level D κ R}
    (h : Refines k beam level) : beam.frontier.toList.map (·.2) = level.frontier ∧
      beam.finished.toList.map (·.2) = firstBest k level.finished := by
  rw [h.frontier, h.finished, toList_pushAll_entries k h.finished_plain, List.map_map, List.map_map]
  exact ⟨List.map_id _, List.map_id _⟩

/-- A round does to the containers what the next level does. -/
theorem round_refines {k : Nat} {beam : Beam D κ R} {level : Level D κ R}
    (h : Refines k beam level) :
    (∃ halt, S.round beam = .error halt ∧ S.nextLevel k level = .error halt) ∨
    ∃ beam' level', S.round beam = .ok beam' ∧ S.nextLevel k level = .ok level' ∧
      Refines k beam' level' := by
  have hstates := h.states_eq.1
  have hround : S.round beam =
      S.advanceAll { beam with frontier := .empty k } level.frontier := by
    show S.advanceAll { beam with frontier := .empty beam.frontier.capacity }
      (beam.frontier.toList.map (·.2)) = _
    rw [hstates, h.capacity]
  rw [hround, advanceAll_eq]
  unfold nextLevel
  cases hsteps : level.frontier.mapM S.step with
  | error halt => exact .inl ⟨halt, rfl, rfl⟩
  | ok steps =>
      have hplain : ∀ o ∈ steps, ∀ t, t ∈ S.pendingOf o ∨ t ∈ S.finishedOf o → t.Plain := by
        intro o ho t ht
        obtain ⟨s, hs, hstep⟩ := exists_right_of_forall₂ (forall₂_of_mapM hsteps).flip o ho
        exact plain_of_step hstep (h.frontier_plain s hs) ht
      have hpending : ∀ t ∈ steps.flatMap S.pendingOf, t.Plain := by
        intro t ht
        obtain ⟨o, ho, ht⟩ := List.mem_flatMap.mp ht
        exact hplain o ho t (.inl ht)
      refine .inr ⟨_, _, rfl, rfl, ?_, toList_pushAll_entries k hpending, ?_, ?_, ?_⟩
      · rw [KBest.capacity_pushAll]
        rfl
      · rw [h.finished, List.map_append, KBest.pushAll_append]
      · exact fun s hs => hpending s (mem_of_mem_firstBest hs)
      · intro t ht
        rcases List.mem_append.mp ht with ht | ht
        · exact h.finished_plain t ht
        · obtain ⟨o, ho, ht⟩ := List.mem_flatMap.mp ht
          exact hplain o ho t (.inr ht)

/-- A run on the containers and one on the levels end alike, with the same calls to the
logger; but the former has stopped its timer if it has failed. -/
def RefinesRun (k : Nat) (x : Logged R (Result R (Beam D κ R × Nat)))
    (y : Logged R (Result R (Level D κ R × Nat))) : Prop :=
  (∃ halt, x.value = .error halt ∧ y.value = .error halt ∧
    x.events = y.events ++ [.stop beamTimer]) ∨
  ∃ beam level n, x.value = .ok (beam, n) ∧ y.value = .ok (level, n) ∧ x.events = y.events ∧
    Refines k beam level

omit [LawfulScalar R] in
/-- The same calls may be made before. -/
theorem RefinesRun.after {k : Nat} {x : Logged R (Result R (Beam D κ R × Nat))}
    {y : Logged R (Result R (Level D κ R × Nat))} (h : RefinesRun k x y)
    (events : List (Event R)) :
    RefinesRun k ⟨events ++ x.events, x.value⟩ ⟨events ++ y.events, y.value⟩ := by
  rcases h with ⟨halt, hx, hy, hevents⟩ | ⟨beam, level, n, hx, hy, hevents, hrefines⟩
  · exact .inl ⟨halt, hx, hy, by rw [hevents, List.append_assoc]⟩
  · exact .inr ⟨beam, level, n, hx, hy, by rw [hevents], hrefines⟩

/-- The rounds do to the containers what the levels do, with the same calls to the
logger. -/
theorem rounds_refines {k : Nat} (limit fuel n : Nat) {beam : Beam D κ R}
    {level : Level D κ R} (h : Refines k beam level) :
    RefinesRun k (S.rounds limit fuel n beam) (S.levels k limit fuel n level) := by
  induction fuel generalizing n beam level with
  | zero => exact .inl ⟨.outOfFuel, rfl, rfl, rfl⟩
  | succ fuel ih =>
      have hempty : beam.frontier.isEmpty = level.frontier.isEmpty := by
        have hentries := congrArg List.isEmpty h.frontier
        rwa [KBest.toList, List.isEmpty_reverse, List.isEmpty_map] at hentries
      unfold rounds levels
      rw [hempty]
      by_cases hstop : (level.frontier.isEmpty || limitReached limit n) = true
      · rw [if_pos hstop, if_pos hstop]
        exact .inr ⟨beam, level, n, rfl, rfl, rfl, h⟩
      · rw [if_neg hstop, if_neg hstop]
        rcases round_refines h with ⟨halt, hround, hnext⟩ | ⟨beam', level', hround, hnext, h'⟩
        · rw [hround, hnext]
          exact .inl ⟨halt, rfl, rfl, rfl⟩
        · rw [hround, hnext]
          have hsize : beam'.frontier.size = level'.frontier.length := by
            have hentries := congrArg List.length h'.frontier
            rwa [KBest.toList, List.length_reverse, List.length_map] at hentries
          dsimp only
          rw [hsize]
          exact (ih (n + 1) h').after [.iterationStart n,
            .statistic n "frontier_size" (Scalar.ofNat level'.frontier.length), .iterationEnd n]

/-- The executions of a beam search are the first ones that finished. -/
theorem Refines.executions_eq {k : Nat} {beam : Beam D κ R} {level : Level D κ R}
    (h : Refines k beam level) :
    beam.executions = (firstBest k level.finished).mapM State.execution := by
  unfold Beam.executions
  rw [h.finished, toList_pushAll_entries _ h.finished_plain, List.mapM_map]
  rfl

/-- A beam search that succeeds ends at a level and returns the first executions there. -/
theorem beamSearch_eq_ok_iff {config : SearchConfig} {program : Program D κ R} {env : Env D R}
    {m : Marginals (Value D R) D R} : (S.beamSearch config program env).value = .ok m ↔
      ∃ level, (S.levels config.beamSize config.maxIterations S.fuel 0
          (S.startLevel config.beamSize program env)).value = .ok (level, m.iterations) ∧
        (firstBest config.beamSize level.finished).mapM State.execution = .ok m.executions := by
  have hstart : Refines config.beamSize (S.startBeam config.beamSize program env)
      (S.startLevel config.beamSize program env) := refines_start config.beamSize program env
  unfold beamSearch
  simp only [bind, Logged.andThen]
  rcases rounds_refines (S := S) config.maxIterations S.fuel 0 hstart with ⟨halt, hx, hy, -⟩ |
    ⟨beam, level, n, hx, hy, -, hrefines⟩
  · rw [hx, hy]
    constructor
    · intro h
      cases h
    · rintro ⟨_, h, -⟩
      cases h
  · rw [hx, hy]
    simp only [pure, Logged.quiet, hrefines.executions_eq]
    constructor
    · intro h
      cases hexec : (firstBest config.beamSize level.finished).mapM State.execution with
      | error e => rw [hexec] at h; cases h
      | ok executions =>
          rw [hexec] at h
          cases h
          exact ⟨level, rfl, hexec⟩
    · rintro ⟨_, h, hexec⟩
      cases h
      rw [hexec]
      rfl

/-- A program that the score rejects has no executions. -/
theorem beamSearch_of_rejected {program : Program D κ R} {env : Env D R}
    (hroot : (State.initial program env).scored S.score = none) (hfuel : 0 < S.fuel)
    (k limit : Nat) : (S.beamSearch { beamSize := k, maxIterations := limit } program env).value =
      .ok { executions := [], iterations := 0 } := by
  obtain ⟨fuel, hfuel⟩ : ∃ fuel, S.fuel = fuel + 1 := ⟨S.fuel - 1, by omega⟩
  have hnil : firstBest k ([] : List (State D κ R)) = [] := by
    unfold firstBest
    rw [List.mergeSort_nil, List.take_nil]
  have hstart : S.startLevel k program env = { frontier := [], finished := [] } := by
    unfold startLevel admitted
    rw [List.filterMap_cons_none hroot]
    exact congrArg (Level.mk · []) hnil
  refine beamSearch_eq_ok_iff.mpr ⟨{ frontier := [], finished := [] }, ?_, ?_⟩
  · rw [hstart, hfuel]
    rfl
  · dsimp only
    rw [hnil]
    rfl

/-- After every round the containers hold what the level has. -/
theorem refines_after (k : Nat) (program : Program D κ R) (env : Env D R) (n : Nat) :
    (∃ halt, S.beamAfter k program env n = .error halt ∧
      S.levelAfter k program env n = .error halt) ∨
    ∃ beam level, S.beamAfter k program env n = .ok beam ∧
      S.levelAfter k program env n = .ok level ∧ Refines k beam level := by
  induction n with
  | zero => exact .inr ⟨_, _, rfl, rfl, refines_start k program env⟩
  | succ n ih =>
      unfold beamAfter levelAfter
      rcases ih with ⟨halt, hbeam, hlevel⟩ | ⟨beam, level, hbeam, hlevel, h⟩
      · rw [hbeam, hlevel]
        exact .inl ⟨halt, rfl, rfl⟩
      · rw [hbeam, hlevel]
        exact round_refines h

/-- **Refinement**: beam search is the search level by level, with the same result, the
same errors and the same calls to the logger. After every round the containers hold, best
first, the frontier of the level and the first of all that has finished. -/
theorem beamSearch_eq_levelSearch (config : SearchConfig) (program : Program D κ R)
    (env : Env D R) : S.beamSearch config program env = S.levelSearch config program env ∧
      ∀ n, (S.beamAfter config.beamSize program env n).map (fun beam =>
          (beam.frontier.toList.map (·.2), beam.finished.toList.map (·.2))) =
        (S.levelAfter config.beamSize program env n).map fun level =>
          (level.frontier, firstBest config.beamSize level.finished) := by
  constructor
  · have hstart : Refines config.beamSize (S.startBeam config.beamSize program env)
        (S.startLevel config.beamSize program env) := refines_start config.beamSize program env
    unfold beamSearch levelSearch
    simp only [bind, Logged.andThen, Logged.timed, Logged.emit]
    rcases rounds_refines (S := S) config.maxIterations S.fuel 0 hstart with
      ⟨halt, hx, hy, hevents⟩ | ⟨beam, level, n, hx, hy, hevents, h⟩
    · simp only [hx, hy, hevents]
      rfl
    · simp only [hx, hy, hevents, h.executions_eq]
      simp [pure, Logged.quiet, beamTimer]
  · intro n
    rcases refines_after config.beamSize program env n with ⟨halt, hbeam, hlevel⟩ |
      ⟨beam, level, hbeam, hlevel, h⟩
    · rw [hbeam, hlevel]
      rfl
    · obtain ⟨hfrontier, hfinished⟩ := h.states_eq
      rw [hbeam, hlevel]
      exact congrArg Except.ok (Prod.ext hfrontier hfinished)

end Setting

/-! ### A toss of a coin -/

/-- A coin that falls on one side more often than on the other. -/
def toss : Program Bool Unit Float := .categorical none [(false, -1.0), (true, 0.0)] none

/-- Searches of programs without continuations. -/
def tosses : Setting Bool Unit Float where
  codes := { resume := fun _ side => .ok (.value side), consult := fun _ _ => .error .outOfFuel }
  graph := Graph.view {}
  score := .zero
  fuel := 4

/-- A toss in a collapsed part, and a step that goes on with its side. -/
def tossWithin : Program Bool Unit Float := .bind (.collapsed toss) [{ name := none, code := () }]

/-- Searches in which the step tosses again after the side that is the more frequent one. -/
def retosses : Setting Bool Unit Float where
  codes :=
    { resume := fun _ side => match side with
        | .data true => .ok toss
        | _ => .ok (.value side)
      consult := fun _ _ => .error .outOfFuel }
  graph := Graph.view {}
  score := .zero
  fuel := 8

/-- On machine numbers, a search that keeps two of the three ways to toss is the search level
by level. -/
theorem beamSearch_tossWithin :
    retosses.beamSearch { beamSize := 2, maxIterations := 0 } tossWithin .init =
        retosses.levelSearch { beamSize := 2, maxIterations := 0 } tossWithin .init ∧
      ∀ n, (retosses.beamAfter 2 tossWithin .init n).map (fun beam =>
          (beam.frontier.toList.map (·.2), beam.finished.toList.map (·.2))) =
        (retosses.levelAfter 2 tossWithin .init n).map fun level =>
          (level.frontier, firstBest 2 level.finished) :=
  Setting.beamSearch_eq_levelSearch { beamSize := 2, maxIterations := 0 } tossWithin .init

end ChoiceSearch
