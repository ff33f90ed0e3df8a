import ChoiceSearch.Proofs.Search.Screening
import ChoiceSearch.Proofs.Search.Weighing

/-!
# The laws of adding scores

As far as any search can tell, execution scores are a commutative monoid under addition
(`Setting.indistinctScores_add`). The sums need not be equal: a rejection on the left hides
what the right score says, so that `a.add b` and `b.add a` may be minus infinity and not a
number for the same state. Both reject it, and up to that a sum of scores is the sum of their
values (`ExecutionScore.sameWeight_add`), for which the laws are those of the scalars.

Beam search and sum-product search end in the same, to the last bit. They add a score to
log-weights only that are never negative zero, and there two scores of the same weight leave
the same state or none (`ExecutionScore.SameWeights.scored_eq`). In sampling a score may be
all that a log-weight consists of, so its zeros may differ in their sign.
-/

namespace ChoiceSearch

open Scalar

variable {D κ R : Type} [Scalar R]

section Offers

variable [ScoringScalar R] {S : Setting D κ R} {a b : ExecutionScore D R}

/-- An offered state is admitted alike, and left with the same log-weight. -/
theorem ExecutionScore.SameWeights.scored_eq (h : a.SameWeights b) {s : State D κ R}
    (hs : isNegZero s.logProb = false) : s.scored a = s.scored b := by
  have hweight := h s.tag s.choice s.path.env
  have hsum := hweight.add_left s.path.logProb
  unfold State.scored
  dsimp only
  rw [← hsum.admissible_eq]
  by_cases hadm : admissible (s.path.logProb + a s.tag s.choice s.path.env) = true
  · have heq : s.path.logProb + a s.tag s.choice s.path.env =
        s.path.logProb + b s.tag s.choice s.path.env := hweight.add_eq hs hadm
    rw [if_pos hadm, if_pos hadm, heq]
  · rw [if_neg hadm, if_neg hadm]

/-! ## Steps -/

/-- What a step offers, or ends in, does not have the log-weight negative zero. -/
inductive Step.Clear : Step D κ R → Prop
  | finished {u : State D κ R} : isNegZero u.logProb = false → Clear (.finished u)
  | pending {states : List (State D κ R)} : (∀ t ∈ states, isNegZero t.logProb = false) →
      Clear (.pending states)

namespace Setting

theorem clear_of_step {s : State D κ R} {o : Step D κ R} (h : S.step s = .ok o)
    (hs : isNegZero s.logProb = false) : o.Clear := by
  cases o with
  | finished u =>
      obtain ⟨value, path, hadvances, rfl⟩ := advances_of_step_finished h
      exact .finished (isNegZero_of_advances hadvances hs)
  | pending states => exact .pending (isNegZero_of_offers (S := S) h hs)

theorem admitted_eq (h : a.SameWeights b) {states : List (State D κ R)}
    (hstates : ∀ t ∈ states, isNegZero t.logProb = false) :
    (S.withScore a).admitted states = (S.withScore b).admitted states :=
  List.filterMap_congr fun t ht => h.scored_eq (hstates t ht)

theorem foldl_offerHeld_eq (h : a.SameWeights b) {states : List (State D κ R)}
    (hstates : ∀ t ∈ states, isNegZero t.logProb = false) (pending : Unbounded R (State D κ R)) :
    states.foldl (S.withScore a).offerHeld pending =
      states.foldl (S.withScore b).offerHeld pending := by
  refine List.foldl_ext _ _ _ fun pending t ht => ?_
  unfold offerHeld
  rw [show t.scored (S.withScore a).score = t.scored (S.withScore b).score from
    h.scored_eq (hstates t ht)]

/-- A step is the same if what collapsed parts end in is the same. -/
theorem stepWith_eq {resolve resolve' : Program D κ R → Path D R → Result R (List (State D κ R))}
    (hresolve : ∀ inner path, isNegZero path.logProb = false →
      resolve inner path = resolve' inner path)
    {s : State D κ R} (hs : isNegZero s.logProb = false) :
    (S.withScore a).stepWith resolve s = (S.withScore b).stepWith resolve' s := by
  unfold stepWith withScore
  dsimp only
  cases hadvance : advance S.codes S.graph S.fuel s.program s.stack s.path with
  | error halt => rfl
  | ok t =>
      cases t with
      | finished value path => rfl
      | choice site alternatives tag stack path => rfl
      | collapsed inner stack path =>
          have hadvances : S.Advances s (.collapsed inner stack path) := ⟨_, hadvance⟩
          simp only [bind, Except.bind]
          rw [hresolve inner path (isNegZero_of_advances hadvances hs)]

/-- Collapsed parts have the same results, by induction on the states taken. -/
theorem resolveAll_eq (h : a.SameWeights b) (fuel : Nat) {pending : Unbounded R (State D κ R)}
    (hpending : ∀ entry ∈ pending.newestFirst, isNegZero entry.2.logProb = false)
    (results : List (State D κ R)) : (S.withScore a).resolveAll fuel pending results =
      (S.withScore b).resolveAll fuel pending results := by
  induction fuel generalizing pending results with
  | zero => rfl
  | succ fuel ih =>
      obtain ⟨entries⟩ := pending
      cases entries with
      | nil => rfl
      | cons entry rest =>
          have hentry : isNegZero entry.2.resumed.logProb = false :=
            hpending entry List.mem_cons_self
          have hrest : ∀ other ∈ rest, isNegZero other.2.logProb = false :=
            fun other hother => hpending other (List.mem_cons_of_mem _ hother)
          have hinner : ∀ (inner : Program D κ R) (path : Path D R),
              isNegZero path.logProb = false →
              (S.withScore a).resolveAll fuel (hold .empty (.root inner [] path)) [] =
                (S.withScore b).resolveAll fuel (hold .empty (.root inner [] path)) [] := by
            intro inner path hpath
            refine ih (fun other hother => ?_) []
            rw [eq_of_mem_hold hother]
            exact hpath
          rw [resolveAll_cons, resolveAll_cons, stepWith_eq (S := S) (a := a) (b := b) hinner hentry]
          cases hstep : (S.withScore b).stepWith (fun inner path =>
              (S.withScore b).resolveAll fuel (hold .empty (.root inner [] path)) [])
              entry.2.resumed with
          | error halt => rfl
          | ok o =>
              cases o with
              | finished result => exact ih hrest _
              | pending states =>
                  have hstates := isNegZero_of_offers hstep hentry
                  show (S.withScore a).resolveAll fuel
                    (states.foldl (S.withScore a).offerHeld ⟨rest⟩) results = _
                  rw [foldl_offerHeld_eq h hstates]
                  exact ih (isNegZero_of_foldl_offerHeld hstates hrest) results

theorem step_eq (h : a.SameWeights b) {s : State D κ R} (hs : isNegZero s.logProb = false) :
    (S.withScore a).step s = (S.withScore b).step s := by
  refine stepWith_eq (fun inner path hpath => resolveAll_eq h S.fuel (fun entry hentry => ?_) []) hs
  rw [eq_of_mem_hold hentry]
  exact hpath

/-! ## Beam search -/

omit [ScoringScalar R] in
theorem mem_place {α : Type} {score : R} {item : α} {entries : List (R × α)} {entry : R × α}
    (h : entry ∈ KBest.place score item entries) : entry = (score, item) ∨ entry ∈ entries := by
  induction entries with
  | nil => exact .inl (List.mem_singleton.mp h)
  | cons other rest ih =>
      unfold KBest.place at h
      split at h
      · rcases List.mem_cons.mp h with rfl | h
        · exact .inr List.mem_cons_self
        · exact (ih h).imp_right (List.mem_cons_of_mem _)
      · exact List.mem_cons.mp h

omit [ScoringScalar R] in
/-- A container holds what it held before or what was offered. -/
theorem mem_push {α : Type} {queue : KBest R α} {score : R} {item : α} {entry : R × α}
    (h : entry ∈ (queue.push score item).entries) :
    entry = (score, item) ∨ entry ∈ queue.entries := by
  unfold KBest.push at h
  split at h
  · refine (mem_place h).imp_right fun hkept => ?_
    split at hkept
    · exact hkept
    · exact List.mem_of_mem_tail hkept
  · exact .inr h

/-- No entry of the container has the log-weight negative zero. -/
def ClearEntries (queue : KBest R (State D κ R)) : Prop :=
  ∀ entry ∈ queue.entries, isNegZero entry.2.logProb = false

omit [ScoringScalar R] in
theorem clearEntries_empty (capacity : Nat) :
    ClearEntries (.empty capacity : KBest R (State D κ R)) := List.forall_mem_nil _

theorem clearEntries_offerBest {queue : KBest R (State D κ R)} (hqueue : ClearEntries queue)
    {t : State D κ R} (ht : isNegZero t.logProb = false) : ClearEntries (S.offerBest queue t) := by
  unfold offerBest
  cases hscored : t.scored S.score with
  | none => exact hqueue
  | some u =>
      intro entry hentry
      rcases mem_push hentry with rfl | hentry
      · exact isNegZero_of_scored hscored ht
      · exact hqueue entry hentry

theorem offerBest_eq (h : a.SameWeights b) (queue : KBest R (State D κ R)) {t : State D κ R}
    (ht : isNegZero t.logProb = false) :
    (S.withScore a).offerBest queue t = (S.withScore b).offerBest queue t := by
  unfold offerBest
  rw [show t.scored (S.withScore a).score = t.scored (S.withScore b).score from h.scored_eq ht]

/-- What a step leads to is taken into the containers alike, and pending states stay clear. -/
theorem takeStep_eq_of_clear (h : a.SameWeights b) {beam : Beam D κ R}
    (hbeam : ClearEntries beam.frontier) {o : Step D κ R} (ho : o.Clear) :
    (S.withScore a).takeStep beam o = (S.withScore b).takeStep beam o ∧
      ClearEntries ((S.withScore b).takeStep beam o).frontier := by
  cases ho with
  | finished hu =>
      refine ⟨?_, hbeam⟩
      have hoffer := offerBest_eq (S := S) h beam.finished hu
      exact congrArg (fun finished => ({ beam with finished } : Beam D κ R)) hoffer
  | pending hstates =>
      unfold takeStep
      dsimp only
      constructor
      · rw [List.foldl_ext _ _ _ fun queue t ht => offerBest_eq h queue (hstates t ht)]
      · exact List.foldlRecOn _ _ hbeam fun queue hqueue t ht =>
          clearEntries_offerBest hqueue (hstates t ht)

/-- States are advanced alike, by induction on their list. -/
theorem advanceAll_eq_of_clear (h : a.SameWeights b) {states : List (State D κ R)}
    (hstates : ∀ t ∈ states, isNegZero t.logProb = false) {beam : Beam D κ R}
    (hbeam : ClearEntries beam.frontier) :
    (S.withScore a).advanceAll beam states = (S.withScore b).advanceAll beam states ∧
      ∀ beam', (S.withScore b).advanceAll beam states = .ok beam' →
        ClearEntries beam'.frontier := by
  induction states generalizing beam with
  | nil =>
      refine ⟨rfl, fun beam' hbeam' => ?_⟩
      cases hbeam'
      exact hbeam
  | cons t states ih =>
      have ht := hstates t List.mem_cons_self
      unfold advanceAll
      rw [step_eq h ht]
      cases hstep : (S.withScore b).step t with
      | error halt => exact ⟨rfl, fun beam' hbeam' => by cases hbeam'⟩
      | ok o =>
          obtain ⟨htake, hclear⟩ := takeStep_eq_of_clear h hbeam (clear_of_step hstep ht)
          show (S.withScore a).advanceAll ((S.withScore a).takeStep beam o) states = _ ∧ _
          rw [htake]
          exact ih (fun other hother => hstates other (List.mem_cons_of_mem _ hother)) hclear

theorem round_eq_of_clear (h : a.SameWeights b) {beam : Beam D κ R}
    (hbeam : ClearEntries beam.frontier) :
    (S.withScore a).round beam = (S.withScore b).round beam ∧
      ∀ beam', (S.withScore b).round beam = .ok beam' → ClearEntries beam'.frontier := by
  refine advanceAll_eq_of_clear h (fun t ht => ?_) (List.forall_mem_nil _)
  obtain ⟨entry, hentry, rfl⟩ := List.mem_map.mp ht
  exact hbeam entry (List.mem_reverse.mp hentry)

/-- The rounds are the same, by induction on their number. -/
theorem rounds_eq_of_clear (h : a.SameWeights b) (limit fuel n : Nat) {beam : Beam D κ R}
    (hbeam : ClearEntries beam.frontier) :
    (S.withScore a).rounds limit fuel n beam = (S.withScore b).rounds limit fuel n beam := by
  induction fuel generalizing n beam with
  | zero => rfl
  | succ fuel ih =>
      obtain ⟨hround, hclear⟩ := round_eq_of_clear (S := S) h hbeam
      unfold rounds
      rw [hround]
      cases hnext : (S.withScore b).round beam with
      | error halt => rfl
      | ok beam' => simp only [ih (n + 1) (hclear beam' hnext)]

theorem beamSearch_eq (h : a.SameWeights b) (config : SearchConfig) (program : Program D κ R)
    (env : Env D R) : (S.withScore a).beamSearch config program env =
      (S.withScore b).beamSearch config program env := by
  have hroot : isNegZero (State.initial program env).logProb = false := isNegZero_zero
  have hstart : (S.withScore a).startBeam config.beamSize program env =
      (S.withScore b).startBeam config.beamSize program env :=
    congrArg (fun frontier => ({ frontier, finished := .empty config.beamSize } : Beam D κ R))
      (offerBest_eq (S := S) h (.empty config.beamSize) hroot)
  have hclear : ClearEntries
      ((S.withScore b).startBeam config.beamSize program env).frontier :=
    clearEntries_offerBest (clearEntries_empty _) hroot
  rw [beamSearch_eq_marginalsOf, beamSearch_eq_marginalsOf, hstart,
    rounds_eq_of_clear h config.maxIterations (S.withScore a).fuel 0 hclear]
  rfl

/-! ## Sum-product search -/

/-- A vertex is expanded alike, as it is expanded from a weight of its own. -/
theorem expand_eq_of_sameWeights (h : a.SameWeights b) (x : Exploration D κ R) (vertex : Nat)
    (s : State D κ R) : (S.withScore a).expand x vertex s = (S.withScore b).expand x vertex s := by
  have hstart : isNegZero ({ s with path := { s.path with
      logProb := zero, supply := Supply.atVertex vertex } } : State D κ R).logProb = false :=
    isNegZero_zero
  unfold expand
  dsimp only
  rw [step_eq h hstart]
  cases hstep : (S.withScore b).step { s with path := { s.path with
      logProb := zero, supply := Supply.atVertex vertex } } with
  | error halt => rfl
  | ok o =>
      have ho := clear_of_step hstep hstart
      cases ho with
      | finished hu =>
          have hstates := admitted_eq (S := S) h (List.forall_mem_singleton.mpr hu)
          simp only [hstates]
      | pending hstates => simp only [admitted_eq (S := S) h hstates]

/-- Explorations are the same, by induction on their turns. -/
theorem explore_eq_of_sameWeights (h : a.SameWeights b) (limit fuel : Nat)
    (x : Exploration D κ R) :
    (S.withScore a).explore limit fuel x = (S.withScore b).explore limit fuel x := by
  induction fuel generalizing x with
  | zero => rfl
  | succ fuel ih =>
      unfold explore
      simp only [ih, expand_eq_of_sameWeights h]

theorem sumProduct_eq (h : a.SameWeights b) (config : SearchConfig) (program : Program D κ R)
    (env : Env D R) : (S.withScore a).sumProduct config program env =
      (S.withScore b).sumProduct config program env := by
  have hroot : (S.withScore a).sumRoot? program env = (S.withScore b).sumRoot? program env :=
    h.scored_eq isNegZero_zero
  unfold sumProduct
  rw [hroot]
  simp only [explore_eq_of_sameWeights h]
  rfl

end Setting

end Offers

/-! ## Sums of scores -/

namespace ExecutionScore

variable [ScoringScalar R]

/-- Whether or not the right score is asked, a sum has the weight of the sum of the values. -/
theorem sameWeight_add (a b : ExecutionScore D R) (tag choice : Option D) (env : Env D R) :
    SameWeight (a.add b tag choice env) (a tag choice env + b tag choice env) := by
  unfold add
  dsimp only
  by_cases hinf : isNegInf (a tag choice env) = true
  · have hreject : admissible (a tag choice env) = false := by simp [admissible, hinf]
    have hsum : admissible (a tag choice env + b tag choice env) = false := by
      rw [ScoringScalar.add_comm]
      exact admissible_add_of_rejected _ hreject
    rw [if_pos hinf]
    exact .rejected hreject hsum
  · rw [if_neg hinf]
    exact .number (.refl _)

/-- Sums of scores commute. -/
theorem sameWeights_add_comm (a b : ExecutionScore D R) : (a.add b).SameWeights (b.add a) := by
  intro tag choice env
  have hsum := (sameWeight_add b a tag choice env).symm
  rw [ScoringScalar.add_comm] at hsum
  exact (sameWeight_add a b tag choice env).trans hsum

theorem sameWeights_add_zero (a : ExecutionScore D R) : (a.add .zero).SameWeights a := by
  intro tag choice env
  have hzero := sameNumber_add_of_isZero (a tag choice env) ScreeningScalar.isZero_zero
  exact (sameWeight_add a .zero tag choice env).trans (.number hzero)

theorem sameWeights_zero_add (a : ExecutionScore D R) :
    (ExecutionScore.zero.add a).SameWeights a := fun tag choice env =>
  (sameWeights_add_comm .zero a tag choice env).trans (sameWeights_add_zero a tag choice env)

/-- Sums of scores may be regrouped if sums of scalars may be. -/
theorem sameWeights_add_assoc (hassoc : ∀ x y z : R, x + y + z = x + (y + z))
    (a b c : ExecutionScore D R) : ((a.add b).add c).SameWeights (a.add (b.add c)) := by
  intro tag choice env
  have hleft := (sameWeight_add (a.add b) c tag choice env).trans
    ((sameWeight_add a b tag choice env).add_right (c tag choice env))
  have hright := (sameWeight_add a (b.add c) tag choice env).trans
    ((sameWeight_add b c tag choice env).add_left (a tag choice env))
  rw [hassoc] at hleft
  exact hleft.trans hright.symm

end ExecutionScore

/-! ## What searches can tell -/

namespace Setting

/-- Samples that fail with the same error or find the same, with the same calls to the logger,
and leave the generator in the same state. -/
inductive SampleMatches {G : Type} : Logged R (Result R (Execution (Value D R) D R) × G) →
    Logged R (Result R (Execution (Value D R) D R) × G) → Prop
  | error (events : List (Event R)) (halt : Halt R) (g : G) :
      SampleMatches ⟨events, .error halt, g⟩ ⟨events, .error halt, g⟩
  | ok (events : List (Event R)) {e e' : Execution (Value D R) D R} (g : G) : e.Matches e' →
      SampleMatches ⟨events, .ok e, g⟩ ⟨events, .ok e', g⟩

/-- No search can tell the scores apart. Beam search and sum-product search end in the same,
and sampling does up to the sign of a log-weight zero. -/
structure IndistinctScores (S : Setting D κ R) (a b : ExecutionScore D R) : Prop where
  beam : ∀ config program env, (S.withScore a).beamSearch config program env =
    (S.withScore b).beamSearch config program env
  sumProduct : ∀ config program env, (S.withScore a).sumProduct config program env =
    (S.withScore b).sumProduct config program env
  sample : ∀ [ExpScalar R] {G : Type} [Generator G R] program env (g : G),
    SampleMatches ((S.withScore a).sample program env g) ((S.withScore b).sample program env g)

variable [ScoringScalar R]

theorem sampleMatches_sample [ExpScalar R] {G : Type} [Generator G R] {S : Setting D κ R}
    {a b : ExecutionScore D R} (h : a.SameWeights b) (program : Program D κ R) (env : Env D R)
    (g : G) : SampleMatches ((S.withScore a).sample program env g)
      ((S.withScore b).sample program env g) := by
  have hpath := sampledAlike_samplePath (S := S) h program env g
  rw [sample_eq_sampleOf, sample_eq_sampleOf]
  revert hpath
  generalize (S.withScore a).samplePath program env g = x
  generalize (S.withScore b).samplePath program env g = y
  intro hpath
  cases hpath with
  | error halt g' => exact .error _ halt g'
  | rejected g' => exact .error _ _ g'
  | found g' he => exact .ok _ g' he

theorem indistinctScores_of_sameWeights (S : Setting D κ R) {a b : ExecutionScore D R}
    (h : a.SameWeights b) : S.IndistinctScores a b where
  beam := beamSearch_eq h
  sumProduct := sumProduct_eq h
  sample := sampleMatches_sample h

/-- **Scores are a commutative monoid under addition**, as far as any search can tell. The sums
of three scores may be regrouped where the addition of scalars is exact. -/
theorem indistinctScores_add (S : Setting D κ R) (a b c : ExecutionScore D R) :
    S.IndistinctScores (a.add b) (b.add a) ∧ S.IndistinctScores (a.add .zero) a ∧
      S.IndistinctScores (ExecutionScore.zero.add a) a ∧
      ((∀ x y z : R, x + y + z = x + (y + z)) →
        S.IndistinctScores ((a.add b).add c) (a.add (b.add c))) := by
  refine ⟨?_, ?_, ?_, fun hassoc => ?_⟩
  · exact S.indistinctScores_of_sameWeights (a.sameWeights_add_comm b)
  · exact S.indistinctScores_of_sameWeights a.sameWeights_add_zero
  · exact S.indistinctScores_of_sameWeights a.sameWeights_zero_add
  · exact S.indistinctScores_of_sameWeights (ExecutionScore.sameWeights_add_assoc hassoc a b c)

end Setting

/-! ### A rejection that meets an infinity -/

/-- Weighs one side of a coin infinitely. -/
noncomputable def boost : ExecutionScore Bool Extended := fun _ choice _ =>
  if choice = some true then .posInf else Scalar.zero

/-- Rejects that side. -/
noncomputable def veto : ExecutionScore Bool Extended := fun _ choice _ =>
  if choice = some true then .negInf else Scalar.zero

/-- Searches of programs without steps. -/
noncomputable def coinTosses : Setting Bool Unit Extended where
  codes := { resume := fun _ v => .ok (.value v), consult := fun _ _ => .error .outOfFuel }
  graph := Graph.view {}
  score := .zero
  fuel := 4

theorem boost_add_veto : boost.add veto = fun _ choice _ =>
    if choice = some true then .nan else Scalar.zero := by
  funext tag choice env
  unfold ExecutionScore.add boost veto
  dsimp only
  by_cases hchoice : choice = some true
  · have hinf : ¬ isNegInf Extended.posInf = true := by
      rw [Extended.isNegInf_iff]
      exact Extended.noConfusion
    simp only [if_pos hchoice]
    rw [if_neg hinf]
    rfl
  · have hinf : ¬ isNegInf (Scalar.zero : Extended) = true := by
      rw [Extended.isNegInf_iff]
      exact Extended.noConfusion
    simp only [if_neg hchoice]
    rw [if_neg hinf]
    exact Extended.sum_zero _

theorem veto_add_boost (env : Env Bool Extended) :
    (veto.add boost) none (some true) env = .negInf := by
  have hinf : isNegInf (veto none (some true) env) = true := (Extended.isNegInf_iff _).mpr rfl
  unfold ExecutionScore.add
  dsimp only
  rw [if_pos hinf]
  rfl

/-- An infinite weight and a rejection add up to something that is not a number in one order and
to minus infinity in the other one. No search can tell the two sums apart: of a coin each of
them leaves the other side. -/
theorem indistinctScores_boost_veto :
    (boost.add veto) none (some true) .init = .nan ∧
    (veto.add boost) none (some true) .init = .negInf ∧
    coinTosses.IndistinctScores (boost.add veto) (veto.add boost) ∧
    coinTosses.IndistinctScores (boost.add .zero) boost ∧
    coinTosses.IndistinctScores (ExecutionScore.zero.add boost) boost ∧
    (∀ x y z : Extended, x + y + z = x + (y + z)) ∧
    coinTosses.IndistinctScores ((boost.add veto).add boost) (boost.add (veto.add boost)) ∧
    ∃ m, ((coinTosses.withScore (veto.add boost)).beamSearch { beamSize := 2 }
      (.choose none [true, false] none) .init).value = .ok m ∧ m.size = 1 := by
  obtain ⟨hcomm, hzero, hzero', hassoc⟩ := coinTosses.indistinctScores_add boost veto boost
  refine ⟨?_, veto_add_boost .init, hcomm, hzero, hzero', Extended.sum_assoc,
    hassoc Extended.sum_assoc, ?_⟩
  · rw [boost_add_veto]
    rfl
  · rw [← hcomm.beam, boost_add_veto]
    exact ⟨_, rfl, rfl⟩

end ChoiceSearch
