import ChoiceSearch.Search.Beam
import ChoiceSearch.Search.Sample

/-!
# Statistics in a log

The statistics that a log has under a name (`statisticsNamed`), and what searches log: a beam
search the sizes of its frontiers, and single samples nothing at all.
-/

namespace ChoiceSearch

variable {D κ R : Type}

/-- The statistics of the given name in a log, with their iterations, in order. -/
def statisticsNamed (name : String) (events : List (Event R)) : List (Nat × R) :=
  events.filterMap fun
    | .statistic iteration other value => if other = name then some (iteration, value) else none
    | _ => none

theorem statisticsNamed_append (name : String) (events events' : List (Event R)) :
    statisticsNamed name (events ++ events') =
      statisticsNamed name events ++ statisticsNamed name events' :=
  List.filterMap_append

/-- A timer around a run adds no statistics. -/
theorem statisticsNamed_timed {α : Type} (name timer : String) (run : Logged R α) :
    statisticsNamed name (run.timed timer).events = statisticsNamed name run.events := by
  show statisticsNamed name (.start timer :: run.events ++ [.stop timer]) = _
  rw [List.cons_append]
  unfold statisticsNamed
  rw [List.filterMap_cons_none rfl, List.filterMap_append]
  exact List.append_nil _

namespace Setting

variable [Scalar R] {name : String} (S : Setting D κ R)

/-- A beam search logs the sizes of its frontiers and nothing else. -/
theorem statisticsNamed_rounds (hname : name ≠ "frontier_size") (limit fuel n : Nat)
    (beam : Beam D κ R) : statisticsNamed name (S.rounds limit fuel n beam).events = [] := by
  induction fuel generalizing n beam with
  | zero => rfl
  | succ fuel ih =>
      unfold rounds
      split
      · rfl
      · cases hround : S.round beam with
        | error halt => rfl
        | ok beam =>
            show statisticsNamed name (.iterationStart n :: .statistic n "frontier_size" _ ::
              .iterationEnd n :: (S.rounds limit fuel (n + 1) beam).events) = []
            unfold statisticsNamed at ih ⊢
            simp [ih, Ne.symm hname]

theorem statisticsNamed_beamSearch (hname : name ≠ "frontier_size") (config : SearchConfig)
    (program : Program D κ R) (env : Env D R) :
    statisticsNamed name (S.beamSearch config program env).events = [] := by
  have hrounds := S.statisticsNamed_rounds hname config.maxIterations S.fuel 0
    (S.startBeam config.beamSize program env)
  unfold beamSearch
  simp only [bind, Logged.andThen, statisticsNamed_append]
  refine List.append_eq_nil_iff.mpr ⟨rfl, List.append_eq_nil_iff.mpr ⟨hrounds, ?_⟩⟩
  split <;> rfl

variable {G : Type} [Generator G R] (name)

/-- A sample logs no statistic. -/
theorem statisticsNamed_sample (program : Program D κ R) (env : Env D R) (g : G) :
    statisticsNamed name (S.sample program env g).events = [] := by
  unfold sample
  simp only [bind, Logged.andThen, statisticsNamed_append]
  refine List.append_eq_nil_iff.mpr ⟨?_, ?_⟩
  · rw [statisticsNamed_timed]
    rfl
  · split <;> rfl

/-- Samples that are drawn one after the other log no statistic, by induction on their
number. -/
theorem statisticsNamed_sampleFrom (program : Program D κ R) (env : Env D R) (count i : Nat)
    (samples : Samples D R) (g : G) :
    statisticsNamed name (S.sampleFrom program env count i samples g).events = [] := by
  induction count generalizing i samples g with
  | zero => rfl
  | succ count ih =>
      have hsample := S.statisticsNamed_sample name program env g
      unfold sampleFrom
      simp only [bind, Logged.andThen, Logged.emit, statisticsNamed_append]
      refine List.append_eq_nil_iff.mpr ⟨rfl, List.append_eq_nil_iff.mpr ⟨hsample, ?_⟩⟩
      split
      · rw [statisticsNamed_append]
        exact ih ..
      · rw [statisticsNamed_append]
        exact ih ..
      · rfl

end Setting

end ChoiceSearch
