import ChoiceSearch.Proofs.Search.Collapsing
import ChoiceSearch.Proofs.Search.Resolution

/-!
# The beam around a collapsed program

Nothing is pruned within a collapsed part: all of its results are offered to the beam at
once, and states without a choice score zero on the way out and at the end. So a bounded
beam search of a collapsed program returns the best executions of an exhaustive search of
the program itself, however small its beam is (`Setting.bestOf_of_collapsed`).

It takes two rounds, one that resolves the part and one that finishes what the beam has kept
of the results (`Setting.exists_levels_of_final`). Which results there are is seen from an
exhaustive search of the collapsed program, which has the same walks. The log-weight of a
walk is added up in the same order, so this holds for exact and for machine numbers.
-/

namespace ChoiceSearch

variable {D κ R : Type}

/-- Log-weights in descending order. -/
def descending [Scalar R] (logProbs : List R) : List R :=
  logProbs.mergeSort fun x y => !Scalar.below x y

/-- The executions kept are the `k` best of all, up to timers. -/
structure BestOf [Scalar R] (k : Nat) (all kept : List (Execution (Value D R) D R)) : Prop where
  /-- There are `k` of them, or as many as there are in all. -/
  length : kept.length = min k all.length
  /-- They are among all executions, none more often than there. -/
  found : (kept.map Execution.untimed).Subperm (all.map Execution.untimed)
  /-- Their log-weights are the `k` largest ones. -/
  best : kept.map (·.logProb) = (descending (all.map (·.logProb))).take k

namespace Setting

/-! ## Executions in order -/

section Order

variable [Scalar R] [LawfulScalar R]

theorem pairwise_firstBest (k : Nat) (states : List (State D κ R)) :
    (firstBest k states).Pairwise fun s t => (!Scalar.below s.logProb t.logProb) = true :=
  (List.pairwise_mergeSort
    (fun s t u => bestFirst_trans s.entry t.entry u.entry)
    (fun s t => bestFirst_total s.entry t.entry) states).sublist (List.take_sublist _ _)

/-- What has been kept once is kept again. -/
theorem firstBest_firstBest (k : Nat) (states : List (State D κ R)) :
    firstBest k (firstBest k states) = firstBest k states := by
  have hsorted := List.mergeSort_of_pairwise (pairwise_firstBest k states)
  rw [firstBest, hsorted]
  exact List.take_of_length_le (List.length_take_le _ _)

/-- Beam search lists its executions best first. -/
theorem descending_executions {S : Setting D κ R} {config : SearchConfig} {program : Program D κ R}
    {env : Env D R} {m : Marginals (Value D R) D R}
    (h : (S.beamSearch config program env).value = .ok m) :
    descending (m.executions.map (·.logProb)) = m.executions.map (·.logProb) := by
  obtain ⟨level, -, hexec⟩ := beamSearch_eq_ok_iff.mp h
  have hlogs : m.executions.map (·.logProb) =
      (firstBest config.beamSize level.finished).map State.logProb := by
    refine map_eq_of_forall₂ ((forall₂_of_mapM hexec).flip.imp ?_)
    intro e u hu
    obtain ⟨value, -, rfl⟩ := State.execution_eq_ok_iff.mp hu
    rfl
  rw [hlogs]
  exact List.mergeSort_of_pairwise (List.pairwise_map.mpr (pairwise_firstBest _ _))

end Order

/-! ## The two rounds -/

theorem transparent_of_isZero [Scalar R] {S : Setting D κ R}
    (hzero : ∀ e, Scalar.isZero (S.score none none e) = true) : S.Transparent fun _ => True :=
  ⟨fun _ _ => trivial, fun _ => trivial, fun _ _ => trivial, fun _ _ => hzero _⟩

section Rounds

variable [Scalar R] {S : Setting D κ R} {inner program : Program D κ R} {path : Path D R}
  {env : Env D R} {root : State D κ R}

/-- A finished state to which the score adds nothing. -/
structure Final (S : Setting D κ R) (t : State D κ R) : Prop where
  step : S.step t = .ok (.finished t)
  scored : t.scored S.score = some t
  execution : ∃ e, t.execution = .ok e

/-- Final states offer nothing but themselves, as finished ones. -/
theorem offers_of_final {states : List (State D κ R)} (h : ∀ t ∈ states, S.Final t) :
    states.mapM S.step = .ok (states.map .finished) ∧
      (states.map Step.finished).flatMap S.pendingOf = [] ∧
      (states.map Step.finished).flatMap S.finishedOf = states := by
  induction states with
  | nil => exact ⟨rfl, rfl, rfl⟩
  | cons t states ih =>
      obtain ⟨hsteps, hpending, hfinished⟩ := ih fun t' ht' => h t' (List.mem_cons_of_mem _ ht')
      have ht := h t List.mem_cons_self
      have hadmitted : S.admitted [t] = [t] := List.filterMap_cons_some ht.scored
      refine ⟨by rw [List.mapM_cons, ht.step, hsteps]; rfl, hpending, ?_⟩
      rw [List.map_cons, List.flatMap_cons, hfinished]
      show S.admitted [t] ++ states = _
      rw [hadmitted, List.singleton_append]

theorem nextLevel_of_pending {states : List (State D κ R)} (k : Nat)
    (hstep : S.step root = .ok (.pending states)) :
    S.nextLevel k { frontier := [root], finished := [] } =
      .ok { frontier := firstBest k (S.admitted states), finished := [] } := by
  refine nextLevel_eq_ok_iff.mpr ⟨[.pending states], mapM_of_forall₂ (.cons hstep .nil), ?_⟩
  rw [List.flatMap_singleton, List.flatMap_singleton]
  rfl

theorem nextLevel_of_final {states : List (State D κ R)} (k : Nat)
    (h : ∀ t ∈ states, S.Final t) :
    S.nextLevel k { frontier := states, finished := [] } =
      .ok { frontier := [], finished := states } := by
  obtain ⟨hsteps, hpending, hfinished⟩ := offers_of_final h
  refine nextLevel_eq_ok_iff.mpr ⟨_, hsteps, ?_⟩
  rw [hpending, hfinished]
  unfold firstBest
  rw [List.mergeSort_nil, List.take_nil, List.nil_append]

theorem limitReached_one {limit : Nat} (h : limit = 0 ∨ 2 ≤ limit) :
    limitReached limit 1 = false := by
  unfold limitReached
  rcases h with rfl | h
  · rfl
  · rw [decide_eq_false (by omega), Bool.and_false]

/-- A search whose first step offers final states finishes the best of them in the second
round. -/
theorem exists_levels_of_final {k limit : Nat} {states : List (State D κ R)}
    (hroot : (State.initial program env).scored S.score = some root)
    (hstep : S.step root = .ok (.pending states)) (hfinal : ∀ t ∈ S.admitted states, S.Final t)
    (hlimit : limit = 0 ∨ 2 ≤ limit) (hfuel : 3 ≤ S.fuel) :
    ∃ n, (S.levels k limit S.fuel 0 (S.startLevel k program env)).value =
      .ok ({ frontier := [], finished := firstBest k (S.admitted states) }, n) := by
  obtain ⟨fuel, hfuel⟩ : ∃ fuel, S.fuel = fuel + 3 := ⟨S.fuel - 3, by omega⟩
  have hone : limitReached limit 1 = false := limitReached_one hlimit
  have hzero : limitReached limit 0 = false := by
    cases h : limitReached limit 0 with
    | false => rfl
    | true => rw [limitReached_mono (Nat.zero_le 1) h] at hone; cases hone
  have hkept : ∀ t ∈ firstBest k (S.admitted states), S.Final t :=
    fun t ht => hfinal t (mem_of_mem_firstBest ht)
  rw [hfuel]
  rcases Nat.eq_zero_or_pos k with rfl | hk
  · -- there is no room for the program itself
    exact ⟨0, levels_of_stop (.inl rfl)⟩
  rw [startLevel_eq hk hroot, levels_of_go (List.cons_ne_nil _ _) hzero,
    nextLevel_of_pending k hstep]
  show ∃ n, (S.levels k limit (fuel + 2) 1 _).value = _
  by_cases hempty : firstBest k (S.admitted states) = []
  · -- nothing has come out of the first round, so there is no second one
    rw [hempty]
    exact ⟨1, levels_of_stop (.inl rfl)⟩
  · rw [levels_of_go hempty hone, nextLevel_of_final k hkept]
    exact ⟨2, levels_of_stop (.inl rfl)⟩

variable [LawfulScalar R]

/-- The executions of such a search are the first ones of a single list, for beams of all
sizes. -/
theorem exists_executions_of_final {states : List (State D κ R)}
    (hroot : (State.initial program env).scored S.score = some root)
    (hstep : S.step root = .ok (.pending states)) (hfinal : ∀ t ∈ S.admitted states, S.Final t)
    (hfuel : 3 ≤ S.fuel) :
    ∃ executions : List (Execution (Value D R) D R), ∀ k limit, limit = 0 ∨ 2 ≤ limit →
      ∃ m, (S.beamSearch { beamSize := k, maxIterations := limit } program env).value = .ok m ∧
        m.executions = executions.take k := by
  let sorted := (S.admitted states).mergeSort fun s t => !Scalar.below s.logProb t.logProb
  obtain ⟨executions, hexec⟩ : ∃ executions, sorted.mapM State.execution = .ok executions :=
    exists_mapM_eq_ok fun t ht => (hfinal t (List.mem_mergeSort.mp ht)).execution
  refine ⟨executions, fun k limit hlimit => ?_⟩
  obtain ⟨n, hlevels⟩ := exists_levels_of_final (k := k) hroot hstep hfinal hlimit hfuel
  have hkept : (firstBest k (S.admitted states)).mapM State.execution =
      .ok (executions.take k) :=
    mapM_of_forall₂ (List.forall₂_take k (forall₂_of_mapM hexec))
  refine ⟨{ executions := executions.take k, iterations := n },
    beamSearch_eq_ok_iff.mpr ⟨_, hlevels, ?_⟩, rfl⟩
  dsimp only
  rw [firstBest_firstBest, hkept]

variable [NeutralZero R]

/-- What comes out of a collapsed program is final, if states without a choice score zero. -/
theorem final_of_collapsed (hzero : ∀ e, Scalar.isZero (S.score none none e) = true)
    (hfuel : 0 < S.fuel) (hplain : Scalar.isNegZero path.logProb = false)
    {results : List (State D κ R)} (hresults : S.resolve inner path = .ok results) :
    S.step (.root (.collapsed inner) [] path) = .ok (.pending (results.map (·.onto []))) ∧
      ∀ t ∈ S.admitted (results.map (·.onto [])), S.Final t := by
  obtain ⟨fuel, hfuel⟩ : ∃ fuel, S.fuel = fuel + 1 := ⟨S.fuel - 1, by omega⟩
  have hV := transparent_of_isZero hzero
  have hadv : S.Advances (.root (.collapsed inner) [] path) (.collapsed inner [] path) :=
    advances_of_stop rfl
  constructor
  · have hopen : advance S.codes S.graph S.fuel (.collapsed inner) [] path =
        .ok (.collapsed inner [] path) := by
      rw [hfuel]
      rfl
    unfold step stepWith State.root
    dsimp only
    rw [hopen]
    show (S.resolve inner path >>= fun results => _) = _
    rw [hresults]
    rfl
  · intro t ht
    obtain ⟨_, hmem, hscore⟩ := List.mem_filterMap.mp ht
    obtain ⟨u, hu, rfl⟩ := List.mem_map.mp hmem
    -- a result is the end of a route through the part, and goes on with its own log-weight
    obtain ⟨inside, v, value, path', hin, hend, rfl⟩ :=
      (collects_of_resolve hresults).exists_label u hu
    have hsame := scored_onto_finished (s := .root (.collapsed inner) [] path) hV trivial hplain
      hadv hin hend (admissible_of_scored hscore)
    cases hscore.symm.trans hsame
    refine ⟨step_of_finished ?_, hsame, _, State.execution_eq_ok_iff.mpr ⟨value, rfl, rfl⟩⟩
    rw [hfuel]
    rfl

end Rounds

/-! ## The same walks -/

section Walks

variable [Scalar R] {S : Setting D κ R} {inner : Program D κ R} {env : Env D R}

theorem walked_iff_of_collapsed {choices : List Nat} {e : Execution (Value D R) D R} :
    S.Walked (.collapsed inner) env choices e ↔ S.Walked inner env choices e := by
  have hadv : ∀ path : Path D R,
      S.Advances (.root (.collapsed inner) [] path) (.collapsed inner [] path) :=
    fun path => advances_of_stop rfl
  constructor
  · rintro ⟨root, n, value, path', u, hroot, harr, hscore, rfl⟩
    obtain ⟨path, rfl, hall⟩ := exists_path_of_initial hroot
    obtain ⟨m, -, harr⟩ := (arrives_iff_of_collapsed (hadv path)).mp harr
    exact ⟨_, m, value, path', u, hall _, harr, hscore, rfl⟩
  · rintro ⟨root, n, value, path', u, hroot, harr, hscore, rfl⟩
    obtain ⟨path, rfl, hall⟩ := exists_path_of_initial hroot
    exact ⟨_, n + 1, value, path', u, hall _,
      (arrives_iff_of_collapsed (hadv path)).mpr ⟨n, rfl, harr⟩, hscore, rfl⟩

variable [LawfulScalar R] [NeutralZero R] {code : κ → κ → Prop}

/-- Exhaustive searches of a program and of the collapsed one find the same executions. -/
theorem perm_of_collapsed (hS : S.IgnoresTimers code) (hinner : inner.Like code inner)
    (hzero : ∀ e, Scalar.isZero (S.score none none e) = true) {fuel width width' : Nat}
    {m m' : Marginals (Value D R) D R}
    (hm : ((S.withFuel fuel).beamSearch (.exhaustive width) (.collapsed inner) env).value = .ok m)
    (hroom : S.Exhausts width (.collapsed inner) env)
    (hm' : (S.beamSearch (.exhaustive width') inner env).value = .ok m')
    (hroom' : S.Exhausts width' inner env) :
    (m.executions.map Execution.untimed).Perm (m'.executions.map Execution.untimed) := by
  have hV := transparent_of_isZero hzero
  have hwalks := lists_walked hS hV (.collapsed hinner) (fun _ _ => trivial)
    (lists_executions_withFuel hm hroom)
  have hwalks' := lists_walked hS hV hinner (fun _ _ => trivial) (lists_executions hm' hroom')
  simp only [walked_iff_of_collapsed] at hwalks
  refine hwalks.perm_of_functional hwalks' ?_ ?_
  · rintro choices x y ⟨e, he, rfl⟩ ⟨e', he', rfl⟩
    rw [he.unique he']
  · rintro choices x ⟨e, he, -⟩
    exact ⟨e, he⟩

end Walks

/-! ## The best executions -/

section Best

variable [Scalar R] {S : Setting D κ R} {inner : Program D κ R} {env : Env D R}
  {code : κ → κ → Prop}

/-- Whether the score rejects a program depends on the environment alone. -/
theorem rejected_of_rejected {program program' : Program D κ R}
    (h : (State.initial program env).scored S.score = none) :
    (State.initial program' env).scored S.score = none := by
  simp only [State.scored] at h
  split at h
  · cases h
  · exact if_neg ‹_›

theorem executions_eq_nil_of_rejected [LawfulScalar R] {program : Program D κ R}
    (hroot : (State.initial program env).scored S.score = none) {config : SearchConfig}
    {m : Marginals (Value D R) D R}
    (hm : (S.beamSearch config program env).value = .ok m) : m.executions = [] := by
  refine List.eq_nil_iff_forall_not_mem.mpr fun e he => ?_
  obtain ⟨route, u, value, ⟨s, ⟨root, hsome, -⟩, -⟩, -⟩ := exists_survives_of_mem hm he
  rw [hroot] at hsome
  cases hsome

variable [OrderedScalar R]

/-- The same log-weights have one descending order only. -/
theorem descending_eq_of_perm {xs ys : List R} (h : xs.Perm ys) :
    descending xs = descending ys := by
  have hsorted : ∀ zs : List R,
      (descending zs).Pairwise fun x y => (!Scalar.below x y) = true :=
    List.pairwise_mergeSort (fun x y z => bestFirst_trans (x, ()) (y, ()) (z, ()))
      (fun x y => bestFirst_total (x, ()) (y, ()))
  refine List.Perm.eq_of_pairwise ?_ (hsorted xs) (hsorted ys)
    ((List.mergeSort_perm xs _).trans (h.trans (List.mergeSort_perm ys _).symm))
  intro x y _ _ hxy hyx
  rw [Bool.not_eq_true'] at hxy hyx
  exact OrderedScalar.eq_of_not_below x y hxy hyx

/-- The first entries of a sorted list of all executions are the best ones. -/
theorem bestOf_take {k : Nat} {all sorted : List (Execution (Value D R) D R)}
    (hperm : (sorted.map Execution.untimed).Perm (all.map Execution.untimed))
    (hsorted : descending (sorted.map (·.logProb)) = sorted.map (·.logProb)) :
    BestOf k all (sorted.take k) := by
  have hlogs : (sorted.map (·.logProb)).Perm (all.map (·.logProb)) := by
    have h := hperm.map (·.logProb)
    rwa [List.map_map, List.map_map] at h
  refine ⟨?_, ?_, ?_⟩
  · have hlength := hperm.length_eq
    rw [List.length_map, List.length_map] at hlength
    rw [List.length_take, hlength]
  · rw [List.map_take]
    exact (List.take_sublist _ _).subperm.trans hperm.subperm
  · rw [← descending_eq_of_perm hlogs, hsorted, List.map_take]

/-- **Collapsing makes a bounded beam exact.** If an exhaustive search of a program
succeeds, states without a choice score zero and nobody looks at timers, then a beam search
of the collapsed program returns the best executions of that search, as many as its beam has
room for, unless it is stopped before the second round. -/
theorem bestOf_of_collapsed [NeutralZero R] (hS : S.IgnoresTimers code)
    (hinner : inner.Like code inner) (hzero : ∀ e, Scalar.isZero (S.score none none e) = true)
    {width : Nat} {m : Marginals (Value D R) D R}
    (hm : (S.beamSearch (.exhaustive width) inner env).value = .ok m)
    (hroom : S.Exhausts width inner env) :
    ∃ fuel₀, ∀ fuel ≥ fuel₀, ∀ k limit, limit = 0 ∨ 2 ≤ limit →
      ∃ m', ((S.withFuel fuel).beamSearch { beamSize := k, maxIterations := limit }
        (.collapsed inner) env).value = .ok m' ∧ BestOf k m.executions m'.executions := by
  cases hroot : (State.initial inner env).scored S.score with
  | none =>
      have hroot' : (State.initial (.collapsed inner) env).scored S.score = none :=
        rejected_of_rejected hroot
      refine ⟨1, fun fuel hfuel k limit _ => ⟨_,
        beamSearch_of_rejected (S := S.withFuel fuel) hroot' hfuel k limit, ?_⟩⟩
      rw [executions_eq_nil_of_rejected hroot hm]
      exact ⟨(Nat.min_zero k).symm, .refl _, by simp [descending]⟩
  | some root =>
      have hends := hroom.endsWithin hm hroot
      obtain ⟨-, hplain⟩ := plain_of_scored hroot Scalar.isNegZero_zero
      obtain ⟨path, rfl, hall⟩ := exists_path_of_initial hroot
      obtain ⟨fuel₁, results, hresults⟩ := exists_resolve_eq_ok hS hinner hends
      refine ⟨max 3 fuel₁, fun fuel hfuel => ?_⟩
      obtain ⟨hthree, hfuel₁⟩ := max_le_iff.mp hfuel
      have hroot' : (State.initial (.collapsed inner) env).scored (S.withFuel fuel).score =
          some (.root (.collapsed inner) [] path) := hall _
      obtain ⟨hstep, hfinal⟩ := final_of_collapsed (S := S.withFuel fuel) hzero
        (by show 0 < fuel; omega) hplain (hresults fuel hfuel₁)
      obtain ⟨executions, hsearch⟩ := exists_executions_of_final hroot' hstep hfinal hthree
      intro k limit hlimit
      obtain ⟨m', hm', hkept⟩ := hsearch k limit hlimit
      refine ⟨m', hm', ?_⟩
      -- an exhaustive search of the collapsed program, in a beam that is no smaller
      have hends' : (S.withFuel fuel).EndsWithin 2 (.root (.collapsed inner) [] path) :=
        endsWithin_succ_iff.mpr ⟨_, hstep, fun t ht => .of_nil (hfinal t ht).step rfl⟩
      let size := max k ((S.withFuel fuel).routeCount 2 (.root (.collapsed inner) [] path))
      have hsize : (S.withFuel fuel).routeCount 2 (.root (.collapsed inner) [] path) ≤ size :=
        le_max_right _ _
      obtain ⟨hroom', -⟩ := hends'.beamSearch hroot' hthree hsize
      obtain ⟨m₀, hm₀, hall₀⟩ := hsearch size 0 (.inl rfl)
      have hperm := perm_of_collapsed hS hinner hzero hm₀ (exhausts_withFuel.mp hroom') hm hroom
      have htake : m'.executions = m₀.executions.take k := by
        rw [hkept, hall₀, List.take_take, min_eq_left (le_max_left _ _)]
      rw [htake]
      exact bestOf_take hperm (descending_executions hm₀)

end Best

end Setting

/-! ### A lopsided coin -/

/-- A coin whose two sides weigh differently. -/
noncomputable def lopsided : Program Bool Unit Exact :=
  .categorical none [(false, .real 0), (true, .real 1)] none

/-- A beam with room for three states finds both sides of the coin. -/
theorem exhausts_lopsided : (travel .zero).Exhausts 3 lopsided .init ∧
    ∃ m, ((travel .zero).beamSearch (.exhaustive 3) lopsided .init).value = .ok m ∧
      ∀ side, ∃ e ∈ m.executions, e.value = .data side := by
  obtain ⟨root, o, s, t, u, v, hroot, ho, hpending, hu, hv⟩ : ∃ root o s t u v,
      (State.initial lopsided .init).scored (travel .zero).score = some root ∧
      (travel .zero).step root = .ok o ∧ (travel .zero).pendingOf o = [s, t] ∧
      (travel .zero).step s = .ok (.finished u) ∧ (travel .zero).step t = .ok (.finished v) :=
    ⟨_, _, _, _, _, _, rfl, rfl, rfl, rfl, rfl⟩
  have hends : (travel .zero).EndsWithin 2 root := by
    refine Setting.endsWithin_succ_iff.mpr ⟨o, ho, fun t' ht' => ?_⟩
    rw [hpending] at ht'
    rcases List.mem_pair.mp ht' with rfl | rfl
    · exact .of_nil hu rfl
    · exact .of_nil hv rfl
  have hcount : (travel .zero).routeCount 2 root = 3 := by
    rw [Setting.routeCount_of_step ho, hpending, List.map_cons, List.map_singleton,
      Setting.routeCount_of_step hu, Setting.routeCount_of_step hv]
    rfl
  obtain ⟨hroom, m, hm⟩ := hends.beamSearch hroot (by decide) hcount.le
  refine ⟨hroom, m, hm, fun side => ?_⟩
  obtain ⟨e, he, hside⟩ : ∃ e, (travel .zero).Survives lopsided .init
      [.take (if side then 1 else 0)] e ∧ e.value = .data side := by
    cases side <;> exact ⟨_, ⟨_, _, ⟨_, ⟨_, rfl, .take ⟨1, rfl⟩ rfl rfl .nil⟩, _, _, ⟨1, rfl⟩, rfl⟩,
      rfl, rfl⟩, rfl⟩
  exact ⟨e, (Setting.mem_executions_iff hm hroom).mpr ⟨_, he⟩, hside⟩

/-- A beam with room for one state keeps the better one of the two executions, if the coin
is collapsed. -/
theorem bestOf_lopsided : ∃ m fuel m',
    ((travel .zero).beamSearch (.exhaustive 3) lopsided .init).value = .ok m ∧
    (∀ side, ∃ e ∈ m.executions, e.value = .data side) ∧
    (((travel .zero).withFuel fuel).beamSearch { beamSize := 1, maxIterations := 2 }
      (.collapsed lopsided) .init).value = .ok m' ∧
    BestOf 1 m.executions m'.executions := by
  obtain ⟨hroom, m, hm, hsides⟩ := exhausts_lopsided
  obtain ⟨fuel₀, hsearch⟩ := Setting.bestOf_of_collapsed ignoresTimers_travel
    (Program.Like.refl (fun _ => trivial) lopsided) (fun _ => isZero_zero) hm hroom
  obtain ⟨m', hm', hbest⟩ := hsearch fuel₀ le_rfl 1 2 (.inr le_rfl)
  exact ⟨m, fuel₀, m', hm, hsides, hm', hbest⟩

end ChoiceSearch
