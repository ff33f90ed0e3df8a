import ChoiceSearch.Proofs.Search.Level

/-!
# The surviving paths of a beam search

Every execution that beam search returns is the end of a surviving path, no path is
returned twice, and a beam that is wide enough loses no path
(`Setting.survives_of_beamSearch`).

The invariant of the levels is `Setting.Surveyed`: the states of level `n` are listed
by the routes of length `n`, and what has finished is listed by shorter routes. That
no label is missing holds as long as no level has more surviving states than the beam
has room for.
-/

namespace ChoiceSearch

variable {D κ R : Type}

/-- The execution of a finished state. -/
theorem State.execution_eq_ok_iff {s : State D κ R} {e : Execution (Value D R) D R} :
    s.execution = .ok e ↔
      ∃ value, s.program = .value value ∧ e = { value, env := s.path.env, logProb := s.logProb } := by
  unfold State.execution
  constructor
  · intro h
    cases hprogram : s.program with
    | value v => rw [hprogram] at h; cases h; exact ⟨v, rfl, rfl⟩
    | _ => rw [hprogram] at h; cases h
  · rintro ⟨v, hprogram, rfl⟩
    rw [hprogram]
    rfl

variable [Scalar R]

/-- The first states of a listing are listed; none is lost if there are not too many. -/
theorem Lists.firstBest {ι : Type} {P : ι → State D κ R → Prop} {C : ι → Prop}
    {states : List (State D κ R)} (h : Lists P C states) {k : Nat} (labels : Set ι)
    (hlabels : ∀ l s, P l s → l ∈ labels) :
    Lists P (fun l => labels.encard ≤ k ∧ C l) (firstBest k states) := by
  have hperm : (states.mergeSort fun s t => !Scalar.below s.logProb t.logProb).Perm states :=
    List.mergeSort_perm _ _
  by_cases hk : labels.encard ≤ k
  · have hlen : states.length ≤ k := by
      have hcard := (h.length_le_encard hlabels).trans hk
      exact_mod_cast hcard
    have hall : ChoiceSearch.firstBest k states = states.mergeSort _ :=
      List.take_of_length_le (by rwa [List.length_mergeSort])
    rw [hall]
    exact (h.perm hperm.symm).imp (fun _ _ _ hl => hl) fun _ hl => hl.2
  · have hsub : (ChoiceSearch.firstBest k states).Subperm states :=
      (List.take_sublist _ _).subperm.trans hperm.subperm
    exact (h.subperm hsub).imp (fun _ _ _ hl => hl) fun _ hl => hk hl.1

namespace Setting

/-- A limit that is reached stays reached. -/
theorem limitReached_mono {limit m n : Nat} (hle : m ≤ n) (h : limitReached limit m = true) :
    limitReached limit n = true := by
  unfold limitReached at h ⊢
  rw [Bool.and_eq_true, decide_eq_true_iff] at h ⊢
  exact ⟨h.1, h.2.trans hle⟩

/-- Every level that is advanced has room in a beam of `k` states. -/
def Wide (S : Setting D κ R) (k limit : Nat) (program : Program D κ R) (env : Env D R) : Prop :=
  ∀ n, limitReached limit n = false →
    {route | route.length = n ∧ ∃ s, S.Reaches program env route s}.encard ≤ k

/-- What the level `n` of a search holds, in terms of routes. -/
structure Surveyed (S : Setting D κ R) (k limit : Nat) (program : Program D κ R)
    (env : Env D R) (n : Nat) (level : Level D κ R) : Prop where
  frontier : Lists (fun route s => S.Reaches program env route s ∧ route.length = n)
    (fun route => S.Wide k limit program env ∧ limitReached limit n = false ∧
      route.length = n ∧ ∃ s, S.Reaches program env route s) level.frontier
  finished : Lists (fun route u => S.Ends program env route u ∧ route.length < n ∧
      limitReached limit route.length = false)
    (fun route => S.Wide k limit program env ∧ route.length < n ∧
      ∃ u, S.Ends program env route u) level.finished

variable {S : Setting D κ R} {program : Program D κ R} {env : Env D R}

theorem functional_reaches (n : Nat) :
    Functional fun route s => S.Reaches program env route s ∧ route.length = n :=
  fun _ _ _ h h' => h.1.unique h'.1

/-- A route of one more decision. -/
theorem reaches_snoc_iff {route : List Decision} {d : Decision} {s : State D κ R} :
    S.Reaches program env (route ++ [d]) s ↔
      ∃ v, S.Reaches program env route v ∧ S.Offers v d s := by
  constructor
  · rintro ⟨root, hroot, hs⟩
    obtain ⟨v, hv, hoffer⟩ := follows_snoc_iff.mp hs
    exact ⟨v, ⟨root, hroot, hv⟩, hoffer⟩
  · rintro ⟨v, ⟨root, hroot, hv⟩, hoffer⟩
    exact ⟨root, hroot, follows_snoc_iff.mpr ⟨v, hv, hoffer⟩⟩

/-- What holds at the start and is kept by every step holds of every state on the way. -/
theorem Reaches.invariant [LawfulScalar R] {P : State D κ R → Prop}
    (hroot : ∀ root, (State.initial program env).scored S.score = some root → P root)
    (hstep : ∀ s, P s → ∃ o, S.step s = .ok o ∧ ∀ t ∈ S.pendingOf o, P t)
    {route : List Decision} {s : State D κ R} (h : S.Reaches program env route s) : P s := by
  induction route using List.reverseRecOn generalizing s with
  | nil =>
      obtain ⟨root, hadmitted, hs⟩ := h
      cases hs
      exact hroot _ hadmitted
  | append_singleton route d ih =>
      obtain ⟨v, hv, hoffer⟩ := reaches_snoc_iff.mp h
      obtain ⟨o, ho, hall⟩ := hstep v (ih hv)
      exact hall s (mem_pendingOf_of_offers ho hoffer)

/-- A route that leads somewhere passes through every level before. -/
theorem Reaches.exists_prefix {route : List Decision} {s : State D κ R} {n : Nat}
    (h : S.Reaches program env route s) (hn : n ≤ route.length) :
    ∃ early t, early.length = n ∧ S.Reaches program env early t := by
  obtain ⟨root, hroot, hs⟩ := h
  rw [← List.take_append_drop n route] at hs
  obtain ⟨v, hv, -⟩ := follows_append_iff.mp hs
  exact ⟨route.take n, v, List.length_take_of_le hn, root, hroot, hv⟩

/-- A surviving path ends in a value. -/
theorem Ends.exists_value {route : List Decision} {u : State D κ R}
    (h : S.Ends program env route u) : ∃ value, u.program = .value value := by
  obtain ⟨s, hs, value, path, hfin, hscore⟩ := h
  rw [State.eq_of_scored hscore]
  exact ⟨value, rfl⟩

theorem Ends.admissible {route : List Decision} {u : State D κ R}
    (h : S.Ends program env route u) : Scalar.admissible u.logProb = true := by
  obtain ⟨s, -, value, path, -, hscore⟩ := h
  exact (State.logProb_of_scored hscore).1

/-- A surviving path has an execution at its end. -/
theorem Ends.exists_execution {route : List Decision} {u : State D κ R}
    (h : S.Ends program env route u) : ∃ e, S.Survives program env route e := by
  obtain ⟨value, hvalue⟩ := h.exists_value
  exact ⟨_, u, value, h, hvalue, rfl⟩

/-- The first level holds the route without decisions. -/
theorem surveyed_start (k limit : Nat) (program : Program D κ R) (env : Env D R) :
    S.Surveyed k limit program env 0 (S.startLevel k program env) := by
  have hroot : Lists (fun route s => S.Reaches program env route s ∧ route.length = 0)
      (fun route => route.length = 0 ∧ ∃ s, S.Reaches program env route s)
      (S.admitted [.initial program env]) := by
    unfold admitted
    cases hscore : (State.initial program env).scored S.score with
    | none =>
        rw [List.filterMap_cons_none hscore]
        refine Lists.nil ?_
        rintro route ⟨-, s, root, hroot, -⟩
        rw [hscore] at hroot
        cases hroot
    | some root =>
        rw [List.filterMap_cons_some hscore]
        exact Lists.single (l := []) ⟨⟨root, hscore, .nil⟩, rfl⟩
          fun route h => List.length_eq_zero_iff.mp h.1
  refine ⟨?_, Lists.nil fun route h => Nat.not_lt_zero _ h.2.1⟩
  refine (hroot.firstBest {route | route.length = 0 ∧ ∃ s, S.Reaches program env route s}
    fun l s h => ⟨h.2, s, h.1⟩).imp (fun _ _ _ h => h) ?_
  rintro route ⟨hwide, hlimit, hlen, hreach⟩
  exact ⟨hwide 0 hlimit, hlen, hreach⟩

/-- A surveyed level at which nothing is left to do has seen all that finishes within the
limit. -/
theorem Surveyed.finished_all {k limit n : Nat} {level : Level D κ R}
    (h : S.Surveyed k limit program env n level)
    (hstop : level.frontier = [] ∨ limitReached limit n = true)
    (hwide : S.Wide k limit program env) {route : List Decision} {u : State D κ R}
    (hends : S.Ends program env route u) (hwithin : limitReached limit route.length = false) :
    route.length < n := by
  by_contra hlen
  have hle : n ≤ route.length := Nat.le_of_not_lt hlen
  cases hlimit : limitReached limit n with
  | true =>
      rw [limitReached_mono hle hlimit] at hwithin
      cases hwithin
  | false =>
      have hempty : level.frontier = [] := hstop.resolve_right (by rw [hlimit]; simp)
      obtain ⟨s, hs, -⟩ := hends
      obtain ⟨early, t, hearly, ht⟩ := hs.exists_prefix hle
      obtain ⟨labels, -, hall, hcov⟩ := h.frontier
      rw [hempty] at hall
      cases hall
      exact absurd (hcov early ⟨hwide, hlimit, hearly, t, ht⟩) List.not_mem_nil

variable [LawfulScalar R]

section Next

variable {k limit n : Nat} {level : Level D κ R} {steps : List (Step D κ R)}

/-- The offers of a level are listed by the routes of one more decision. -/
theorem Surveyed.lists_offers (h : S.Surveyed k limit program env n level)
    (hlimit : limitReached limit n = false) (hsteps : level.frontier.mapM S.step = .ok steps) :
    Lists (fun route s => S.Reaches program env route s ∧ route.length = n + 1)
      (fun route => S.Wide k limit program env ∧ route.length = n + 1 ∧
        ∃ s, S.Reaches program env route s) (steps.flatMap S.pendingOf) := by
  have hkids : List.Forall₂ (fun s ts => Lists (S.Offers s) (fun d => ∃ t, S.Offers s d t) ts)
      level.frontier (steps.map S.pendingOf) := by
    rw [List.forall₂_map_right_iff]
    exact (forall₂_of_mapM hsteps).imp fun s o hstep => lists_pendingOf hstep
  refine (h.frontier.flatten (functional_reaches n) (g := fun route d => route ++ [d])
    (fun _ _ _ _ heq => by simpa using heq) hkids).imp ?_ ?_
  · rintro _ t - ⟨route, d, s, rfl, ⟨hs, hlen⟩, hoffer⟩
    exact ⟨reaches_snoc_iff.mpr ⟨s, hs, hoffer⟩, by simp [hlen]⟩
  · rintro route ⟨hwide, hlen, t, ht⟩
    obtain rfl | ⟨early, d, rfl⟩ := List.eq_nil_or_concat' route
    · cases hlen
    obtain ⟨s, hs, hoffer⟩ := reaches_snoc_iff.mp ht
    have hearly : early.length = n := by simpa using hlen
    exact ⟨early, d, s, rfl, ⟨hwide, hlimit, hearly, s, hs⟩, ⟨hs, hearly⟩, t, hoffer⟩

omit [LawfulScalar R] in
/-- What finishes in a round is listed by the routes of the level. -/
theorem Surveyed.lists_endings (h : S.Surveyed k limit program env n level)
    (hlimit : limitReached limit n = false) (hsteps : level.frontier.mapM S.step = .ok steps) :
    Lists (fun route u => S.Ends program env route u ∧ route.length = n)
      (fun route => S.Wide k limit program env ∧ route.length = n ∧
        ∃ u, S.Ends program env route u) (steps.flatMap S.finishedOf) := by
  have hkids : List.Forall₂ (fun s us =>
      Lists (fun (_ : Unit) u => S.Finishes s u) (fun _ => ∃ u, S.Finishes s u) us)
      level.frontier (steps.map S.finishedOf) := by
    rw [List.forall₂_map_right_iff]
    exact (forall₂_of_mapM hsteps).imp fun s o hstep => lists_finishedOf hstep
  refine (h.frontier.flatten (functional_reaches n) (g := fun route (_ : Unit) => route)
    (fun _ _ _ _ heq => ⟨heq, rfl⟩) hkids).imp ?_ ?_
  · rintro _ u - ⟨route, _, s, rfl, ⟨hs, hlen⟩, hfin⟩
    exact ⟨⟨s, hs, hfin⟩, hlen⟩
  · rintro route ⟨hwide, hlen, u, s, hs, hfin⟩
    exact ⟨route, (), s, rfl, ⟨hwide, hlimit, hlen, s, hs⟩, ⟨hs, hlen⟩, u, hfin⟩

/-- The next level holds the routes of one more decision. -/
theorem surveyed_next {level' : Level D κ R} (h : S.Surveyed k limit program env n level)
    (hlimit : limitReached limit n = false) (hnext : S.nextLevel k level = .ok level') :
    S.Surveyed k limit program env (n + 1) level' := by
  obtain ⟨steps, hsteps, rfl⟩ := nextLevel_eq_ok_iff.mp hnext
  refine ⟨?_, ?_⟩
  · have hfirst := (h.lists_offers hlimit hsteps).firstBest (k := k)
      {route | route.length = n + 1 ∧ ∃ s, S.Reaches program env route s}
      fun l s h => ⟨h.2, s, h.1⟩
    refine hfirst.imp (fun _ _ _ h => h) ?_
    rintro route ⟨hwide, hlimit', hlen, hreach⟩
    exact ⟨hwide _ hlimit', hwide, hlen, hreach⟩
  · refine (h.finished.append (h.lists_endings hlimit hsteps) ?_).imp ?_ ?_
    · -- what finished before has a shorter route
      rintro route u v ⟨-, hlt, -⟩ ⟨-, heq⟩
      exact hlt.ne heq
    · rintro route u - (⟨hends, hlt, hwithin⟩ | ⟨hends, rfl⟩)
      · exact ⟨hends, Nat.lt_succ_of_lt hlt, hwithin⟩
      · exact ⟨hends, Nat.lt_succ_self _, hlimit⟩
    · rintro route ⟨hwide, hlen, hends⟩
      rcases Nat.lt_succ_iff_lt_or_eq.mp hlen with hlt | heq
      · exact .inl ⟨hwide, hlt, hends⟩
      · exact .inr ⟨hwide, heq, hends⟩

end Next

omit [LawfulScalar R] in
/-- What holds of a level and is kept from each level to the next one holds of the level at
which a search ends, and nothing is left to do there. -/
theorem levels_invariant {P : Nat → Level D κ R → Prop} {k limit : Nat}
    (hP : ∀ {n level level'}, P n level → limitReached limit n = false →
      S.nextLevel k level = .ok level' → P (n + 1) level')
    {fuel n n' : Nat} {level level' : Level D κ R} (h : P n level)
    (hrun : (S.levels k limit fuel n level).value = .ok (level', n')) :
    P n' level' ∧ (level'.frontier = [] ∨ limitReached limit n' = true) := by
  induction fuel generalizing n level with
  | zero => cases hrun
  | succ fuel ih =>
      by_cases hstop : level.frontier = [] ∨ limitReached limit n = true
      · cases (levels_of_stop hstop).symm.trans hrun
        exact ⟨h, hstop⟩
      · obtain ⟨hne, hlimit⟩ := not_or.mp hstop
        rw [Bool.not_eq_true] at hlimit
        rw [levels_of_go hne hlimit] at hrun
        obtain ⟨next, hnext, hrest⟩ := exists_of_bind_eq_ok hrun
        exact ih (hP h hlimit hnext) hrest

/-- The level at which a search ends has been surveyed, and nothing is left to do there. -/
theorem surveyed_levels {k limit : Nat} {fuel n n' : Nat} {level level' : Level D κ R}
    (h : S.Surveyed k limit program env n level)
    (hrun : (S.levels k limit fuel n level).value = .ok (level', n')) :
    S.Surveyed k limit program env n' level' ∧
      (level'.frontier = [] ∨ limitReached limit n' = true) :=
  levels_invariant (P := S.Surveyed k limit program env) surveyed_next h hrun

/-- Whatever beam search returns is listed by surviving paths. -/
theorem lists_found {config : SearchConfig} {m : Marginals (Value D R) D R}
    (h : (S.beamSearch config program env).value = .ok m) :
    Lists (S.Survives program env) (fun _ => False) m.executions := by
  obtain ⟨level, hrun, hexec⟩ := beamSearch_eq_ok_iff.mp h
  obtain ⟨hsurvey, -⟩ := surveyed_levels (surveyed_start _ _ _ _) hrun
  obtain ⟨routes, hnodup, hall, -⟩ :=
    hsurvey.finished.firstBest (k := config.beamSize) Set.univ fun _ _ _ => trivial
  refine ⟨routes, hnodup, forall₂_trans hall (forall₂_of_mapM hexec) ?_, fun _ => False.elim⟩
  rintro route u e ⟨hends, -⟩ hu
  obtain ⟨value, hprogram, rfl⟩ := State.execution_eq_ok_iff.mp hu
  exact ⟨u, value, hends, hprogram, rfl⟩

/-- Whatever beam search returns is the end of a surviving path. -/
theorem exists_survives_of_mem {config : SearchConfig} {m : Marginals (Value D R) D R}
    (h : (S.beamSearch config program env).value = .ok m) {e : Execution (Value D R) D R}
    (he : e ∈ m.executions) : ∃ route, S.Survives program env route e :=
  (lists_found h).exists_label e he

/-- The executions of a beam search are the ends of surviving paths within the limit, no
path twice. If no level has more surviving states than the beam has room for, and not
more paths finish, then every surviving path within the limit has its execution. -/
theorem survives_of_beamSearch {config : SearchConfig} {m : Marginals (Value D R) D R}
    (h : (S.beamSearch config program env).value = .ok m) :
    ∃ routes : List (List Decision), routes.Nodup ∧
      List.Forall₂ (fun route e => S.Survives program env route e ∧
        limitReached config.maxIterations route.length = false) routes m.executions ∧
      (S.Wide config.beamSize config.maxIterations program env →
        {route | limitReached config.maxIterations route.length = false ∧
          ∃ e, S.Survives program env route e}.encard ≤ config.beamSize →
        ∀ route e, S.Survives program env route e →
          limitReached config.maxIterations route.length = false →
          (route, e) ∈ routes.zip m.executions) := by
  obtain ⟨level, hrun, hexec⟩ := beamSearch_eq_ok_iff.mp h
  obtain ⟨hsurvey, hstop⟩ := surveyed_levels (surveyed_start _ _ _ _) hrun
  have hfirst := hsurvey.finished.firstBest (k := config.beamSize)
    {route | limitReached config.maxIterations route.length = false ∧
      ∃ e, S.Survives program env route e} ?_
  · obtain ⟨routes, hnodup, hall, hcov⟩ := hfirst
    have hpaths : List.Forall₂ (fun route e => S.Survives program env route e ∧
        limitReached config.maxIterations route.length = false) routes m.executions := by
      refine forall₂_trans hall (forall₂_of_mapM hexec) ?_
      rintro route u e ⟨hends, -, hwithin⟩ hu
      obtain ⟨value, hprogram, rfl⟩ := State.execution_eq_ok_iff.mp hu
      exact ⟨⟨u, value, hends, hprogram, rfl⟩, hwithin⟩
    refine ⟨routes, hnodup, hpaths, ?_⟩
    intro hwide hroom route e he hwithin
    obtain ⟨u, value, hends, -, -⟩ := id he
    have hlen := hsurvey.finished_all hstop hwide hends hwithin
    obtain ⟨e', hzip, he', -⟩ :=
      exists_mem_zip_of_forall₂ hpaths route (hcov route ⟨hroom, hwide, hlen, u, hends⟩)
    rwa [he.unique he']
  · rintro route u ⟨hends, -, hwithin⟩
    exact ⟨hwithin, hends.exists_execution⟩

end Setting

/-- On machine numbers, a search with room for all three ways to toss returns the ends of
surviving paths, the one with the most weight first. -/
theorem survives_tossWithin : ∃ m,
    (retosses.beamSearch { beamSize := 3, maxIterations := 0 } tossWithin .init).value = .ok m ∧
    m.executions.map (·.value) = [.data true, .data false, .data false] ∧
    ∃ routes : List (List Decision), routes.Nodup ∧
      List.Forall₂ (fun route e => retosses.Survives tossWithin .init route e ∧
        Setting.limitReached 0 route.length = false) routes m.executions ∧
      (retosses.Wide 3 0 tossWithin .init →
        {route | Setting.limitReached 0 route.length = false ∧
          ∃ e, retosses.Survives tossWithin .init route e}.encard ≤ (3 : Nat) →
        ∀ route e, retosses.Survives tossWithin .init route e →
          Setting.limitReached 0 route.length = false →
          (route, e) ∈ routes.zip m.executions) := by
  obtain ⟨m, hm, hsides⟩ : ∃ m,
      (retosses.beamSearch { beamSize := 3, maxIterations := 0 } tossWithin .init).value = .ok m ∧
      m.executions.map (·.value) = [.data true, .data false, .data false] := ⟨_, rfl, rfl⟩
  exact ⟨m, hm, hsides, Setting.survives_of_beamSearch hm⟩

end ChoiceSearch
