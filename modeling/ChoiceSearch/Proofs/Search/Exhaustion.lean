import ChoiceSearch.Proofs.Search.Agreement

/-!
# Exhaustive beams

A beam is exhaustive for a program if it has room for every level and for everything that
finishes (`Setting.Exhausts`). The executions of a search without a limit on its rounds are
then the ends of all surviving paths (`Setting.lists_executions`).

If every step of a choice tree succeeds and no path is longer than the fuel, a beam with
room for all routes of the tree is exhaustive and its search succeeds
(`Setting.EndsWithin.beamSearch`). Conversely, the tree of a program ends if an exhaustive
search of it succeeds (`Setting.Exhausts.endsWithin`).
-/

namespace ChoiceSearch

variable {D κ R : Type} [Scalar R]

namespace Setting

/-- A beam drops no state of a program within its limit and no result. -/
structure Unpruned (S : Setting D κ R) (config : SearchConfig) (program : Program D κ R)
    (env : Env D R) : Prop where
  levels : S.Wide config.beamSize config.maxIterations program env
  results : {route | limitReached config.maxIterations route.length = false ∧
    ∃ e, S.Survives program env route e}.encard ≤ config.beamSize

/-- A beam of the given width drops no state of a program and no result. -/
structure Exhausts (S : Setting D κ R) (width : Nat) (program : Program D κ R) (env : Env D R) :
    Prop where
  levels : S.Wide width 0 program env
  results : {route | ∃ e, S.Survives program env route e}.encard ≤ width

variable {S : Setting D κ R} {program : Program D κ R} {env : Env D R}

theorem exhausts_withFuel {fuel width : Nat} :
    (S.withFuel fuel).Exhausts width program env ↔ S.Exhausts width program env := by
  constructor <;> rintro ⟨hlevels, hresults⟩
  · simp only [Wide, reaches_withFuel] at hlevels
    simp only [survives_withFuel] at hresults
    exact ⟨hlevels, hresults⟩
  · refine ⟨?_, ?_⟩
    · simpa only [Wide, reaches_withFuel] using hlevels
    · simpa only [survives_withFuel] using hresults

/-! ## Finite trees -/

/-- Every step below a state succeeds, and no path has more than `n` of them. -/
def EndsWithin (S : Setting D κ R) : Nat → State D κ R → Prop
  | 0, _ => False
  | n + 1, s =>
    match S.step s with
    | .error _ => False
    | .ok (.finished _) => True
    | .ok (.pending states) => ∀ t ∈ S.admitted states, S.EndsWithin n t

/-- The number of states on paths of at most `n` steps below a state. -/
def routeCount (S : Setting D κ R) : Nat → State D κ R → Nat
  | 0, _ => 0
  | n + 1, s =>
    match S.step s with
    | .ok (.pending states) => 1 + ((S.admitted states).map (S.routeCount n)).sum
    | _ => 1

theorem step_of_finished {s : State D κ R} {value : Value D R} {path : Path D R}
    (h : advance S.codes S.graph S.fuel s.program s.stack s.path = .ok (.finished value path)) :
    S.step s = .ok (.finished (.finished value path)) := by
  unfold step stepWith
  rw [h]
  rfl

theorem endsWithin_succ_iff {n : Nat} {s : State D κ R} :
    S.EndsWithin (n + 1) s ↔ ∃ o, S.step s = .ok o ∧ ∀ t ∈ S.pendingOf o, S.EndsWithin n t := by
  rw [EndsWithin]
  cases S.step s with
  | error halt => exact ⟨False.elim, fun ⟨_, h, _⟩ => by cases h⟩
  | ok o =>
      cases o with
      | finished u => exact ⟨fun _ => ⟨_, rfl, fun _ ht => by cases ht⟩, fun _ => trivial⟩
      | pending states =>
          exact ⟨fun h => ⟨_, rfl, h⟩, fun ⟨_, heq, h⟩ => by cases heq; exact h⟩

theorem EndsWithin.of_single {n : Nat} {s t : State D κ R} {o : Step D κ R} (ho : S.step s = .ok o)
    (hpending : S.pendingOf o = [t]) (h : S.EndsWithin n t) : S.EndsWithin (n + 1) s := by
  refine endsWithin_succ_iff.mpr ⟨o, ho, fun t' ht' => ?_⟩
  rw [hpending] at ht'
  rw [List.mem_singleton.mp ht']
  exact h

theorem EndsWithin.of_nil {n : Nat} {s : State D κ R} {o : Step D κ R} (ho : S.step s = .ok o)
    (hpending : S.pendingOf o = []) : S.EndsWithin (n + 1) s := by
  refine endsWithin_succ_iff.mpr ⟨o, ho, fun t ht => ?_⟩
  rw [hpending] at ht
  cases ht

theorem routeCount_of_step {n : Nat} {s : State D κ R} {o : Step D κ R} (h : S.step s = .ok o) :
    S.routeCount (n + 1) s = 1 + ((S.pendingOf o).map (S.routeCount n)).sum := by
  rw [routeCount, h]
  cases o <;> rfl

theorem encard_routes_le {s : State D κ R} {count : State D κ R → Nat} {labels : List Decision}
    {states : List (State D κ R)} (h : List.Forall₂ (S.Offers s) labels states)
    (hcount : ∀ t ∈ states, {route | ∃ u, S.Follows id t route u}.encard ≤ count t) :
    {route | ∃ d ∈ labels, ∃ t rest u, S.Offers s d t ∧ S.Follows id t rest u ∧
      route = d :: rest}.encard ≤ (states.map count).sum := by
  induction h with
  | nil => simp
  | @cons d t labels states hd _ ih =>
      have hrest := ih fun t ht => hcount t (List.mem_cons_of_mem _ ht)
      have hhead := hcount t List.mem_cons_self
      have hsplit : {route | ∃ d' ∈ d :: labels, ∃ t rest u, S.Offers s d' t ∧
            S.Follows id t rest u ∧ route = d' :: rest} ⊆
          (List.cons d) '' {route | ∃ u, S.Follows id t route u} ∪
          {route | ∃ d ∈ labels, ∃ t rest u, S.Offers s d t ∧ S.Follows id t rest u ∧
            route = d :: rest} := by
        rintro route ⟨d', hd', t', rest, u, hoffer, hu, rfl⟩
        rcases List.mem_cons.mp hd' with rfl | hd'
        · cases hd.unique hoffer
          exact .inl ⟨rest, ⟨u, hu⟩, rfl⟩
        · exact .inr ⟨d', hd', t', rest, u, hoffer, hu, rfl⟩
      have himage : (List.cons d '' {route | ∃ u, S.Follows id t route u}).encard =
          {route | ∃ u, S.Follows id t route u}.encard :=
        List.cons_injective.encard_image _
      calc _ ≤ _ := Set.encard_le_encard hsplit
        _ ≤ _ := Set.encard_union_le _ _
        _ ≤ (count t : ℕ∞) + ((states.map count).sum : ℕ) := by
            rw [himage]
            exact add_le_add hhead hrest
        _ = _ := by rw [List.map_cons, List.sum_cons]; push_cast; rfl

/-- What lies below the next level ends one step earlier. -/
theorem endsWithin_of_nextLevel {n k : Nat} {level next : Level D κ R}
    (h : ∀ s ∈ level.frontier, S.EndsWithin (n + 1) s) (hnext : S.nextLevel k level = .ok next) :
    ∀ t ∈ next.frontier, S.EndsWithin n t := by
  obtain ⟨steps, hsteps, rfl⟩ := nextLevel_eq_ok_iff.mp hnext
  intro t ht
  obtain ⟨o, ho, hto⟩ := List.mem_flatMap.mp (mem_of_mem_firstBest ht)
  obtain ⟨s, hs, hstep⟩ := exists_right_of_forall₂ (forall₂_of_mapM hsteps).flip o ho
  obtain ⟨o', hstep', hbelow⟩ := endsWithin_succ_iff.mp (h s hs)
  rw [hstep] at hstep'
  cases hstep'
  exact hbelow t hto

/-- Level after level, a tree that ends comes to its end. -/
theorem exists_levels_eq_ok {n k limit : Nat} (fuel i : Nat) (hfuel : n < fuel)
    {level : Level D κ R} (h : ∀ s ∈ level.frontier, S.EndsWithin n s) :
    ∃ r, (S.levels k limit fuel i level).value = .ok r := by
  induction n generalizing fuel i level with
  | zero =>
      obtain ⟨f, rfl⟩ : ∃ f, fuel = f + 1 := ⟨fuel - 1, by omega⟩
      have hempty : level.frontier = [] := List.eq_nil_iff_forall_not_mem.mpr h
      exact ⟨_, levels_of_stop (.inl hempty)⟩
  | succ n ih =>
      obtain ⟨f, rfl⟩ : ∃ f, fuel = f + 1 := ⟨fuel - 1, by omega⟩
      by_cases hstop : level.frontier = [] ∨ limitReached limit i = true
      · exact ⟨_, levels_of_stop hstop⟩
      · obtain ⟨hne, hlimit⟩ := not_or.mp hstop
        rw [Bool.not_eq_true] at hlimit
        obtain ⟨steps, hsteps⟩ := exists_mapM_eq_ok fun s hs =>
          (endsWithin_succ_iff.mp (h s hs)).imp fun _ ho => ho.1
        have hnext := (nextLevel_eq_ok_iff (k := k)).mpr ⟨steps, hsteps, rfl⟩
        rw [levels_of_go hne hlimit, hnext]
        exact ih f (i + 1) (by omega) (endsWithin_of_nextLevel h hnext)

variable [LawfulScalar R]

/-! ## The executions of an exhaustive search -/

/-- What a search without losses keeps of what has finished is listed by the surviving paths
within the limit, and none is missing. -/
theorem lists_kept {config : SearchConfig} {n : Nat} {level : Level D κ R}
    (hrun : (S.levels config.beamSize config.maxIterations S.fuel 0
      (S.startLevel config.beamSize program env)).value = .ok (level, n))
    (hroom : S.Unpruned config program env) :
    Lists (S.Ends program env)
      (fun route => limitReached config.maxIterations route.length = false ∧
        ∃ u, S.Ends program env route u) (firstBest config.beamSize level.finished) := by
  obtain ⟨hsurvey, hstop⟩ := surveyed_levels (surveyed_start _ _ _ _) hrun
  refine (hsurvey.finished.firstBest (k := config.beamSize)
    {route | limitReached config.maxIterations route.length = false ∧
      ∃ e, S.Survives program env route e}
    fun _ _ h => ⟨h.2.2, h.1.exists_execution⟩).imp (fun _ _ _ h => h.1) ?_
  rintro route ⟨hwithin, u, hends⟩
  have hlength := hsurvey.finished_all hstop hroom.levels hends hwithin
  exact ⟨hroom.results, hroom.levels, hlength, u, hends⟩

omit [LawfulScalar R] in
/-- An exhaustive beam drops nothing of a search without a limit. -/
theorem Exhausts.unpruned {width : Nat} (h : S.Exhausts width program env) :
    S.Unpruned (.exhaustive width) program env :=
  ⟨h.levels, (Set.encard_le_encard fun _ hr => hr.2).trans h.results⟩

/-- The executions are listed by the surviving paths, and no surviving path is missing. -/
theorem lists_executions {width : Nat} {m : Marginals (Value D R) D R}
    (hm : (S.beamSearch (.exhaustive width) program env).value = .ok m)
    (hroom : S.Exhausts width program env) :
    Lists (S.Survives program env) (fun route => ∃ e, S.Survives program env route e)
      m.executions := by
  obtain ⟨level, hrun, hexec⟩ := beamSearch_eq_ok_iff.mp hm
  obtain ⟨routes, hnodup, hall, hcov⟩ := lists_kept hrun hroom.unpruned
  refine ⟨routes, hnodup, forall₂_trans hall (forall₂_of_mapM hexec) ?_, ?_⟩
  · rintro route u e hends hu
    obtain ⟨value, hprogram, rfl⟩ := State.execution_eq_ok_iff.mp hu
    exact ⟨u, value, hends, hprogram, rfl⟩
  · rintro route ⟨e, u, value, hends, -⟩
    exact hcov route ⟨rfl, u, hends⟩

/-- Surviving paths list the executions of a search with any fuel. -/
theorem lists_executions_withFuel {fuel width : Nat} {m : Marginals (Value D R) D R}
    (hm : ((S.withFuel fuel).beamSearch (.exhaustive width) program env).value = .ok m)
    (hroom : S.Exhausts width program env) :
    Lists (S.Survives program env) (fun route => ∃ e, S.Survives program env route e)
      m.executions :=
  (lists_executions hm (exhausts_withFuel.mpr hroom)).imp (fun _ _ _ => survives_withFuel.mp)
    fun _ ⟨e, he⟩ => ⟨e, survives_withFuel.mpr he⟩

/-- The executions are the ends of the surviving paths. -/
theorem mem_executions_iff {width : Nat} {m : Marginals (Value D R) D R}
    (hm : (S.beamSearch (.exhaustive width) program env).value = .ok m)
    (hroom : S.Exhausts width program env) {e : Execution (Value D R) D R} :
    e ∈ m.executions ↔ ∃ route, S.Survives program env route e := by
  have hlists := lists_executions hm hroom
  exact ⟨hlists.exists_label e, fun ⟨route, h⟩ =>
    hlists.mem (fun _ _ _ => Survives.unique) ⟨e, h⟩ h⟩

/-! ## Room for a finite tree -/

/-- A tree that ends has no more routes than states. -/
theorem EndsWithin.encard_le {n : Nat} {s : State D κ R} (h : S.EndsWithin n s) :
    {route | ∃ u, S.Follows id s route u}.encard ≤ S.routeCount n s := by
  induction n generalizing s with
  | zero => exact h.elim
  | succ n ih =>
      obtain ⟨o, hstep, hbelow⟩ := endsWithin_succ_iff.mp h
      obtain ⟨labels, -, hall, hcov⟩ := lists_pendingOf hstep
      have hsplit : {route | ∃ u, S.Follows id s route u} ⊆ {[]} ∪
          {route | ∃ d ∈ labels, ∃ t rest u, S.Offers s d t ∧ S.Follows id t rest u ∧
            route = d :: rest} := by
        rintro route ⟨u, hu⟩
        cases route with
        | nil => exact .inl rfl
        | cons d rest =>
            obtain ⟨t, hoffer, hrest⟩ := follows_cons_iff.mp hu
            exact .inr ⟨d, hcov d ⟨t, hoffer⟩, t, rest, u, hoffer, hrest, rfl⟩
      calc _ ≤ _ := Set.encard_le_encard hsplit
        _ ≤ _ := Set.encard_union_le _ _
        _ ≤ (1 : ℕ∞) + (((S.pendingOf o).map (S.routeCount n)).sum : ℕ) := by
            rw [Set.encard_singleton]
            exact add_le_add le_rfl (encard_routes_le hall fun t ht => ih (hbelow t ht))
        _ = _ := by rw [routeCount_of_step hstep]; push_cast; rfl

theorem exists_executions {k limit n fuel : Nat} {level : Level D κ R}
    (h : (S.levels k limit fuel 0 (S.startLevel k program env)).value = .ok (level, n)) :
    ∃ executions, (firstBest k level.finished).mapM State.execution = .ok executions := by
  obtain ⟨hsurvey, -⟩ := surveyed_levels (surveyed_start k limit program env) h
  refine exists_mapM_eq_ok fun u hu => ?_
  obtain ⟨route, hends, -, -⟩ := hsurvey.finished.exists_label u (mem_of_mem_firstBest hu)
  obtain ⟨value, hvalue⟩ := hends.exists_value
  exact ⟨_, State.execution_eq_ok_iff.mpr ⟨value, hvalue, rfl⟩⟩

/-- A search of a tree that ends within the fuel succeeds, whatever its beam and limit. -/
theorem EndsWithin.exists_beamSearch {n : Nat} {root : State D κ R} (h : S.EndsWithin n root)
    (hroot : (State.initial program env).scored S.score = some root) (hfuel : n < S.fuel)
    (config : SearchConfig) : ∃ m, (S.beamSearch config program env).value = .ok m := by
  have hstart : ∀ s ∈ (S.startLevel config.beamSize program env).frontier, S.EndsWithin n s := by
    intro s hs
    obtain ⟨s₀, hs₀, hscore⟩ := List.mem_filterMap.mp (mem_of_mem_firstBest hs)
    rw [List.mem_singleton.mp hs₀, hroot] at hscore
    cases hscore
    exact h
  obtain ⟨⟨level, i⟩, hlevels⟩ : ∃ r, (S.levels config.beamSize config.maxIterations S.fuel 0
      (S.startLevel config.beamSize program env)).value = .ok r :=
    exists_levels_eq_ok S.fuel 0 hfuel hstart
  obtain ⟨executions, hexec⟩ := exists_executions hlevels
  exact ⟨{ executions, iterations := i }, beamSearch_eq_ok_iff.mpr ⟨level, hlevels, hexec⟩⟩

/-- **A beam with room for all routes is exhaustive, and its search succeeds**, if the
choice tree ends within the fuel. -/
theorem EndsWithin.beamSearch {n : Nat} {root : State D κ R} (h : S.EndsWithin n root)
    (hroot : (State.initial program env).scored S.score = some root) (hfuel : n < S.fuel)
    {width : Nat} (hwidth : S.routeCount n root ≤ width) :
    S.Exhausts width program env ∧
      ∃ m, (S.beamSearch (.exhaustive width) program env).value = .ok m := by
  have hall : ∀ routes : Set (List Decision),
      (∀ route ∈ routes, ∃ s, S.Reaches program env route s) → routes.encard ≤ width := by
    intro routes hroutes
    refine (Set.encard_le_encard fun route hmem => ?_).trans
      (h.encard_le.trans (by exact_mod_cast hwidth))
    obtain ⟨s, root', hroot', hs⟩ := hroutes route hmem
    rw [hroot] at hroot'
    cases hroot'
    exact ⟨s, hs⟩
  refine ⟨⟨fun n _ => hall _ fun route hmem => hmem.2, hall _ ?_⟩,
    h.exists_beamSearch hroot hfuel (.exhaustive width)⟩
  rintro route ⟨e, u, value, ⟨s, hs, -⟩, -⟩
  exact ⟨s, hs⟩

/-- A beam with room for every level drops no offer: all of them are on the next level. -/
theorem exists_step_of_wide {width n : Nat} {level next : Level D κ R}
    (hwide : S.Wide width 0 program env) (h : S.Surveyed width 0 program env n level)
    (hnext : S.nextLevel width level = .ok next) {s : State D κ R} (hs : s ∈ level.frontier) :
    ∃ o, S.step s = .ok o ∧ ∀ t ∈ S.pendingOf o, t ∈ next.frontier := by
  obtain ⟨steps, hsteps, rfl⟩ := nextLevel_eq_ok_iff.mp hnext
  have hroom : (steps.flatMap S.pendingOf).length ≤ width := by
    have hcard := (h.lists_offers rfl hsteps).length_le_encard
      (s := {route | route.length = n + 1 ∧ ∃ s, S.Reaches program env route s})
      fun _ s hl => ⟨hl.2, s, hl.1⟩
    exact_mod_cast hcard.trans (hwide (n + 1) rfl)
  obtain ⟨o, ho, hstep⟩ := exists_right_of_forall₂ (forall₂_of_mapM hsteps) s hs
  exact ⟨o, hstep, fun t ht =>
    (firstBest_perm hroom).mem_iff.mpr (List.mem_flatMap.mpr ⟨o, ho, ht⟩)⟩

/-- Below a level that a search without losses has come to the end of, every tree ends. -/
theorem endsWithin_of_levels {width n fuel : Nat} {level : Level D κ R} {r : Level D κ R × Nat}
    (hwide : S.Wide width 0 program env) (h : S.Surveyed width 0 program env n level)
    (hrun : (S.levels width 0 fuel n level).value = .ok r) :
    ∀ s ∈ level.frontier, S.EndsWithin fuel s := by
  induction fuel generalizing n level with
  | zero => cases hrun
  | succ fuel ih =>
      intro s hs
      rw [levels_of_go (List.ne_nil_of_mem hs) rfl] at hrun
      obtain ⟨next, hnext, hrest⟩ := exists_of_bind_eq_ok hrun
      obtain ⟨o, hstep, hoffers⟩ := exists_step_of_wide hwide h hnext hs
      exact endsWithin_succ_iff.mpr
        ⟨o, hstep, fun t ht => ih (surveyed_next h rfl hnext) hrest t (hoffers t ht)⟩

/-- **The tree of a program ends if an exhaustive search does.** -/
theorem Exhausts.endsWithin {width : Nat} {m : Marginals (Value D R) D R} {root : State D κ R}
    (hroom : S.Exhausts width program env)
    (hm : (S.beamSearch (.exhaustive width) program env).value = .ok m)
    (hroot : (State.initial program env).scored S.score = some root) :
    S.EndsWithin S.fuel root := by
  obtain ⟨level, hrun, -⟩ := beamSearch_eq_ok_iff.mp hm
  have hstart := surveyed_start (S := S) width 0 program env
  have hreach : S.Reaches program env [] root := ⟨root, hroot, .nil⟩
  have hmem := hstart.frontier.mem (functional_reaches 0)
    ⟨hroom.levels, rfl, rfl, root, hreach⟩ ⟨hreach, rfl⟩
  exact endsWithin_of_levels hroom.levels hstart hrun root hmem

end Setting

end ChoiceSearch
