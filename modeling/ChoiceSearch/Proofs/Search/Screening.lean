import ChoiceSearch.Proofs.Scalar.Neutral
import ChoiceSearch.Proofs.Search.Exhaustion

/-!
# Screening

A score whose values are zeros and minus infinities screens states: it lets a state pass as
it is or rejects it. A search under such a score does what the search without a score does,
on fewer states. Wherever the two have got, what the screened search holds is a sublist of
what the other one holds: on the stack of a collapsed part (`Setting.exists_resolveAll`), in
the offers of a step (`Setting.exists_step`) and at every level, as long as the beam has room
(`Setting.exists_levels`). Sorting keeps sublists, so the executions are found in the same
order (`Setting.exists_beamSearch`).

The two searches are not in step: on the stack of a collapsed part and between the levels the
screened one is done earlier. The induction is on the fuel of the search without a score, and
where that one works on a state which was rejected, the other one waits.
-/

namespace ChoiceSearch

variable {D κ R : Type} [Scalar R]

namespace ExecutionScore

/-- The score lets a state pass, with a zero, or rejects it, with minus infinity. -/
def Screens (score : ExecutionScore D R) : Prop :=
  ∀ tag choice env, Scalar.isZero (score tag choice env) = true ∨
    Scalar.isNegInf (score tag choice env) = true

/-- The score does not reject the state. -/
def Accepts (score : ExecutionScore D R) (s : State D κ R) : Prop :=
  Scalar.isNegInf (score s.tag s.choice s.path.env) = false

variable [ScreeningScalar R]

/-- Without a score, admissible states are admitted as they are. -/
theorem scored_zero {s : State D κ R} (hs : Scalar.isNegZero s.logProb = false) :
    s.scored .zero = if Scalar.admissible s.logProb then some s else none := by
  have hsum : s.path.logProb + (zero : ExecutionScore D R) s.tag s.choice s.path.env =
      s.path.logProb := NeutralZero.add_of_isZero _ _ hs ScreeningScalar.isZero_zero
  unfold State.scored
  dsimp only
  rw [hsum]
  rfl

/-- A screening score admits what it accepts among the states that are admitted without it. -/
theorem Screens.scored_eq {score : ExecutionScore D R} (hscore : score.Screens)
    {s : State D κ R} (hs : Scalar.isNegZero s.logProb = false) :
    (score.Accepts s → s.scored score = s.scored .zero) ∧
      (¬ score.Accepts s → s.scored score = none) := by
  constructor
  · intro haccepts
    have hzero : Scalar.isZero (score s.tag s.choice s.path.env) = true :=
      (hscore _ _ _).resolve_right fun h => by
        rw [haccepts] at h
        cases h
    have hsum : s.path.logProb + score s.tag s.choice s.path.env = s.path.logProb :=
      NeutralZero.add_of_isZero _ _ hs hzero
    rw [scored_zero hs]
    unfold State.scored
    dsimp only
    rw [hsum]
    rfl
  · intro hrejects
    have hneg : Scalar.isNegInf (score s.tag s.choice s.path.env) = true := by
      simpa [Accepts] using hrejects
    unfold State.scored
    dsimp only
    rw [ScreeningScalar.not_admissible_add _ _ hneg]
    rfl

end ExecutionScore

namespace Setting

/-- The same search without a score. -/
def unscored (S : Setting D κ R) : Setting D κ R := { S with score := .zero }

variable {S : Setting D κ R} {program : Program D κ R} {env : Env D R}

/-- What the two searches leave of a step: they finish alike, or the screened one goes on
with some of the states of the other one. -/
inductive Within : Step D κ R → Step D κ R → Prop
  | finished (u : State D κ R) : Within (.finished u) (.finished u)
  | pending {states' states : List (State D κ R)} : states'.Sublist states →
      Within (.pending states') (.pending states)

variable [LawfulScalar R]

/-! ## Log-weights of offers -/

/-- What is offered within a collapsed part does not have the log-weight negative zero. -/
theorem isNegZero_of_offers {fuel : Nat} {s : State D κ R} {states : List (State D κ R)}
    (h : S.stepWith (fun inner path =>
      S.resolveAll fuel (hold .empty (.root inner [] path)) []) s = .ok (.pending states))
    (hs : Scalar.isNegZero s.logProb = false) :
    ∀ t ∈ states, Scalar.isNegZero t.logProb = false := by
  intro t ht
  have hleads := lists_leads_of_stepWith (fun _ _ _ => collects_of_resolveAll) h
  obtain ⟨d, hlead⟩ := hleads.exists_label t ht
  exact isNegZero_of_leads hlead hs

/-- What is on the stack of a collapsed part after some offers. -/
theorem isNegZero_of_foldl_offerHeld {states : List (State D κ R)}
    {pending : Unbounded R (State D κ R)}
    (hstates : ∀ s ∈ states, Scalar.isNegZero s.logProb = false)
    (hpending : ∀ entry ∈ pending.newestFirst, Scalar.isNegZero entry.2.logProb = false) :
    ∀ entry ∈ (states.foldl S.offerHeld pending).newestFirst,
      Scalar.isNegZero entry.2.logProb = false := by
  intro entry hentry
  rw [newestFirst_foldl_offerHeld, List.mem_append, List.mem_reverse] at hentry
  rcases hentry with hentry | hentry
  · obtain ⟨t, ht, rfl⟩ := List.mem_map.mp hentry
    obtain ⟨s, hs, hscore⟩ := List.mem_filterMap.mp ht
    show Scalar.isNegZero t.logProb = false
    exact isNegZero_of_scored hscore (hstates s hs)
  · exact hpending entry hentry

/-! ## Steps -/

/-- A step of the screened search leaves what the other one leaves, or less, if resolving a
collapsed part does. -/
theorem exists_stepWith
    {resolve resolve' : Program D κ R → Path D R → Result R (List (State D κ R))}
    (hresolve : ∀ inner path results, Scalar.isNegZero path.logProb = false →
      resolve inner path = .ok results →
      ∃ results', resolve' inner path = .ok results' ∧ results'.Sublist results)
    {s : State D κ R} (hs : Scalar.isNegZero s.logProb = false) {o : Step D κ R}
    (h : S.unscored.stepWith resolve s = .ok o) :
    ∃ o', S.stepWith resolve' s = .ok o' ∧ Within o' o := by
  obtain ⟨t, hadv, h⟩ := exists_of_bind_eq_ok h
  have hadv' : advance S.codes S.graph S.fuel s.program s.stack s.path = .ok t := hadv
  unfold stepWith
  rw [hadv']
  cases t with
  | finished value path => cases h; exact ⟨_, rfl, .finished _⟩
  | choice site alternatives tag stack path =>
      cases h
      exact ⟨_, rfl, .pending (List.Sublist.refl _)⟩
  | collapsed inner stack path =>
      have hpath : Scalar.isNegZero path.logProb = false :=
        isNegZero_of_advances ⟨S.fuel, hadv'⟩ hs
      obtain ⟨results, hres, h⟩ := exists_of_bind_eq_ok h
      cases h
      obtain ⟨results', hres', hsub⟩ := hresolve inner path results hpath hres
      refine ⟨.pending (results'.map (·.onto stack)), ?_, .pending (hsub.map _)⟩
      show (resolve' inner path >>= fun found => _) = _
      rw [hres']
      rfl

variable [ScreeningScalar R]

omit [LawfulScalar R] in
/-- Of fewer states, no more are admitted. -/
theorem admitted_sublist (hscore : S.score.Screens) {states' states : List (State D κ R)}
    (hsub : states'.Sublist states)
    (hstates : ∀ s ∈ states, Scalar.isNegZero s.logProb = false) :
    (S.admitted states').Sublist (S.unscored.admitted states) := by
  have hall : (S.admitted states).Sublist (S.unscored.admitted states) := by
    clear hsub
    induction states with
    | nil => exact List.Sublist.refl _
    | cons s states ih =>
        have hrest := ih fun t ht => hstates t (List.mem_cons_of_mem _ ht)
        obtain ⟨haccepted, hrejected⟩ := hscore.scored_eq (hstates s List.mem_cons_self)
        unfold admitted at hrest ⊢
        by_cases hs : S.score.Accepts s
        · cases ht : s.scored S.unscored.score with
          | none =>
              rw [List.filterMap_cons_none ((haccepted hs).trans ht),
                List.filterMap_cons_none ht]
              exact hrest
          | some t =>
              rw [List.filterMap_cons_some ((haccepted hs).trans ht),
                List.filterMap_cons_some ht]
              exact hrest.cons_cons t
        · rw [List.filterMap_cons_none (hrejected hs)]
          exact hrest.trans ((List.sublist_cons_self s states).filterMap _)
  exact (hsub.filterMap _).trans hall

/-- **Collapsed parts**: on fewer states, with fewer results so far, the screened search ends
with fewer results, in the same order. -/
theorem exists_resolveAll (hscore : S.score.Screens) {fuel : Nat}
    {pending' pending : Unbounded R (State D κ R)} {results' results outs : List (State D κ R)}
    (hpending : pending'.newestFirst.Sublist pending.newestFirst)
    (hplain : ∀ entry ∈ pending.newestFirst, Scalar.isNegZero entry.2.logProb = false)
    (hresults : results'.Sublist results)
    (h : S.unscored.resolveAll fuel pending results = .ok outs) :
    ∃ outs', S.resolveAll fuel pending' results' = .ok outs' ∧ outs'.Sublist outs := by
  induction fuel generalizing pending' pending results' results outs with
  | zero => cases h
  | succ fuel ih =>
      obtain ⟨entries⟩ := pending
      obtain ⟨entries'⟩ := pending'
      cases entries with
      | nil =>
          cases h
          cases List.sublist_nil.mp hpending
          exact ⟨results'.reverse, rfl, hresults.reverse⟩
      | cons entry rest =>
          have hentry : Scalar.isNegZero entry.2.resumed.logProb = false :=
            hplain entry List.mem_cons_self
          have hrest := fun e he => hplain e (List.mem_cons_of_mem _ he)
          rw [resolveAll_cons] at h
          obtain ⟨o, hstep, h⟩ := exists_of_bind_eq_ok h
          rcases List.sublist_cons_iff.mp hpending with hskip | ⟨rest', rfl, hrest'⟩
          · -- the state was rejected, so the screened search waits with the fuel that is left
            obtain ⟨outs', houts', hsub⟩ : ∃ outs',
                S.resolveAll fuel ⟨entries'⟩ results' = .ok outs' ∧ outs'.Sublist outs := by
              cases o with
              | finished u => exact ih hskip hrest (hresults.cons u) h
              | pending states =>
                  have hstates := isNegZero_of_offers hstep hentry
                  refine ih ?_ (isNegZero_of_foldl_offerHeld hstates hrest) hresults h
                  rw [newestFirst_foldl_offerHeld]
                  exact hskip.trans (List.sublist_append_right _ _)
            have hmono := resolveAll_mono (S := S) (le_refl S.fuel) (Nat.le_succ fuel)
              ⟨entries'⟩ results'
            refine ⟨outs', (hmono ?_).trans houts', hsub⟩
            intro heq
            cases heq.symm.trans houts'
          · -- both searches take the state, the screened one with no more offers
            have hresolve : ∀ inner path results, Scalar.isNegZero path.logProb = false →
                S.unscored.resolveAll fuel (hold .empty (.root inner [] path)) [] =
                  .ok results →
                ∃ results',
                  S.resolveAll fuel (hold .empty (.root inner [] path)) [] = .ok results' ∧
                  results'.Sublist results := by
              intro inner path results hpath hres
              refine ih (List.Sublist.refl _) ?_ (List.Sublist.refl _) hres
              intro e he
              rw [eq_of_mem_hold he]
              exact hpath
            obtain ⟨o', hstep', hwithin⟩ := exists_stepWith hresolve hentry hstep
            rw [resolveAll_cons, hstep']
            cases hwithin with
            | finished u => exact ih hrest' hrest (hresults.cons_cons u) h
            | pending hsub =>
                have hstates := isNegZero_of_offers hstep hentry
                refine ih ?_ (isNegZero_of_foldl_offerHeld hstates hrest) hresults h
                rw [newestFirst_foldl_offerHeld, newestFirst_foldl_offerHeld]
                exact ((admitted_sublist hscore hsub hstates).map _).reverse.append hrest'

/-- **Steps**: the screened search offers what the other one offers, or less, and in the same
order. -/
theorem exists_step (hscore : S.score.Screens) {s : State D κ R}
    (hs : Scalar.isNegZero s.logProb = false) {o : Step D κ R} (h : S.unscored.step s = .ok o) :
    ∃ o', S.step s = .ok o' ∧ (S.pendingOf o').Sublist (S.unscored.pendingOf o) ∧
      (S.finishedOf o').Sublist (S.unscored.finishedOf o) := by
  have hresolve : ∀ inner path results, Scalar.isNegZero path.logProb = false →
      S.unscored.resolve inner path = .ok results →
      ∃ results', S.resolve inner path = .ok results' ∧ results'.Sublist results := by
    intro inner path results hpath hres
    refine exists_resolveAll hscore (List.Sublist.refl _) ?_ (List.Sublist.refl _) hres
    intro e he
    rw [eq_of_mem_hold he]
    exact hpath
  obtain ⟨o', ho', hwithin⟩ := exists_stepWith hresolve hs h
  refine ⟨o', ho', ?_⟩
  cases hwithin with
  | finished u =>
      obtain ⟨value, path, hfin, rfl⟩ := advances_of_step_finished h
      have hpath : Scalar.isNegZero path.logProb = false := isNegZero_of_advances hfin hs
      refine ⟨List.Sublist.refl _, admitted_sublist hscore (List.Sublist.refl _) fun t ht => ?_⟩
      rw [List.mem_singleton.mp ht]
      exact hpath
  | pending hsub =>
      exact ⟨admitted_sublist hscore hsub (isNegZero_of_offers h hs), List.Sublist.refl _⟩

/-! ## Levels -/

/-- The level of the screened search holds some of what the other one holds. Once the limit
is reached, what is pending does not matter. -/
structure Below (limit n : Nat) (level' level : Level D κ R) : Prop where
  frontier : limitReached limit n = false → level'.frontier.Sublist level.frontier
  finished : level'.finished.Sublist level.finished
  plain : ∀ s ∈ level.frontier, s.Plain

omit [ScreeningScalar R] in
/-- Of fewer states the best ones are among the best ones, if there is room for all. -/
theorem firstBest_sublist {k : Nat} {states' states : List (State D κ R)}
    (h : states'.Sublist states) (hk : states.length ≤ k) :
    (firstBest k states').Sublist (firstBest k states) := by
  have hsorted : ∀ states : List (State D κ R), states.length ≤ k →
      (firstBest k states).map State.entry = Unbounded.bestFirst (states.map State.entry) := by
    intro states hk
    rw [map_entry_firstBest, List.take_of_length_le]
    rwa [Unbounded.bestFirst, List.length_mergeSort, List.length_map]
  have hentries := bestFirst_sublist (h.map State.entry)
  rw [← hsorted states hk, ← hsorted states' (h.length_le.trans hk)] at hentries
  have hstates := hentries.map (·.2)
  rw [List.map_map, List.map_map] at hstates
  simpa [Function.comp_def, State.entry] using hstates

/-- The steps of a round, on fewer states. -/
theorem exists_steps (hscore : S.score.Screens) {states' states : List (State D κ R)}
    (hsub : states'.Sublist states)
    (hplain : ∀ s ∈ states, Scalar.isNegZero s.logProb = false) {steps : List (Step D κ R)}
    (hsteps : List.Forall₂ (fun s o => S.unscored.step s = .ok o) states steps) :
    ∃ steps', List.Forall₂ (fun s o => S.step s = .ok o) states' steps' ∧
      (steps'.flatMap S.pendingOf).Sublist (steps.flatMap S.unscored.pendingOf) ∧
      (steps'.flatMap S.finishedOf).Sublist (steps.flatMap S.unscored.finishedOf) := by
  induction hsub generalizing steps with
  | slnil =>
      cases hsteps
      exact ⟨[], .nil, List.Sublist.refl _, List.Sublist.refl _⟩
  | cons s _ ih =>
      cases hsteps with
      | @cons _ o _ steps hstep hrest =>
          obtain ⟨steps', hall, hpending, hfinished⟩ :=
            ih (fun t ht => hplain t (List.mem_cons_of_mem _ ht)) hrest
          rw [List.flatMap_cons, List.flatMap_cons]
          exact ⟨steps', hall, hpending.trans (List.sublist_append_right _ _),
            hfinished.trans (List.sublist_append_right _ _)⟩
  | cons_cons s _ ih =>
      cases hsteps with
      | @cons _ o _ steps hstep hrest =>
          obtain ⟨steps', hall, hpending, hfinished⟩ :=
            ih (fun t ht => hplain t (List.mem_cons_of_mem _ ht)) hrest
          obtain ⟨o', hstep', hpendingOf, hfinishedOf⟩ :=
            exists_step hscore (hplain s List.mem_cons_self) hstep
          refine ⟨o' :: steps', .cons hstep' hall, ?_, ?_⟩
          · rw [List.flatMap_cons, List.flatMap_cons]
            exact hpendingOf.append hpending
          · rw [List.flatMap_cons, List.flatMap_cons]
            exact hfinishedOf.append hfinished

/-- A round of the screened search. -/
theorem exists_nextLevel (hscore : S.score.Screens) {k limit n : Nat}
    {level' level next : Level D κ R} (hwide : S.unscored.Wide k limit program env)
    (hsurvey : S.unscored.Surveyed k limit program env n level)
    (hlimit : limitReached limit n = false) (h : Below limit n level' level)
    (hnext : S.unscored.nextLevel k level = .ok next) :
    ∃ next', S.nextLevel k level' = .ok next' ∧ Below limit (n + 1) next' next := by
  obtain ⟨steps, hsteps, rfl⟩ := nextLevel_eq_ok_iff.mp hnext
  have hall := forall₂_of_mapM hsteps
  obtain ⟨steps', hall', hpending, hfinished⟩ :=
    exists_steps hscore (h.frontier hlimit) (fun s hs => (h.plain s hs).2) hall
  refine ⟨_, nextLevel_eq_ok_iff.mpr ⟨steps', mapM_of_forall₂ hall', rfl⟩, ?_, ?_, ?_⟩
  · intro hlimit'
    have hcard := ((hsurvey.lists_offers hlimit hsteps).length_le_encard
      (s := {route | route.length = n + 1 ∧ ∃ s, S.unscored.Reaches program env route s})
      fun _ s h => ⟨h.2, s, h.1⟩).trans (hwide (n + 1) hlimit')
    exact firstBest_sublist hpending (by exact_mod_cast hcard)
  · exact h.finished.append hfinished
  · intro t ht
    obtain ⟨o, ho, hto⟩ := List.mem_flatMap.mp (mem_of_mem_firstBest ht)
    obtain ⟨s, hs, hstep⟩ := exists_right_of_forall₂ hall.flip o ho
    exact plain_of_step hstep (h.plain s hs) (.inl hto)

omit [LawfulScalar R] [ScreeningScalar R] in
/-- What has finished stays. -/
theorem finished_sublist_of_levels {k limit fuel n n' : Nat} {level last : Level D κ R}
    (hrun : (S.levels k limit fuel n level).value = .ok (last, n')) :
    level.finished.Sublist last.finished := by
  refine (levels_invariant (P := fun _ next => level.finished.Sublist next.finished) ?_
    (List.Sublist.refl _) hrun).1
  intro n level₁ next hsub hlimit hnext
  obtain ⟨steps, hsteps, rfl⟩ := nextLevel_eq_ok_iff.mp hnext
  exact hsub.trans (List.sublist_append_left _ _)

/-- **Levels**: where the search without a score ends, what the screened one has finished is
some of what has finished there, in the same order. -/
theorem exists_levels (hscore : S.score.Screens) {k limit : Nat}
    (hwide : S.unscored.Wide k limit program env) {fuel n n' : Nat}
    {level' level last : Level D κ R}
    (hsurvey : S.unscored.Surveyed k limit program env n level) (h : Below limit n level' level)
    (hrun : (S.unscored.levels k limit fuel n level).value = .ok (last, n')) :
    ∃ last' i, (S.levels k limit fuel n level').value = .ok (last', i) ∧
      last'.finished.Sublist last.finished := by
  induction fuel generalizing n level' level with
  | zero => cases hrun
  | succ fuel ih =>
      by_cases hstop' : level'.frontier = [] ∨ limitReached limit n = true
      · exact ⟨level', n, levels_of_stop hstop', h.finished.trans (finished_sublist_of_levels hrun)⟩
      · obtain ⟨hfrontier', hlimit⟩ := not_or.mp hstop'
        rw [Bool.not_eq_true] at hlimit
        have hfrontier : level.frontier ≠ [] := by
          intro hempty
          have hsub := h.frontier hlimit
          rw [hempty, List.sublist_nil] at hsub
          exact hfrontier' hsub
        rw [levels_of_go hfrontier hlimit] at hrun
        rw [levels_of_go hfrontier' hlimit]
        obtain ⟨next, hnext, hrest⟩ := exists_of_bind_eq_ok hrun
        obtain ⟨next', hnext', h'⟩ := exists_nextLevel hscore hwide hsurvey hlimit h hnext
        rw [hnext']
        exact ih (surveyed_next hsurvey hlimit hnext) h' hrest

/-- Before the first round the screened search holds no more than the other one. -/
theorem below_start (hscore : S.score.Screens) (k limit : Nat) :
    Below limit 0 (S.startLevel k program env) (S.unscored.startLevel k program env) := by
  have hinitial : ∀ s ∈ [State.initial program env], Scalar.isNegZero s.logProb = false := by
    intro s hs
    rw [List.mem_singleton.mp hs]
    exact Scalar.isNegZero_zero
  have hsub := admitted_sublist hscore (List.Sublist.refl [State.initial program env]) hinitial
  refine ⟨fun _ => ?_, List.Sublist.refl _, fun s hs => ?_⟩
  · cases k with
    | zero => exact List.nil_sublist _
    | succ k =>
        have hlength : (S.unscored.admitted [State.initial program env]).length ≤ k + 1 :=
          (List.length_filterMap_le _ _).trans (Nat.le_add_left 1 k)
        exact firstBest_sublist hsub hlength
  · obtain ⟨s₀, hs₀, hscored⟩ := List.mem_filterMap.mp (mem_of_mem_firstBest hs)
    exact plain_of_scored hscored (hinitial s₀ hs₀)

/-- What the screened search keeps of what has finished. -/
theorem exists_kept (hscore : S.score.Screens) {config : SearchConfig} {n : Nat}
    {level : Level D κ R} (hroom : S.unscored.Unpruned config program env)
    (hrun : (S.unscored.levels config.beamSize config.maxIterations S.fuel 0
      (S.unscored.startLevel config.beamSize program env)).value = .ok (level, n)) :
    ∃ level' i, (S.levels config.beamSize config.maxIterations S.fuel 0
        (S.startLevel config.beamSize program env)).value = .ok (level', i) ∧
      (firstBest config.beamSize level'.finished).Sublist
        (firstBest config.beamSize level.finished) := by
  have hsurvey := surveyed_start (S := S.unscored) config.beamSize config.maxIterations program env
  obtain ⟨level', i, hrun', hsub⟩ :=
    exists_levels hscore hroom.levels hsurvey (below_start hscore _ _) hrun
  have hcard := ((surveyed_levels hsurvey hrun).1.finished.length_le_encard
    (s := {route | limitReached config.maxIterations route.length = false ∧
      ∃ e, S.unscored.Survives program env route e})
    fun _ _ h => ⟨h.2.2, h.1.exists_execution⟩).trans hroom.results
  exact ⟨level', i, hrun', firstBest_sublist hsub (by exact_mod_cast hcard)⟩

/-- **Screening**: where the beam has room for all that the search without a score comes to,
the screened search succeeds if that one does. Its executions are a sublist of the other
ones. -/
theorem exists_beamSearch (hscore : S.score.Screens) {config : SearchConfig}
    {m : Marginals (Value D R) D R} (hroom : S.unscored.Unpruned config program env)
    (hm : (S.unscored.beamSearch config program env).value = .ok m) :
    ∃ m', (S.beamSearch config program env).value = .ok m' ∧
      m'.executions.Sublist m.executions := by
  obtain ⟨level, hrun, hexec⟩ := beamSearch_eq_ok_iff.mp hm
  obtain ⟨level', i, hrun', hkept⟩ := exists_kept hscore hroom hrun
  obtain ⟨executions', hexec', hsub⟩ := exists_mapM_of_sublist hexec hkept
  exact ⟨{ executions := executions', iterations := i },
    beamSearch_eq_ok_iff.mpr ⟨level', hrun', hexec'⟩, hsub⟩

end Setting

end ChoiceSearch
