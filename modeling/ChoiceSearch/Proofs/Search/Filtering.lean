import ChoiceSearch.Proofs.Search.Labels
import ChoiceSearch.Proofs.Search.Opening
import ChoiceSearch.Proofs.Search.Pairing
import ChoiceSearch.Proofs.Search.Screening

/-!
# What a screened search finds

A path is offered to queues state by state: its initial state, every alternative it takes,
the results of the collapsed parts it passes, and its end (`Setting.OfferedOn`). A search
under a score of zeros and minus infinities finds exactly the paths of the search without a
score all of whose offered states the score accepts (`Setting.survives_iff_accepts`), in the
same order and with the same executions (`Setting.executions_of_screens`).

The order needs more than that the executions are a sublist: two paths may have the same
execution. Finished states tell paths apart, since the trail of their marks is the list of
the alternatives taken (`Setting.Ends.eq_of_state`).
-/

namespace ChoiceSearch

variable {D κ R : Type} [Scalar R]

namespace Setting

/-! ## The states that a path offers -/

/-- `S.Presents wait s route t`: the state `t` is offered on the way along the route from `s`. -/
inductive Presents (S : Setting D κ R) :
    (State D κ R → State D κ R) → State D κ R → List Decision → State D κ R → Prop
  | offered {wait s d t route} : S.Leads s d t → Presents S wait s (d :: route) t
  | inside {wait s inner stack path t inside route} :
      S.Advances s (.collapsed inner stack path) →
      Presents S State.waited (State.root inner [] path).waited inside t →
      Presents S wait s (.through inside :: route) t
  | later {wait s d t₁ t route} : S.Offers s d t₁ → Presents S wait (wait t₁) route t →
      Presents S wait s (d :: route) t

/-- The state is offered on the path of a route: it is the initial state of the program, a
state that is offered on the way, or the end. -/
def OfferedOn (S : Setting D κ R) (program : Program D κ R) (env : Env D R)
    (route : List Decision) (t : State D κ R) : Prop :=
  t = .initial program env ∨
  (∃ root, (State.initial program env).scored S.score = some root ∧ S.Presents id root route t) ∨
  ∃ s value path, S.Reaches program env route s ∧ S.Advances s (.finished value path) ∧
    t = .finished value path

/-- The score of the search accepts all states that the path of a route offers in a search
without a score. -/
def AcceptsAll (S : Setting D κ R) (program : Program D κ R) (env : Env D R)
    (route : List Decision) : Prop :=
  ∀ t, S.unscored.OfferedOn program env route t → S.score.Accepts t

variable {S : Setting D κ R} {program : Program D κ R} {env : Env D R}
  {wait : State D κ R → State D κ R}

/-- What is offered along a route that starts with a decision. -/
theorem presents_cons_iff {s t t₁ x : State D κ R} {d : Decision} {route : List Decision}
    (hlead : S.Leads s d t) (hscored : t.scored S.score = some t₁) :
    S.Presents wait s (d :: route) x ↔ x = t ∨
      (∃ inside inner stack path, d = .through inside ∧ S.Advances s (.collapsed inner stack path) ∧
        S.Presents State.waited (State.root inner [] path).waited inside x) ∨
      S.Presents wait (wait t₁) route x := by
  constructor
  · intro h
    cases h with
    | offered hlead' => exact .inl (hlead'.unique hlead)
    | inside hadv hpresents => exact .inr (.inl ⟨_, _, _, _, rfl, hadv, hpresents⟩)
    | later hoffer hpresents =>
        cases hoffer.unique ⟨t, hlead, hscored⟩
        exact .inr (.inr hpresents)
  · rintro (rfl | ⟨inside, inner, stack, path, rfl, hadv, hpresents⟩ | hpresents)
    · exact .offered hlead
    · exact .inside hadv hpresents
    · exact .later ⟨t, hlead, hscored⟩ hpresents

section Accepted

variable [LawfulScalar R] [ScreeningScalar R]

omit [LawfulScalar R] in
/-- Scoring, and scoring without a score. -/
theorem scored_iff (hscore : S.score.Screens) {s t : State D κ R}
    (hs : Scalar.isNegZero s.logProb = false) :
    s.scored S.score = some t ↔ s.scored S.unscored.score = some t ∧ S.score.Accepts s := by
  obtain ⟨haccepted, hrejected⟩ := hscore.scored_eq hs
  by_cases h : S.score.Accepts s
  · exact ⟨fun ht => ⟨(haccepted h).symm.trans ht, h⟩, fun ht => (haccepted h).trans ht.1⟩
  · refine ⟨fun ht => ?_, fun ht => absurd ht.2 h⟩
    rw [hrejected h] at ht
    cases ht

/-- A route that can be followed under a screening score can be followed without one, and the
score accepts what is offered on the way. -/
theorem Follows.unscored (hscore : S.score.Screens) {s u : State D κ R} {route : List Decision}
    (h : S.Follows wait s route u) (hwait : ∀ t : State D κ R, (wait t).logProb = t.logProb)
    (hs : Scalar.isNegZero s.logProb = false) :
    S.unscored.Follows wait s route u ∧
      ∀ t, S.unscored.Presents wait s route t → S.score.Accepts t := by
  induction h with
  | nil => exact ⟨.nil, fun t ht => by cases ht⟩
  | @take wait s site alternatives tag stack path i t t' route u hadv hget hscored _ ih =>
      have hlead : S.unscored.Leads s (.take i) t := ⟨_, _, _, _, _, hadv, hget⟩
      have ht := isNegZero_of_leads hlead hs
      obtain ⟨hfree, haccepts⟩ := (scored_iff hscore ht).mp hscored
      obtain ⟨hrest, hlater⟩ := ih hwait (by rw [hwait]; exact isNegZero_of_scored hfree ht)
      refine ⟨.take hadv hget hfree hrest, fun x hx => ?_⟩
      rcases (presents_cons_iff hlead hfree).mp hx with rfl | ⟨_, _, _, _, heq, -⟩ | hx
      · exact haccepts
      · cases heq
      · exact hlater x hx
  | @through wait s inner stack path v value path' t inside route u hadv _ hfin hscored _ ihin ih =>
      obtain ⟨hin, hinside⟩ := ihin (fun _ => rfl) (isNegZero_of_advances hadv hs)
      have hlead : S.unscored.Leads s (.through inside) _ :=
        ⟨_, _, _, _, hadv, ⟨_, _, _, hin, hfin, rfl⟩, rfl⟩
      have ht := isNegZero_of_leads hlead hs
      obtain ⟨hfree, haccepts⟩ := (scored_iff hscore ht).mp hscored
      obtain ⟨hrest, hlater⟩ := ih hwait (by rw [hwait]; exact isNegZero_of_scored hfree ht)
      refine ⟨.through hadv hin hfin hfree hrest, fun x hx => ?_⟩
      rcases (presents_cons_iff hlead hfree).mp hx with rfl | ⟨_, _, _, _, heq, hadv', hx⟩ | hx
      · exact haccepts
      · cases heq
        cases Advances.unique hadv' hadv
        exact hinside x hx
      · exact hlater x hx

/-- A route that can be followed without a score can be followed under a score that accepts
what is offered on the way. -/
theorem follows_of_accepts (hscore : S.score.Screens) {s u : State D κ R} {route : List Decision}
    (h : S.unscored.Follows wait s route u)
    (hwait : ∀ t : State D κ R, (wait t).logProb = t.logProb)
    (hs : Scalar.isNegZero s.logProb = false)
    (haccepts : ∀ t, S.unscored.Presents wait s route t → S.score.Accepts t) :
    S.Follows wait s route u := by
  induction h with
  | nil => exact .nil
  | @take wait s site alternatives tag stack path i t t' route u hadv hget hfree _ ih =>
      have hlead : S.unscored.Leads s (.take i) t := ⟨_, _, _, _, _, hadv, hget⟩
      have ht := isNegZero_of_leads hlead hs
      have hrest := ih hwait (by rw [hwait]; exact isNegZero_of_scored hfree ht)
        fun x hx => haccepts x ((presents_cons_iff hlead hfree).mpr (.inr (.inr hx)))
      have hscored := (scored_iff hscore ht).mpr ⟨hfree, haccepts t (.offered hlead)⟩
      exact .take hadv hget hscored hrest
  | @through wait s inner stack path v value path' t inside route u hadv hin hfin hfree _ ihin ih =>
      have hlead : S.unscored.Leads s (.through inside) _ :=
        ⟨_, _, _, _, hadv, ⟨_, _, _, hin, hfin, rfl⟩, rfl⟩
      have ht := isNegZero_of_leads hlead hs
      have hinside := ihin (fun _ => rfl) (isNegZero_of_advances hadv hs)
        fun x hx => haccepts x
          ((presents_cons_iff hlead hfree).mpr (.inr (.inl ⟨_, _, _, _, rfl, hadv, hx⟩)))
      have hrest := ih hwait (by rw [hwait]; exact isNegZero_of_scored hfree ht)
        fun x hx => haccepts x ((presents_cons_iff hlead hfree).mpr (.inr (.inr hx)))
      have hscored := (scored_iff hscore ht).mpr ⟨hfree, haccepts _ (.offered hlead)⟩
      exact .through hadv hinside hfin hscored hrest

/-- A path ends in a finished state under a screening score if it does so without one and the
score accepts all that the path offers. -/
theorem ends_iff_accepts (hscore : S.score.Screens) {route : List Decision} {u : State D κ R} :
    S.Ends program env route u ↔
      S.unscored.Ends program env route u ∧ S.AcceptsAll program env route := by
  have hinitial : Scalar.isNegZero (State.initial program env).logProb = false :=
    Scalar.isNegZero_zero
  have hfinished : ∀ {root s : State D κ R} {value : Value D R} {path : Path D R},
      (State.initial program env).scored S.unscored.score = some root →
      S.unscored.Follows id root route s → S.unscored.Advances s (.finished value path) →
      Scalar.isNegZero (State.finished (κ := κ) value path).logProb = false := by
    intro root s value path hroot hfollows hfin
    have hs : Scalar.isNegZero s.logProb = false :=
      isNegZero_of_follows hfollows (fun _ => rfl) (isNegZero_of_scored hroot hinitial)
    exact isNegZero_of_advances hfin hs
  constructor
  · rintro ⟨s, ⟨root, hroot, hfollows⟩, value, path, hfin, hscored⟩
    obtain ⟨hfree, hfirst⟩ := (scored_iff hscore hinitial).mp hroot
    obtain ⟨hfollows, halong⟩ :=
      hfollows.unscored hscore (fun _ => rfl) (isNegZero_of_scored hfree hinitial)
    obtain ⟨hend, hlast⟩ := (scored_iff hscore (hfinished hfree hfollows hfin)).mp hscored
    refine ⟨⟨s, ⟨root, hfree, hfollows⟩, value, path, hfin, hend⟩, ?_⟩
    rintro t (rfl | ⟨root', hroot', ht⟩ | ⟨s', value', path', ⟨root', hroot', hs'⟩, hfin', rfl⟩)
    · exact hfirst
    · cases hfree.symm.trans hroot'
      exact halong t ht
    · cases hfree.symm.trans hroot'
      cases hs'.unique hfollows
      cases Advances.unique hfin' hfin
      exact hlast
  · rintro ⟨⟨s, ⟨root, hfree, hfollows⟩, value, path, hfin, hend⟩, haccepts⟩
    have hroot := (scored_iff hscore hinitial).mpr ⟨hfree, haccepts _ (.inl rfl)⟩
    have hfollows' := follows_of_accepts hscore hfollows (fun _ => rfl)
      (isNegZero_of_scored hfree hinitial) fun t ht => haccepts t (.inr (.inl ⟨root, hfree, ht⟩))
    have hlast := haccepts _ (.inr (.inr ⟨s, value, path, ⟨root, hfree, hfollows⟩, hfin, rfl⟩))
    have hscored := (scored_iff hscore (hfinished hfree hfollows hfin)).mpr ⟨hend, hlast⟩
    exact ⟨s, ⟨root, hroot, hfollows'⟩, value, path, hfin, hscored⟩

/-- **The surviving paths** of a screened search are those of the search without a score that
the score accepts all along, with the same executions. -/
theorem survives_iff_accepts (hscore : S.score.Screens) {route : List Decision}
    {e : Execution (Value D R) D R} : S.Survives program env route e ↔
      S.unscored.Survives program env route e ∧ S.AcceptsAll program env route := by
  constructor
  · rintro ⟨u, value, hends, hend⟩
    obtain ⟨hfree, haccepts⟩ := (ends_iff_accepts hscore).mp hends
    exact ⟨⟨u, value, hfree, hend⟩, haccepts⟩
  · rintro ⟨⟨u, value, hfree, hend⟩, haccepts⟩
    exact ⟨u, value, (ends_iff_accepts hscore).mpr ⟨hfree, haccepts⟩, hend⟩

/-- A state that is reached under a screening score is reached without one. -/
theorem Reaches.unscored (hscore : S.score.Screens) {route : List Decision} {s : State D κ R}
    (h : S.Reaches program env route s) : S.unscored.Reaches program env route s := by
  obtain ⟨root, hroot, hfollows⟩ := h
  have hinitial : Scalar.isNegZero (State.initial program env).logProb = false :=
    Scalar.isNegZero_zero
  obtain ⟨hfree, -⟩ := (scored_iff hscore hinitial).mp hroot
  exact ⟨root, hfree,
    (hfollows.unscored hscore (fun _ => rfl) (isNegZero_of_scored hfree hinitial)).1⟩

/-- A beam that loses nothing without a score loses nothing under a screening score. -/
theorem Exhausts.of_unscored (hscore : S.score.Screens) {width : Nat}
    (h : S.unscored.Exhausts width program env) : S.Exhausts width program env := by
  refine ⟨fun n hn => (Set.encard_le_encard ?_).trans (h.levels n hn),
    (Set.encard_le_encard ?_).trans h.results⟩
  · rintro route ⟨hlength, s, hs⟩
    exact ⟨hlength, s, hs.unscored hscore⟩
  · rintro route ⟨e, he⟩
    exact ⟨e, ((survives_iff_accepts hscore).mp he).1⟩

end Accepted

/-! ## Trails -/

/-- The marks of a path are on the trail of the alternatives taken, which the machine leaves
alone. -/
theorem trail_of_move {p : Program D κ R} {stack : List (Frame κ)} {path : Path D R}
    {m : Move D κ R} (h : move S.codes S.graph p stack path = .ok m) :
    m.path.supply.trail = path.supply.trail := by
  have hmarks := (frames_of_move h).2
  cases p with
  | bind inner rest =>
      have hsupply : m.path.supply = (path.supply.push rest stack).2 := hmarks
      rw [hsupply]
      exact (Sharing.framesOnly_push path.supply rest stack).trail
  | _ => exact hmarks.1

theorem trail_of_advances {s : State D κ R} {t : Transition D κ R} (h : S.Advances s t) :
    t.path.supply.trail = s.path.supply.trail := by
  obtain ⟨q, stack, path, hcomes, hstop⟩ := h.exists_stopsAt
  have hpath : path.supply.trail = s.path.supply.trail :=
    hcomes.invariant (P := fun _ _ path => path.supply.trail = s.path.supply.trail)
      (fun hp hmove => (trail_of_move hmove).trans hp) rfl
  exact (trail_of_move hstop).trans hpath

/-- The trail after a route. -/
theorem Follows.trail_eq {s u : State D κ R} {route : List Decision}
    (h : S.Follows wait s route u)
    (hwait : ∀ t : State D κ R, (wait t).path.supply = t.path.supply) :
    u.path.supply.trail = (takenAlong route).reverse ++ s.path.supply.trail := by
  induction h with
  | nil => rfl
  | @take wait s site alternatives tag stack path i t t' route u hadv hget hscored _ ih =>
      have htrail : t'.path.supply.trail = i :: s.path.supply.trail := by
        rw [State.eq_of_scored hscored, ← trail_of_advances hadv]
        simp only [State.ofChoice, List.getElem?_mapIdx, Option.map_eq_some_iff] at hget
        obtain ⟨alternative, -, rfl⟩ := hget
        rfl
      rw [ih hwait, hwait, htrail, takenAlong, Decision.taken, List.reverse_append]
      simp
  | @through wait s inner stack path v value path' t inside route u hadv _ hfin hscored _ ihin ih =>
      have htrail : t.path.supply.trail =
          (takenAlong inside).reverse ++ s.path.supply.trail := by
        have hv := ihin fun _ => rfl
        rw [State.eq_of_scored hscored, ← trail_of_advances hadv]
        exact (trail_of_advances hfin).trans hv
      rw [ih hwait, hwait, htrail, takenAlong, Decision.taken, List.reverse_append,
        List.append_assoc]

/-- A finished state tells which path it is the end of. -/
theorem Ends.eq_of_state {route route' : List Decision} {u : State D κ R}
    (h : S.Ends program env route u) (h' : S.Ends program env route' u) : route = route' := by
  obtain ⟨s, ⟨root, hroot, hs⟩, value, path, hfin, hscored⟩ := h
  obtain ⟨s', ⟨root', hroot', hs'⟩, value', path', hfin', hscored'⟩ := h'
  cases hroot.symm.trans hroot'
  have htrail : ∀ {s : State D κ R} {route : List Decision} {value : Value D R} {path : Path D R},
      S.Follows id root route s → S.Advances s (.finished value path) →
      (State.finished value path).scored S.score = some u →
      u.path.supply.trail = (takenAlong route).reverse ++ root.path.supply.trail := by
    intro s route value path hs hfin hscored
    rw [State.eq_of_scored hscored, ← hs.trail_eq fun _ => rfl]
    exact trail_of_advances hfin
  have heq := (htrail hs hfin hscored).symm.trans (htrail hs' hfin' hscored')
  have htaken := List.reverse_injective (List.append_cancel_right heq)
  exact (hs.eq_of_takenAlong hfin hs' hfin' (congrArg (· ++ []) htaken)).1

/-! ## Executions -/

open Classical in
/-- **Filtering**: if an exhaustive search without a score succeeds, the search under a
screening score does. Its executions are those of the paths that the score accepts all along,
in the same order and with the same values, environments and log-weights. -/
theorem executions_of_screens [LawfulScalar R] [ScreeningScalar R] (hscore : S.score.Screens)
    {width : Nat} {m : Marginals (Value D R) D R}
    (hroom : S.unscored.Exhausts width program env)
    (hm : (S.unscored.beamSearch (.exhaustive width) program env).value = .ok m) :
    S.Exhausts width program env ∧ ∃ m' routes,
      (S.beamSearch (.exhaustive width) program env).value = .ok m' ∧ routes.Nodup ∧
      List.Forall₂ (S.unscored.Survives program env) routes m.executions ∧
      m'.executions = ((routes.zip m.executions).filter fun entry =>
        decide (S.AcceptsAll program env entry.1)).map (·.2) := by
  have hroom' : S.Exhausts width program env := .of_unscored hscore hroom
  obtain ⟨level, hrun, hexec⟩ := beamSearch_eq_ok_iff.mp hm
  obtain ⟨level', i, hrun', hkept⟩ := exists_kept hscore hroom.unpruned hrun
  obtain ⟨executions', hexec', -⟩ := exists_mapM_of_sublist hexec hkept
  obtain ⟨routes, hnodup, hall, -⟩ := lists_kept hrun hroom.unpruned
  have hlists' := lists_kept hrun' hroom'.unpruned
  -- a path is accepted all along if and only if its end is among what the screened search keeps
  have hmem : ∀ route u, S.unscored.Ends program env route u →
      decide (S.AcceptsAll program env route) =
        decide (u ∈ firstBest (SearchConfig.exhaustive width).beamSize level'.finished) := by
    intro route u hends
    refine decide_eq_decide.mpr ⟨fun haccepts => ?_, fun hu => ?_⟩
    · have hends' := (ends_iff_accepts hscore).mpr ⟨hends, haccepts⟩
      exact hlists'.mem (fun _ _ _ => Ends.unique) ⟨rfl, u, hends'⟩ hends'
    · obtain ⟨route', hends'⟩ := hlists'.exists_label u hu
      obtain ⟨hfree, haccepts⟩ := (ends_iff_accepts hscore).mp hends'
      exact hfree.eq_of_state hends ▸ haccepts
  have hfilter := filter_eq_of_sublist hkept
    (nodup_of_forall₂ hall hnodup fun _ _ _ => Ends.eq_of_state)
    (q := fun u => decide (u ∈ firstBest (SearchConfig.exhaustive width).beamSize level'.finished))
    fun _ _ => decide_eq_true_iff
  refine ⟨hroom', { executions := executions', iterations := i }, routes,
    beamSearch_eq_ok_iff.mpr ⟨level', hrun', hexec'⟩, hnodup, ?_, ?_⟩
  · refine forall₂_trans hall (forall₂_of_mapM hexec) fun route u e hends hu => ?_
    obtain ⟨value, hprogram, rfl⟩ := State.execution_eq_ok_iff.mp hu
    exact ⟨u, value, hends, hprogram, rfl⟩
  · have hexecutions' := forall₂_of_mapM hexec'
    rw [← hfilter] at hexecutions'
    refine eq_filter_zip hall (forall₂_of_mapM hexec) hexecutions' ?_ hmem
    intro u e e' he he'
    exact Except.ok.inj (he.symm.trans he')

end Setting

/-! ### One side of a coin -/

/-- The search for tosses that accepts one side of the coin only. -/
def fussyTosses : Setting Bool Unit Float :=
  { tosses with
    score := fun _ side _ => if side = some false then Scalar.negInf else Scalar.zero }

theorem screens_fussyTosses : fussyTosses.score.Screens := by
  intro tag side env
  show Scalar.isZero (if side = some false then Scalar.negInf else Scalar.zero : Float) = true ∨ _
  by_cases h : side = some false
  · exact .inr (by simp only [fussyTosses, if_pos h]; rfl)
  · exact .inl (by rw [if_neg h]; exact ScreeningScalar.isZero_zero)

theorem exhausts_tosses : fussyTosses.unscored.Exhausts 3 toss .init := by
  obtain ⟨root, o, t, u, v, w, hroot, ho, hpending, ht, hu⟩ :
      ∃ root o t u v w, (State.initial toss .init).scored tosses.score = some root ∧
        tosses.step root = .ok o ∧ tosses.pendingOf o = [t, u] ∧
        tosses.step t = .ok (.finished v) ∧ tosses.step u = .ok (.finished w) :=
    ⟨_, _, _, _, _, _, rfl, rfl, rfl, rfl, rfl⟩
  have hleaf : ∀ {s s' : State Bool Unit Float}, tosses.step s = .ok (.finished s') →
      tosses.EndsWithin 1 s ∧ tosses.routeCount 1 s = 1 := fun h =>
    ⟨.of_nil h rfl, Setting.routeCount_of_step h⟩
  have hends : tosses.EndsWithin 2 root := by
    refine Setting.endsWithin_succ_iff.mpr ⟨o, ho, fun s hs => ?_⟩
    rw [hpending] at hs
    rcases List.mem_pair.mp hs with rfl | rfl
    · exact (hleaf ht).1
    · exact (hleaf hu).1
  have hcount : tosses.routeCount 2 root = 3 := by
    rw [Setting.routeCount_of_step ho, hpending, List.map_cons, List.map_singleton,
      (hleaf ht).2, (hleaf hu).2]
    rfl
  exact (hends.beamSearch hroot (by decide) hcount.le).1

open Classical in
/-- On machine numbers, the fussy search finds the one side of the two that it accepts. -/
theorem executions_fussyTosses : fussyTosses.score.Screens ∧
    fussyTosses.unscored.Exhausts 3 toss .init ∧ ∃ m m' routes,
      (fussyTosses.unscored.beamSearch (.exhaustive 3) toss .init).value = .ok m ∧
      m.executions.map (·.value) = [.data true, .data false] ∧
      (fussyTosses.beamSearch (.exhaustive 3) toss .init).value = .ok m' ∧
      m'.executions.map (·.value) = [.data true] ∧
      List.Forall₂ (fussyTosses.unscored.Survives toss .init) routes m.executions ∧
      m'.executions = ((routes.zip m.executions).filter fun entry =>
        decide (fussyTosses.AcceptsAll toss .init entry.1)).map (·.2) := by
  obtain ⟨m, hm, hsides⟩ : ∃ m,
      (fussyTosses.unscored.beamSearch (.exhaustive 3) toss .init).value = .ok m ∧
      m.executions.map (·.value) = [.data true, .data false] := ⟨_, rfl, rfl⟩
  obtain ⟨-, m', routes, hm', -, hall, hfilter⟩ :=
    Setting.executions_of_screens screens_fussyTosses exhausts_tosses hm
  obtain ⟨n, hn, hside⟩ : ∃ n, (fussyTosses.beamSearch (.exhaustive 3) toss .init).value = .ok n ∧
      n.executions.map (·.value) = [.data true] := ⟨_, rfl, rfl⟩
  cases hn.symm.trans hm'
  exact ⟨screens_fussyTosses, exhausts_tosses, m, m', routes, hm, hsides, hm', hside, hall, hfilter⟩

end ChoiceSearch
