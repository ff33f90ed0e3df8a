import ChoiceSearch.Proofs.Search.Exhaustive
import ChoiceSearch.Proofs.Search.Screening
import ChoiceSearch.Proofs.Search.Tally

/-!
# Conservation of mass

Where every choice that a search comes to is normalized, a search that scores nothing
moves probability about and makes none. The mass of a list of states is the sum of their
weights (`massOf`). A step passes the mass of its state on to its offers or to the end of
the path (`Setting.massOf_of_step`), also when a collapsed part splits one state into many
(`Setting.massOf_of_resolveAll`). So a round only loses what the beam has no room for
(`Setting.massOf_nextLevel`), and a search starts with a mass of one.

What a search comes to is meant literally: `Setting.Visits` collects the states that are
advanced, those within collapsed parts included, and `Setting.Normalizes` speaks about the
programs in focus on the way from each of them.
-/

namespace ChoiceSearch

variable {D κ R : Type}

/-! ## Normalized choices -/

/-- The program is no factor, and if it is a choice, its alternatives have probabilities that
sum up to one. -/
def Program.Normalized (view : GraphView Exact) : Program D κ Exact → Prop
  | .categorical site alternatives tag => ∃ dist : List (D × ℝ),
      (∀ entry ∈ dist, 0 ≤ entry.2) ∧ (dist.map (·.2)).sum = 1 ∧
      (.categorical site alternatives tag : Program D κ Exact) =
        .chooseMap site (dist.map fun entry => (entry.1, .real entry.2)) tag
  | .neural _ items _ _ => items ≠ [] ∧ view.locallyNormalized = true
  | .factor _ => False
  | _ => True

/-- The alternatives of a neural choice in a locally normalized graph weigh one. -/
theorem sum_weight_of_neuralAlternatives {g : Graph Exact} (hg : g.RealParams)
    (hnorm : g.locallyNormalized = true) {items : List D} (hitems : items ≠ [])
    {parameter : String} {env : Env D Exact} {alternatives : List (Alternative D Exact)}
    (h : neuralAlternatives g items parameter env = .ok alternatives) :
    (alternatives.map (·.logWeight.weight)).sum = 1 := by
  obtain ⟨p, vector, weights, hp, hweights, -, hlength, rfl⟩ :=
    exists_entries_of_neuralAlternatives h
  obtain ⟨xs, hxs⟩ := hg _ p hp
  rw [if_pos hnorm, hxs] at hweights
  have hne : xs ≠ [] := by
    rintro rfl
    rw [hweights] at hlength
    exact hitems (List.length_eq_zero_iff.mp hlength.symm)
  have hlist := map_mapIdx_eq_map (f := fun index (entry : D × Exact) =>
    ({ item := entry.1, logWeight := entry.2
       env := (env.addLabel parameter index).addScore (.pick vector index) } :
        Alternative D Exact)) (g := (·.logWeight.weight))
    (k := fun entry => entry.2.weight) (fun _ _ => rfl) (items.zip weights)
  calc _ = ((items.zip weights).map fun entry => entry.2.weight).sum := congrArg List.sum hlist
    _ = (((items.zip weights).map (·.2)).map Exact.weight).sum := by rw [List.map_map]; rfl
    _ = 1 := by rw [List.map_snd_zip hlength.le, hweights, Exact.sum_weight_logSoftmax hne]

/-- A normalized program adds nothing to the log-weight. -/
theorem Program.Normalized.logProb_of_move {codes : Codes D κ Exact} {view : GraphView Exact}
    {p : Program D κ Exact} (hp : p.Normalized view) {stack : List (Frame κ)} {path : Path D Exact}
    {m : Move D κ Exact} (h : move codes view p stack path = .ok m) :
    m.path.logProb = path.logProb := by
  cases p with
  | factor weight => exact hp.elim
  | categorical site alternatives tag => cases h; rfl
  | neural site items parameter tag =>
      obtain ⟨alternatives, -, rfl⟩ := exists_alternatives_of_move h
      rfl
  | bind inner rest => cases h; rfl
  | consult code =>
      obtain ⟨program, -, rfl⟩ := exists_program_of_consult h
      rfl
  | collapsed inner => cases h; rfl
  | value v => rw [(of_feed h).2]
  | getEnv => rw [(of_feed h).2]
  | setEnv env => rw [(of_feed h).2]
  | startTimer name => rw [(of_feed h).2]
  | stopTimer name => rw [(of_feed h).2]

/-- Where a normalized program is a choice, the alternatives weigh one. -/
theorem Program.Normalized.sum_weight {codes : Codes D κ Exact} {g : Graph Exact}
    (hg : g.RealParams) {p : Program D κ Exact} (hp : p.Normalized g)
    {stack stack' : List (Frame κ)} {path path' : Path D Exact} {site : Option Nat}
    {alternatives : List (Alternative D Exact)} {tag : Option D}
    (h : move codes g p stack path = .ok (.stop (.choice site alternatives tag stack' path'))) :
    (alternatives.map (·.logWeight.weight)).sum = 1 := by
  rcases choice_of_move h with ⟨entries, rfl, rfl⟩ | ⟨items, parameter, rfl, halts⟩
  · obtain ⟨dist, hpos, hsum, heq⟩ := hp
    cases heq
    rw [List.map_map, List.map_map, List.map_map, ← hsum]
    refine congrArg List.sum (List.map_congr_left fun entry hentry => ?_)
    exact Exact.weight_log (hpos entry hentry)
  · exact sum_weight_of_neuralAlternatives hg hp.2 hp.1 halts

/-! ## Mass -/

/-- The mass of a list of states: the sum of their weights. -/
noncomputable def massOf (states : List (State D κ Exact)) : ℝ :=
  (states.map (·.logProb.weight)).sum

@[simp] theorem massOf_nil : massOf ([] : List (State D κ Exact)) = 0 := rfl

@[simp] theorem massOf_cons (s : State D κ Exact) (states : List (State D κ Exact)) :
    massOf (s :: states) = s.logProb.weight + massOf states := List.sum_cons

@[simp] theorem massOf_append (states more : List (State D κ Exact)) :
    massOf (states ++ more) = massOf states + massOf more := by
  rw [massOf, List.map_append, List.sum_append]
  rfl

theorem massOf_perm {states states' : List (State D κ Exact)} (h : states.Perm states') :
    massOf states = massOf states' := (h.map _).sum_eq

@[simp] theorem massOf_reverse (states : List (State D κ Exact)) :
    massOf states.reverse = massOf states := massOf_perm (List.reverse_perm _)

/-- States of the same log-weights have the same mass. -/
theorem massOf_map {f : State D κ Exact → State D κ Exact} (hf : ∀ s, (f s).logProb = s.logProb)
    (states : List (State D κ Exact)) : massOf (states.map f) = massOf states := by
  rw [massOf, List.map_map]
  exact congrArg List.sum (List.map_congr_left fun s _ => congrArg Exact.weight (hf s))

theorem massOf_nonneg (states : List (State D κ Exact)) : 0 ≤ massOf states := by
  refine List.sum_nonneg fun x hx => ?_
  obtain ⟨s, -, rfl⟩ := List.mem_map.mp hx
  exact s.logProb.weight_nonneg

/-- Leaving states out loses mass. -/
theorem massOf_sublist {states states' : List (State D κ Exact)} (h : states.Sublist states') :
    massOf states ≤ massOf states' := by
  refine (h.map _).sum_le_sum fun x hx => ?_
  obtain ⟨s, -, rfl⟩ := List.mem_map.mp hx
  exact s.logProb.weight_nonneg

theorem massOf_firstBest_le (k : Nat) (states : List (State D κ Exact)) :
    massOf (firstBest k states) ≤ massOf states := by
  rw [← massOf_perm (List.mergeSort_perm states fun s t => !Scalar.below s.logProb t.logProb)]
  exact massOf_sublist (List.take_sublist k _)

/-- The states of a choice share the weight of the path. -/
theorem massOf_ofChoice (site : Option Nat) (alternatives : List (Alternative D Exact))
    (tag : Option D) (stack : List (Frame κ)) (path : Path D Exact) :
    massOf (State.ofChoice site alternatives tag stack path) =
      path.logProb.weight * (alternatives.map (·.logWeight.weight)).sum := by
  rw [massOf, State.ofChoice, map_mapIdx_eq_map
    (k := fun a => path.logProb.weight * a.logWeight.weight) (fun _ _ => Exact.weight_add _ _),
    List.sum_map_mul_left]

namespace Setting

/-- `S.Visits program env wait s`: the search of a program comes to advance the state `s`,
at the top with `id` for `wait`, or within a collapsed part with `State.waited`. -/
inductive Visits (S : Setting D κ R) [Scalar R] (program : Program D κ R) (env : Env D R) :
    (State D κ R → State D κ R) → State D κ R → Prop
  | start {root} : (State.initial program env).scored S.score = some root →
      Visits S program env id root
  | offered {wait s d t} : Visits S program env wait s → S.Offers s d t →
      Visits S program env wait (wait t)
  | entered {wait s inner stack path} : Visits S program env wait s →
      S.Advances s (.collapsed inner stack path) →
      Visits S program env State.waited (State.root inner [] path).waited

/-- Every program that comes into focus in the search of a program is normalized. -/
def Normalizes (S : Setting D κ Exact) (program : Program D κ Exact) (env : Env D Exact) : Prop :=
  ∀ wait s, S.Visits program env wait s → ∀ p stack path,
    S.Comes s.program s.stack s.path p stack path → p.Normalized S.graph

variable {S : Setting D κ Exact} {g : Graph Exact} {program : Program D κ Exact}
  {env : Env D Exact} {wait : State D κ Exact → State D κ Exact}

/-- What a step offers goes on with a value. -/
theorem Offers.exists_value [Scalar R] {S : Setting D κ R} {s t : State D κ R} {d : Decision}
    (h : S.Offers s d t) : ∃ v, t.program = .value v := by
  obtain ⟨t₀, hlead, hscore⟩ := h
  rw [State.eq_of_scored hscore]
  cases d with
  | take i =>
      obtain ⟨_, _, _, _, _, -, hget⟩ := hlead
      simp only [State.ofChoice, List.getElem?_mapIdx, Option.map_eq_some_iff] at hget
      obtain ⟨alternative, -, rfl⟩ := hget
      exact ⟨_, rfl⟩
  | through inside =>
      obtain ⟨_, _, _, u, -, ⟨_, _, _, -, -, rfl⟩, rfl⟩ := hlead
      exact ⟨_, rfl⟩

/-- A class of normalized programs that transitions and collapsed parts do not leave. -/
theorem normalizes_of_closed {P : Program D κ Exact → Prop} (hprogram : P program)
    (hvalue : ∀ v, P (.value v))
    (hnext : ∀ {p stack path q stack' path'}, P p →
      move S.codes S.graph p stack path = .ok (.next q stack' path') → P q)
    (hinner : ∀ {p stack path inner stack' path'}, P p →
      move S.codes S.graph p stack path = .ok (.stop (.collapsed inner stack' path')) → P inner)
    (hnorm : ∀ p, P p → p.Normalized S.graph) : S.Normalizes program env := by
  have hcomes : ∀ {s : State D κ Exact} {q stack path}, P s.program →
      S.Comes s.program s.stack s.path q stack path → P q :=
    fun hs h => h.invariant (P := fun p _ _ => P p) hnext hs
  suffices hvisited : ∀ wait s, S.Visits program env wait s →
      P s.program ∧ ∀ t, (wait t).program = t.program by
    exact fun wait s hs q stack path h => hnorm q (hcomes (hvisited wait s hs).1 h)
  intro wait s hs
  induction hs with
  | start hroot =>
      rw [State.eq_of_scored hroot]
      exact ⟨hprogram, fun _ => rfl⟩
  | @offered wait s d t _ hoffer ih =>
      obtain ⟨v, hv⟩ := hoffer.exists_value
      exact ⟨(ih.2 t).trans hv ▸ hvalue v, ih.2⟩
  | entered _ hadv ih =>
      obtain ⟨q, stack', path', hq, hstop⟩ := hadv.exists_stopsAt
      exact ⟨hinner (hcomes ih.1 hq) hstop, fun _ => rfl⟩

/-! ## Transitions -/

/-- Where only normalized programs come into focus, the log-weight stays the same. -/
theorem Comes.logProb_eq {p q : Program D κ Exact} {stack stack' : List (Frame κ)}
    {path path' : Path D Exact} (h : S.Comes p stack path q stack' path')
    (hnorm : ∀ p' stack' path', S.Comes p stack path p' stack' path' → p'.Normalized S.graph) :
    path'.logProb = path.logProb := by
  induction h with
  | here => rfl
  | next hmove _ ih =>
      have hrest := ih fun p' stack' path' hcomes => hnorm p' stack' path' (.next hmove hcomes)
      have hstep := (hnorm _ _ _ .here).logProb_of_move hmove
      exact hrest.trans hstep

/-- A transition of a visited state keeps the log-weight, and if it is a choice, its
alternatives weigh one. -/
theorem Normalizes.of_advances (hnorm : S.Normalizes program env) (hS : S.graph = g.view)
    (hg : g.RealParams) {s : State D κ Exact} (hs : S.Visits program env wait s)
    {t : Transition D κ Exact} (h : S.Advances s t) : t.path.logProb = s.logProb ∧
      ∀ site alternatives tag stack path, t = .choice site alternatives tag stack path →
        (alternatives.map (·.logWeight.weight)).sum = 1 := by
  obtain ⟨q, stack, path, hcomes, hstop⟩ := h.exists_stopsAt
  have hq := hnorm wait s hs q stack path hcomes
  rw [hS] at hq hstop
  refine ⟨(hq.logProb_of_move hstop).trans (hcomes.logProb_eq (hnorm wait s hs)), ?_⟩
  rintro site alternatives tag stack' path' rfl
  exact hq.sum_weight hg hstop

/-! ## Steps -/

/-- Without a score, the admissible states are admitted as they are. -/
theorem scored_of_zero (hzero : S.score = .zero) (s : State D κ Exact) :
    s.scored S.score = if Scalar.admissible s.logProb then some s else none := by
  rw [hzero]
  exact ExecutionScore.scored_zero (Exact.isNegZero_eq s.logProb)

/-- Without a score, what is not admitted has no mass. -/
theorem massOf_admitted (hzero : S.score = .zero) (states : List (State D κ Exact)) :
    massOf (S.admitted states) = massOf states := by
  induction states with
  | nil => rfl
  | cons s states ih =>
      have hs := scored_of_zero hzero s
      unfold admitted at ih ⊢
      cases hadm : Scalar.admissible s.logProb with
      | true =>
          rw [hadm, if_pos rfl] at hs
          rw [List.filterMap_cons_some hs, massOf_cons, massOf_cons, ih]
      | false =>
          rw [hadm, if_neg Bool.false_ne_true] at hs
          rw [List.filterMap_cons_none hs, massOf_cons, ih, Exact.weight_of_not_admissible hadm,
            zero_add]

/-- What a step offers the two containers has the mass of what it leaves. -/
theorem massOf_offers (hzero : S.score = .zero) (o : Step D κ Exact) :
    massOf (S.pendingOf o) + massOf (S.finishedOf o) = massOf o.states := by
  cases o with
  | finished u => exact (zero_add _).trans (massOf_admitted hzero [u])
  | pending states => exact (add_zero _).trans (massOf_admitted hzero states)

/-- A step of a visited state passes its mass on, if resolving a collapsed part does. -/
theorem massOf_of_stepWith (hnorm : S.Normalizes program env) (hS : S.graph = g.view)
    (hg : g.RealParams)
    {resolve : Program D κ Exact → Path D Exact → Result Exact (List (State D κ Exact))}
    {s : State D κ Exact} (hs : S.Visits program env wait s)
    (hresolve : ∀ inner stack path results, S.Advances s (.collapsed inner stack path) →
      resolve inner path = .ok results → massOf results = path.logProb.weight)
    {o : Step D κ Exact} (h : S.stepWith resolve s = .ok o) :
    massOf o.states = s.logProb.weight := by
  rcases stepWith_eq_ok h with ⟨value, path, hadv, rfl⟩ |
    ⟨site, alternatives, tag, stack, path, hadv, rfl⟩ |
    ⟨inner, stack, path, results, hadv, hres, rfl⟩
  all_goals
    obtain ⟨hsame, hone⟩ := hnorm.of_advances hS hg hs hadv
    rw [← hsame]
  · exact add_zero _
  · show massOf (State.ofChoice site alternatives tag stack path) = _
    rw [massOf_ofChoice, hone _ _ _ _ _ rfl, mul_one]
    rfl
  · show massOf (results.map (·.onto stack)) = _
    rw [massOf_map (fun s => s.logProb_onto stack), hresolve _ _ _ _ hadv hres]
    rfl

/-- The entry of a collapsed part is held unless it has no mass. -/
theorem massOf_hold (s : State D κ Exact) :
    massOf ((hold .empty s).newestFirst.map (·.2)) = s.logProb.weight := by
  unfold hold Unbounded.push
  cases hadm : Scalar.admissible s.logProb with
  | true => exact add_zero _
  | false => exact (Exact.weight_of_not_admissible hadm).symm

/-- Without a score, offers to the stack of a collapsed part keep their mass. -/
theorem massOf_foldl_offerHeld (hzero : S.score = .zero) (states : List (State D κ Exact))
    (pending : Unbounded Exact (State D κ Exact)) :
    massOf ((states.foldl S.offerHeld pending).newestFirst.map (·.2)) =
      massOf states + massOf (pending.newestFirst.map (·.2)) := by
  have hpaused : massOf ((S.admitted states).map State.paused) = massOf (S.admitted states) :=
    massOf_map (f := State.paused) (fun _ => rfl) _
  rw [newestFirst_foldl_offerHeld, List.map_append, massOf_append, List.map_reverse,
    massOf_reverse, List.map_map, ← massOf_admitted hzero states, ← hpaused]
  rfl

theorem visits_of_mem_hold {s : State D κ Exact} (hs : S.Visits program env wait s.waited)
    {entry : Exact × State D κ Exact}
    (h : entry ∈ (hold (.empty : Unbounded Exact (State D κ Exact)) s).newestFirst) :
    S.Visits program env wait entry.2.resumed := by
  rw [eq_of_mem_hold h]
  exact hs

/-- **Collapsed parts conserve mass**: the results of a run on the stack of a collapsed part
weigh what its entries do. -/
theorem massOf_of_resolveAll (hzero : S.score = .zero) (hnorm : S.Normalizes program env)
    (hS : S.graph = g.view) (hg : g.RealParams) {fuel : Nat}
    {pending : Unbounded Exact (State D κ Exact)} {results outs : List (State D κ Exact)}
    (hvisits : ∀ entry ∈ pending.newestFirst, S.Visits program env State.waited entry.2.resumed)
    (h : S.resolveAll fuel pending results = .ok outs) :
    massOf outs = massOf results + massOf (pending.newestFirst.map (·.2)) := by
  induction fuel generalizing pending results outs with
  | zero => cases h
  | succ fuel ih =>
      obtain ⟨entries⟩ := pending
      cases entries with
      | nil =>
          cases h
          simp
      | cons entry rest =>
          have hs := hvisits entry List.mem_cons_self
          have hrest := fun e he => hvisits e (List.mem_cons_of_mem _ he)
          rw [resolveAll_cons] at h
          obtain ⟨o, hstep, h⟩ := exists_of_bind_eq_ok h
          have hmass : massOf o.states = entry.2.logProb.weight := by
            refine massOf_of_stepWith hnorm hS hg hs
              (fun inner stack path results hadv hres => ?_) hstep
            -- a collapsed part within this one weighs what it was entered with
            have hentered := Visits.entered hs hadv
            rw [ih (fun e he => visits_of_mem_hold hentered he) hres, massOf_nil, zero_add,
              massOf_hold]
            rfl
          cases o with
          | finished u =>
              rw [ih hrest h, massOf_cons, List.map_cons, massOf_cons, ← hmass]
              simp [Step.states]
              ring
          | pending states =>
              have hleads := lists_leads_of_stepWith (fun _ _ _ => collects_of_resolveAll) hstep
              have hpending : ∀ e ∈ (states.foldl S.offerHeld ⟨rest⟩).newestFirst,
                  S.Visits program env State.waited e.2.resumed := by
                intro e he
                rw [newestFirst_foldl_offerHeld, List.mem_append, List.mem_reverse] at he
                rcases he with he | he
                · obtain ⟨t, ht, rfl⟩ := List.mem_map.mp he
                  obtain ⟨d, hoffer⟩ := (lists_admitted hleads).exists_label t ht
                  exact hs.offered hoffer
                · exact hrest e he
              rw [ih hpending h, massOf_foldl_offerHeld hzero, List.map_cons, massOf_cons,
                ← hmass]
              rfl

/-- **A step conserves mass**: what a visited state weighs, its offers and its end weigh. -/
theorem massOf_of_step (hzero : S.score = .zero) (hnorm : S.Normalizes program env)
    (hS : S.graph = g.view) (hg : g.RealParams) {s : State D κ Exact}
    (hs : S.Visits program env wait s)
    {o : Step D κ Exact} (h : S.step s = .ok o) :
    massOf (S.pendingOf o) + massOf (S.finishedOf o) = s.logProb.weight := by
  rw [massOf_offers hzero]
  refine massOf_of_stepWith hnorm hS hg hs (fun inner stack path results hadv hres => ?_) h
  rw [massOf_of_resolveAll hzero hnorm hS hg (fun e => visits_of_mem_hold (.entered hs hadv)) hres,
    massOf_nil, zero_add, massOf_hold]
  rfl

/-! ## Levels -/

/-- A round passes the mass of its states on. -/
theorem massOf_of_steps (hzero : S.score = .zero) (hnorm : S.Normalizes program env)
    (hS : S.graph = g.view) (hg : g.RealParams) {states : List (State D κ Exact)}
    {steps : List (Step D κ Exact)}
    (hs : ∀ s ∈ states, S.Visits program env wait s)
    (hsteps : List.Forall₂ (fun s o => S.step s = .ok o) states steps) :
    massOf (steps.flatMap S.pendingOf) + massOf (steps.flatMap S.finishedOf) = massOf states := by
  induction hsteps with
  | nil => exact add_zero _
  | @cons s o states steps hstep _ ih =>
      have hhead := massOf_of_step hzero hnorm hS hg (hs s List.mem_cons_self) hstep
      have htail := ih fun s hmem => hs s (List.mem_cons_of_mem _ hmem)
      rw [List.flatMap_cons, List.flatMap_cons, massOf_append, massOf_append, massOf_cons, ← hhead,
        ← htail]
      ring

/-- All that is pending at a level is visited. What is pending and what has finished weigh no
more than one, and exactly one if there is room for everything. -/
structure Weighed (S : Setting D κ Exact) (program : Program D κ Exact) (env : Env D Exact)
    (k limit : Nat) (level : Level D κ Exact) : Prop where
  visits : ∀ s ∈ level.frontier, S.Visits program env id s
  mass_le : massOf level.frontier + massOf level.finished ≤ 1
  mass_eq : limit = 0 → S.Wide k 0 program env →
    massOf level.frontier + massOf level.finished = 1

theorem weighed_start (hzero : S.score = .zero) (k limit : Nat) :
    S.Weighed program env k limit (S.startLevel k program env) := by
  have hone : massOf (S.admitted [.initial program env]) = 1 := by
    rw [massOf_admitted hzero, massOf_cons, massOf_nil, add_zero]
    exact Real.exp_zero
  refine ⟨fun s hs => ?_, ?_, fun _ hwide => ?_⟩
  · obtain ⟨s₀, hs₀, hscore⟩ := List.mem_filterMap.mp (mem_of_mem_firstBest hs)
    rw [List.mem_singleton.mp hs₀] at hscore
    exact .start hscore
  · show massOf (firstBest k (S.admitted [.initial program env])) + massOf [] ≤ 1
    rw [massOf_nil, add_zero, ← hone]
    exact massOf_firstBest_le k _
  · have hroot : (State.initial program env).scored S.score = some (.initial program env) :=
      scored_of_zero hzero _
    have hreach : [] ∈ {route | route.length = 0 ∧ ∃ s, S.Reaches program env route s} :=
      ⟨rfl, _, _, hroot, .nil⟩
    have hk : (1 : ℕ∞) ≤ k :=
      (Set.one_le_encard_iff_nonempty.mpr ⟨[], hreach⟩).trans (hwide 0 rfl)
    rw [startLevel_eq (by exact_mod_cast hk) hroot, massOf_cons, massOf_nil, add_zero, add_zero]
    exact Real.exp_zero

/-- A round keeps the mass, less what the beam has no room for. -/
theorem weighed_next (hzero : S.score = .zero) (hnorm : S.Normalizes program env)
    (hS : S.graph = g.view) (hg : g.RealParams) {k limit n : Nat} {level level' : Level D κ Exact}
    (hsurvey : S.Surveyed k limit program env n level) (h : S.Weighed program env k limit level)
    (hlimit : limitReached limit n = false) (hnext : S.nextLevel k level = .ok level') :
    S.Weighed program env k limit level' := by
  obtain ⟨steps, hsteps, rfl⟩ := nextLevel_eq_ok_iff.mp hnext
  have hmass := massOf_of_steps hzero hnorm hS hg h.visits (forall₂_of_mapM hsteps)
  refine ⟨fun t ht => ?_, ?_, ?_⟩
  · obtain ⟨o, ho, hto⟩ := List.mem_flatMap.mp (mem_of_mem_firstBest ht)
    obtain ⟨s, hs, hstep⟩ := exists_right_of_forall₂ (forall₂_of_mapM hsteps).flip o ho
    obtain ⟨d, hoffer⟩ := (lists_pendingOf hstep).exists_label t hto
    exact (h.visits s hs).offered hoffer
  · have hle := massOf_firstBest_le k (steps.flatMap S.pendingOf)
    have htotal := h.mass_le
    dsimp only
    rw [massOf_append]
    linarith
  · rintro rfl hwide
    have hlists := hsurvey.lists_offers hlimit hsteps
    have hroom : (steps.flatMap S.pendingOf).length ≤ k := by
      have hcard := (hlists.length_le_encard (s := {route | route.length = n + 1 ∧
        ∃ s, S.Reaches program env route s}) fun _ s h => ⟨h.2, s, h.1⟩).trans (hwide (n + 1) rfl)
      exact_mod_cast hcard
    have htotal := h.mass_eq rfl hwide
    dsimp only
    rw [massOf_append, massOf_perm (firstBest_perm hroom)]
    linarith

/-- The probabilities of executions are the weights of the states that they are made of. -/
theorem sum_prob_eq {states : List (State D κ Exact)}
    {executions : List (Execution (Value D Exact) D Exact)}
    (h : List.Forall₂ (fun u e => u.execution = .ok e) states executions)
    (hadm : ∀ u ∈ states, Scalar.admissible u.logProb = true) :
    Scalar.sum (executions.map (·.prob)) = .real (massOf states) := by
  have hprob : executions.map (·.prob) = states.map fun u => .real u.logProb.weight := by
    induction h with
    | nil => rfl
    | @cons u e states executions hexec _ ih =>
        obtain ⟨value, -, rfl⟩ := State.execution_eq_ok_iff.mp hexec
        rw [List.map_cons, List.map_cons, ih fun u hu => hadm u (List.mem_cons_of_mem _ hu)]
        exact congrArg (· :: _) (Exact.exp_eq_weight (hadm u List.mem_cons_self))
  rw [hprob, Exact.sum_map_real]
  rfl

/-- The partition function of a search is the mass of the finished states that are kept, at a
level that conserves mass. -/
theorem exists_level_of_beamSearch (hzero : S.score = .zero) (hnorm : S.Normalizes program env)
    (hS : S.graph = g.view) (hg : g.RealParams) {config : SearchConfig}
    {m : Marginals (Value D Exact) D Exact}
    (hm : (S.beamSearch config program env).value = .ok m) : ∃ level n,
      S.Surveyed config.beamSize config.maxIterations program env n level ∧
      S.Weighed program env config.beamSize config.maxIterations level ∧
      (level.frontier = [] ∨ limitReached config.maxIterations n = true) ∧
      m.partition = .real (massOf (firstBest config.beamSize level.finished)) := by
  obtain ⟨level, hrun, hexec⟩ := beamSearch_eq_ok_iff.mp hm
  obtain ⟨⟨hsurvey, hweighed⟩, hstop⟩ := levels_invariant
    (P := fun n level => S.Surveyed config.beamSize config.maxIterations program env n level ∧
      S.Weighed program env config.beamSize config.maxIterations level)
    (fun h hlimit hnext => ⟨surveyed_next h.1 hlimit hnext,
      weighed_next hzero hnorm hS hg h.1 h.2 hlimit hnext⟩)
    ⟨surveyed_start _ _ _ _, weighed_start hzero _ _⟩ hrun
  refine ⟨level, m.iterations, hsurvey, hweighed, hstop, sum_prob_eq (forall₂_of_mapM hexec) ?_⟩
  intro u hu
  obtain ⟨route, hends, -, -⟩ := hsurvey.finished.exists_label u (mem_of_mem_firstBest hu)
  exact hends.admissible

/-- **Conservation of mass**: where all choices are normalized, the executions of a search have
a mass of at most one, whatever the beam and the limit, and exactly one if the beam is
exhaustive. On a choice tree that ends within the fuel every search succeeds, and from some
width on every beam is exhaustive. -/
theorem partition_of_normalizes (hzero : S.score = .zero) (hnorm : S.Normalizes program env)
    (hS : S.graph = g.view) (hg : g.RealParams) :
    (∀ config m, (S.beamSearch config program env).value = .ok m →
      ∃ x, m.partition = .real x ∧ 0 ≤ x ∧ x ≤ 1) ∧
    (∀ width m, S.Exhausts width program env →
      (S.beamSearch (.exhaustive width) program env).value = .ok m → m.partition = .real 1) ∧
    ∀ n, n < S.fuel → S.EndsWithin n (.initial program env) →
      (∀ config, ∃ m, (S.beamSearch config program env).value = .ok m) ∧
      ∃ enough, ∀ width, enough ≤ width → S.Exhausts width program env ∧
        ∃ m, (S.beamSearch (.exhaustive width) program env).value = .ok m ∧
          m.partition = .real 1 := by
  have hexact : ∀ width m, S.Exhausts width program env →
      (S.beamSearch (.exhaustive width) program env).value = .ok m → m.partition = .real 1 := by
    intro width m hroom hm
    obtain ⟨level, n, hsurvey, hweighed, hstop, hpartition⟩ :=
      exists_level_of_beamSearch hzero hnorm hS hg hm
    have hempty : level.frontier = [] :=
      hstop.resolve_right (by simp [SearchConfig.exhaustive, limitReached])
    have hlength : level.finished.length ≤ width := by
      have hcard := (hsurvey.finished.length_le_encard
        (s := {route | ∃ e, S.Survives program env route e})
        fun _ _ h => h.1.exists_execution).trans hroom.results
      exact_mod_cast hcard
    have hkept : (firstBest width level.finished).Perm level.finished := firstBest_perm hlength
    have htotal := hweighed.mass_eq rfl hroom.levels
    rw [hempty, massOf_nil, zero_add] at htotal
    rw [hpartition, ← htotal, ← massOf_perm hkept]
    rfl
  refine ⟨?_, hexact, ?_⟩
  · intro config m hm
    obtain ⟨level, n, -, hweighed, -, hpartition⟩ := exists_level_of_beamSearch hzero hnorm hS hg hm
    refine ⟨_, hpartition, massOf_nonneg _, ?_⟩
    have hfrontier := massOf_nonneg level.frontier
    have hkept := massOf_firstBest_le config.beamSize level.finished
    have htotal := hweighed.mass_le
    linarith
  · intro n hfuel hends
    have hroot : (State.initial program env).scored S.score = some (.initial program env) :=
      scored_of_zero hzero _
    refine ⟨hends.exists_beamSearch hroot hfuel, S.routeCount n (.initial program env), ?_⟩
    intro width hwidth
    obtain ⟨hroom, m, hm⟩ := hends.beamSearch hroot hfuel hwidth
    exact ⟨hroom, m, hm, hexact width m hroom hm⟩

end Setting

/-! ### A toss and a pick -/

/-- Tosses a biased coin and then picks a side by a parameter. -/
noncomputable def tossAndPick : Program Bool Unit Exact :=
  .bind (.chooseMap none [(true, .real (1 / 4)), (false, .real (3 / 4))] none)
    [{ name := none, code := () }]

/-- A locally normalized graph with an entry for each side. -/
noncomputable def picksGraph : Graph Exact :=
  Graph.addParameter { locallyNormalized := true } "w" [.real 0, .real 1]

/-- The search of a toss and a pick, in a locally normalized graph. -/
noncomputable def picks : Setting Bool Unit Exact where
  codes :=
    { resume := fun _ _ => .ok (.neural none [true, false] "w" none)
      consult := fun _ _ => .error .outOfFuel }
  graph := picksGraph
  score := .zero
  fuel := 8

theorem normalizes_tossAndPick : picks.Normalizes tossAndPick .init := by
  refine Setting.normalizes_of_closed (P := fun p => p = tossAndPick ∨
    p = .chooseMap none [(true, .real (1 / 4)), (false, .real (3 / 4))] none ∨
    p = .neural none [true, false] "w" none ∨ ∃ v, p = .value v) (.inl rfl)
    (fun v => .inr (.inr (.inr ⟨v, rfl⟩))) ?_ ?_ ?_
  · rintro p stack path q stack' path' (rfl | rfl | rfl | ⟨v, rfl⟩) h
    · cases h
      exact .inr (.inl rfl)
    · cases h
    · obtain ⟨_, -, heq⟩ := exists_alternatives_of_move h
      cases heq
    · cases stack with
      | nil => cases h
      | cons frame below => cases h; exact .inr (.inr (.inl rfl))
  · rintro p stack path inner stack' path' (rfl | rfl | rfl | ⟨v, rfl⟩) h
    · cases h
    · cases h
    · obtain ⟨_, -, heq⟩ := exists_alternatives_of_move h
      cases heq
    · obtain ⟨heq, -⟩ := eq_finished_of_feed h
      cases heq
  · rintro p (rfl | rfl | rfl | ⟨v, rfl⟩)
    · trivial
    · exact ⟨[(true, 1 / 4), (false, 3 / 4)], by norm_num, by norm_num, rfl⟩
    · exact ⟨by simp, rfl⟩
    · trivial

theorem realParams_picksGraph : picksGraph.RealParams :=
  .addParameter (fun _ _ h => by cases h) "w" [0, 1]

theorem endsWithin_tossAndPick : picks.EndsWithin 3 (.initial tossAndPick .init) := by
  have hend : ∀ t : State Bool Unit Exact, (∃ v, t.program = .value v) → t.stack = [] →
      picks.EndsWithin 1 t := by
    rintro ⟨program, stack, path, tag, choice, site⟩ ⟨v, hv⟩ hstack
    cases hv
    cases hstack
    exact .of_nil rfl rfl
  have hpick : ∀ t : State Bool Unit Exact, (∃ v, t.program = .value v) → t.stack.length = 1 →
      picks.EndsWithin 2 t := by
    rintro ⟨program, stack, path, tag, choice, site⟩ ⟨v, hv⟩ hstack
    cases hv
    obtain ⟨frame, rfl⟩ := List.length_eq_one_iff.mp hstack
    refine Setting.endsWithin_succ_iff.mpr ⟨_, rfl, fun t ht => ?_⟩
    obtain ⟨t₀, ht₀, hscore⟩ := List.mem_filterMap.mp ht
    rw [State.eq_of_scored hscore]
    rcases List.mem_pair.mp ht₀ with rfl | rfl
    · exact hend _ ⟨_, rfl⟩ rfl
    · exact hend _ ⟨_, rfl⟩ rfl
  refine Setting.endsWithin_succ_iff.mpr ⟨_, rfl, fun t ht => ?_⟩
  obtain ⟨t₀, ht₀, hscore⟩ := List.mem_filterMap.mp ht
  rw [State.eq_of_scored hscore]
  rcases List.mem_pair.mp ht₀ with rfl | rfl
  · exact hpick _ ⟨_, rfl⟩ rfl
  · exact hpick _ ⟨_, rfl⟩ rfl

/-- All outcomes of the toss and the pick weigh one, and no beam finds more. -/
theorem partition_tossAndPick : picks.score = .zero ∧ picks.Normalizes tossAndPick .init ∧
    picks.graph = picksGraph.view ∧ picksGraph.RealParams ∧
    (∃ width m, picks.Exhausts width tossAndPick .init ∧
      (picks.beamSearch (.exhaustive width) tossAndPick .init).value = .ok m ∧
      m.partition = .real 1) ∧
    ∀ config, ∃ m x, (picks.beamSearch config tossAndPick .init).value = .ok m ∧
      m.partition = .real x ∧ 0 ≤ x ∧ x ≤ 1 := by
  obtain ⟨hle, -, hends⟩ :=
    Setting.partition_of_normalizes (S := picks) rfl normalizes_tossAndPick rfl
      realParams_picksGraph
  obtain ⟨hrun, enough, hroom⟩ := hends 3 (by decide) endsWithin_tossAndPick
  obtain ⟨hexhausts, m, hm, hone⟩ := hroom enough le_rfl
  refine ⟨rfl, normalizes_tossAndPick, rfl, realParams_picksGraph,
    ⟨enough, m, hexhausts, hm, hone⟩, ?_⟩
  intro config
  obtain ⟨m, hm⟩ := hrun config
  obtain ⟨x, hx⟩ := hle config m hm
  exact ⟨m, x, hm, hx⟩

end ChoiceSearch
