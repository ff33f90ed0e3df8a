import ChoiceSearch.Proofs.Search.Exhaustion
import ChoiceSearch.Proofs.Search.Sampling

/-!
# Sampled executions and surviving paths

Sampling a program without collapsed parts and without a factor of zero is drawing from its
surviving paths (`Setting.samplesPaths_of_uncollapsed`): the executions of an exhaustive
beam search are those that are sampled for some numbers, and a sample takes one number for
every choice on its path.
-/

namespace ChoiceSearch

variable {D κ : Type}

namespace Setting

variable {S : Setting D κ Exact} {program : Program D κ Exact} {env : Env D Exact}

/-- The numbers of `d` lead along a route of the search to the state `s`. -/
def GuidedTo (S : Setting D κ Exact) (program : Program D κ Exact) (env : Env D Exact)
    (d : Draws) (route : List Decision) (s : State D κ Exact) : Prop :=
  ∃ root choices, (State.initial program env).scored S.score = some root ∧
    route = choices.map .take ∧ S.Guides d choices.length root choices s

/-- Sampling a program is drawing from its surviving paths. -/
structure SamplesPaths (S : Setting D κ Exact) (program : Program D κ Exact)
    (env : Env D Exact) : Prop where
  /-- A sampled execution is the end of a surviving path, and one number was taken for
  each of its choices. -/
  sound : ∀ (d d' : Draws) e, (S.sample program env d).value = (.ok e, d') →
    ∃ route, S.Survives program env route e ∧ d' = d.after route.length
  /-- Every surviving path is sampled for some numbers. -/
  complete : ∀ route e, S.Survives program env route e → ∃ (d : Draws) (fuel₀ : Nat),
    ∀ fuel ≥ fuel₀, ((S.withFuel fuel).sample program env d).value =
      (.ok e, d.after route.length)
  /-- Some numbers lead to each state that the search reaches, and to no other state. -/
  guided : ∀ route s, S.Reaches program env route s ↔ ∃ d, S.GuidedTo program env d route s
  /-- With fuel enough a sample goes where its numbers lead and ends there as the path stops,
  with one number for each choice on the route and none where it stops. At a choice whose
  alternatives are all rejected the path stops without an execution (`Stops.stuck`). -/
  settles : ∀ d route s r, S.GuidedTo program env d route s → S.Stops s r → ∃ fuel₀,
    ∀ fuel ≥ fuel₀, ((S.withFuel fuel).sample program env d).value =
      (r.sampled, d.after route.length)
  /-- A sample ends in no other way, unless the score rejects the initial state or there was
  no fuel left on the way. -/
  stops : ∀ d : Draws, ((State.initial program env).scored S.score = none ∧
      (S.sample program env d).value = (.error (.failed .sampleFailed), d)) ∨
    ∃ route s r, S.GuidedTo program env d route s ∧
      (S.Stops s r ∨ r = .error .outOfFuel ∧ S.Spent S.fuel route.length s) ∧
      (S.sample program env d).value = (r.sampled, d.after route.length)
  /-- The executions of an exhaustive beam search are those that are sampled for some
  numbers. -/
  exhaustive : ∀ width m, S.Exhausts width program env →
    (S.beamSearch (.exhaustive width) program env).value = .ok m → ∀ e, e ∈ m.executions ↔
      ∃ (fuel : Nat) (d d' : Draws), ((S.withFuel fuel).sample program env d).value = (.ok e, d')

theorem Builds.withFuel {fuel : Nat} {p : Program D κ Exact}
    (h : (S.withFuel fuel).Builds program p) : S.Builds program p := by
  induction h with
  | self => exact .self
  | chosen d => exact .chosen d
  | inner _ ih => exact .inner ih
  | resumed _ hlink hres ih => exact .resumed ih hlink hres
  | consulted _ hcode ih => exact .consulted ih hcode
  | opened _ ih => exact .opened ih

theorem builtOf_of_offers {s t : State D κ Exact} {i : Nat} (hs : S.BuiltOf program s)
    (h : S.Offers s (.take i) t) : S.BuiltOf program t := by
  obtain ⟨t₀, ⟨_, _, _, _, _, hadv, hget⟩, hscore⟩ := h
  exact builtOf_of_choice hadv hget hscore hs

theorem not_advances_collapsed (hplain : S.Uncollapsed program) {s : State D κ Exact}
    (hs : S.BuiltOf program s) (inner : Program D κ Exact) (stack : List (Frame κ))
    (path : Path D Exact) : ¬ S.Advances s (.collapsed inner stack path) := by
  intro hadv
  have hmove := hs.of_advances (Q := fun _ => True) (fun _ _ _ _ _ => trivial) hadv trivial
  exact hplain inner (hmove.2.2 inner stack path rfl)

/-- Without collapsed parts the routes of a search are the walks of sampling. -/
theorem reaches_iff_walks (hplain : S.Uncollapsed program) {root u : State D κ Exact}
    (hroot : (State.initial program env).scored S.score = some root) {route : List Decision} :
    S.Reaches program env route u ↔
      ∃ choices, route = choices.map .take ∧ S.Walks choices.length root choices u := by
  rw [← follows_iff_walks (fun s => not_advances_collapsed hplain)
    (fun s t i => builtOf_of_offers) (builtOf_of_initial hroot)]
  constructor
  · rintro ⟨root', hroot', hs⟩
    rw [hroot] at hroot'
    cases hroot'
    exact hs
  · exact fun hs => ⟨root, hroot, hs⟩

theorem reaches_of_walks (hplain : S.Uncollapsed program) {root u : State D κ Exact}
    (hroot : (State.initial program env).scored S.score = some root) {n : Nat}
    {choices : List Nat} (h : S.Walks n root choices u) :
    S.Reaches program env (choices.map .take) u := by
  have hn := h.length_eq (fun s => not_advances_collapsed hplain)
    (fun s t i => builtOf_of_offers) (builtOf_of_initial hroot)
  exact (reaches_iff_walks hplain hroot).mpr ⟨choices, rfl, hn ▸ h⟩

theorem exists_survives_of_sample (hplain : S.Uncollapsed program)
    (hfactor : ¬ S.Builds program (.factor Scalar.zero)) {d d' : Draws}
    {e : Execution (Value D Exact) D Exact} (h : (S.sample program env d).value = (.ok e, d')) :
    ∃ route, S.Survives program env route e ∧ d' = d.after route.length := by
  obtain ⟨root, n, choices, u, t, hroot, hwalk, hfin, he, rfl⟩ :=
    exists_arrives_of_sample hfactor h
  obtain ⟨value, hvalue, rfl⟩ := State.execution_eq_ok_iff.mp he
  refine ⟨choices.map .take, ?_, by rw [List.length_map]⟩
  exact ⟨t, value, ⟨u, reaches_of_walks hplain hroot hwalk, hfin⟩, hvalue, rfl⟩

/-- The numbers of a walk lead along a route. -/
theorem guidedTo_of_guides (hplain : S.Uncollapsed program) {root u : State D κ Exact}
    (hroot : (State.initial program env).scored S.score = some root) {d : Draws} {n : Nat}
    {choices : List Nat} (h : S.Guides d n root choices u) :
    n = choices.length ∧ S.GuidedTo program env d (choices.map .take) u := by
  have hn := h.walks.length_eq (fun s => not_advances_collapsed hplain)
    (fun s t i => builtOf_of_offers) (builtOf_of_initial hroot)
  exact ⟨hn, root, choices, hroot, rfl, hn ▸ h⟩

theorem reaches_iff_exists_guidedTo (hplain : S.Uncollapsed program) {route : List Decision}
    {s : State D κ Exact} :
    S.Reaches program env route s ↔ ∃ d, S.GuidedTo program env d route s := by
  constructor
  · intro hreach
    obtain ⟨root, hroot, -⟩ := id hreach
    obtain ⟨choices, rfl, hwalk⟩ := (reaches_iff_walks hplain hroot).mp hreach
    obtain ⟨numbers, -, hguide⟩ := exists_draws_of_walks hwalk (Stream'.const ⟨0, le_rfl, one_pos⟩)
    exact ⟨⟨numbers, 0⟩, root, choices, hroot, rfl, hguide 0⟩
  · rintro ⟨d, root, choices, hroot, rfl, hguide⟩
    exact reaches_of_walks hplain hroot hguide.walks

/-- With fuel enough a sample ends where its numbers lead. -/
theorem GuidedTo.exists_fuel (hfactor : ¬ S.Builds program (.factor Scalar.zero)) {d : Draws}
    {route : List Decision} {s : State D κ Exact} (h : S.GuidedTo program env d route s)
    {r : Result Exact (Option (Execution (Value D Exact) D Exact))} (hstop : S.Stops s r) :
    ∃ fuel₀, ∀ fuel ≥ fuel₀,
      ((S.withFuel fuel).sample program env d).value = (r.sampled, d.after route.length) := by
  obtain ⟨root, choices, hroot, rfl, hguide⟩ := h
  rw [List.length_map]
  exact exists_fuel_of_guides hfactor hroot hguide hstop

/-- **Sampling draws from the surviving paths** of a program without collapsed parts and
without a factor of zero. -/
theorem samplesPaths_of_uncollapsed (hplain : S.Uncollapsed program)
    (hfactor : ¬ S.Builds program (.factor Scalar.zero)) : S.SamplesPaths program env := by
  have hcomplete : ∀ route e, S.Survives program env route e → ∃ (d : Draws) (fuel₀ : Nat),
      ∀ fuel ≥ fuel₀, ((S.withFuel fuel).sample program env d).value =
        (.ok e, d.after route.length) := by
    rintro route e ⟨t, value, ⟨u, hreach, hfin⟩, hvalue, rfl⟩
    obtain ⟨d, hguide⟩ := (reaches_iff_exists_guidedTo hplain).mp hreach
    exact ⟨d, hguide.exists_fuel hfactor (.returned hfin hvalue)⟩
  refine ⟨fun d d' e => exists_survives_of_sample hplain hfactor, hcomplete,
    fun route s => reaches_iff_exists_guidedTo hplain,
    fun d route s r hguide hstop => hguide.exists_fuel hfactor hstop, fun d => ?_, ?_⟩
  · rcases exists_guides_of_sample env hfactor d with h |
      ⟨root, m, choices, u, r, hroot, hguide, hend, hr⟩
    · exact .inl h
    · obtain ⟨rfl, hguided⟩ := guidedTo_of_guides hplain hroot hguide
      rw [← List.length_map (f := Decision.take)] at hend hr
      exact .inr ⟨choices.map .take, u, r, hguided, hend, hr⟩
  · intro width m hroom hm e
    rw [mem_executions_iff hm hroom]
    constructor
    · rintro ⟨route, hroute⟩
      obtain ⟨d, fuel₀, hrun⟩ := hcomplete route e hroute
      exact ⟨fuel₀, d, _, hrun fuel₀ le_rfl⟩
    · rintro ⟨fuel, d, d', hrun⟩
      obtain ⟨route, hroute, -⟩ := exists_survives_of_sample (S := S.withFuel fuel)
        (fun inner h => hplain inner h.withFuel) (fun h => hfactor h.withFuel) hrun
      exact ⟨route, survives_withFuel.mp hroute⟩

end Setting

theorem uncollapsed_heavyToss : heads.Uncollapsed heavyToss := by
  intro inner h
  rcases builds_heavyToss h with heq | heq | ⟨side, heq⟩ | heq <;> cases heq

theorem exists_survives_heavyToss : ∃ e, heads.Survives heavyToss .init [.take 0] e := by
  obtain ⟨s, hs, hnext, x, hx⟩ : ∃ s, heads.Reaches heavyToss .init [.take 0] s ∧
      (∀ t, heads.Advances (.root (.factor (.real 2)) [] s.path) t → heads.Advances s t) ∧
      ∃ x : ℝ, s.path.logProb = .real x :=
    ⟨_, ⟨_, rfl, .take ⟨2, rfl⟩ rfl rfl .nil⟩, fun t ⟨fuel, h⟩ => ⟨fuel + 1, h⟩, _, rfl⟩
  have hlog : Scalar.log (Exact.real 2) = .real (Real.log 2) := if_pos two_pos
  have hfin := hnext _ ⟨1, advance_factor 0 zero_le_two s.path⟩
  rw [hx, hlog] at hfin
  exact ⟨_, _, _, ⟨s, hs, _, _, hfin, rfl⟩, rfl, rfl⟩

/-- A beam with room for two states is exhaustive if heads is the only way on, to the
weight of two. -/
theorem exhausts_of_single {program : Program Bool Unit Exact} {root t : State Bool Unit Exact}
    {path : Path Bool Exact} (hroot : (State.initial program .init).scored heads.score = some root)
    {o : Step Bool Unit Exact} (ho : heads.step root = .ok o) (hpending : heads.pendingOf o = [t])
    (ht : ∀ fuel, advance heads.codes heads.graph (fuel + 1) t.program t.stack t.path =
      advance heads.codes heads.graph fuel (.factor (.real 2)) [] path) :
    heads.Exhausts 2 program .init ∧
      ∃ m, (heads.beamSearch (.exhaustive 2) program .init).value = .ok m := by
  obtain ⟨u, hu⟩ : ∃ u, heads.step t = .ok (.finished u) :=
    ⟨_, Setting.step_of_finished ((ht 7).trans (advance_factor 6 zero_le_two path))⟩
  have hwithin : heads.EndsWithin 2 root := .of_single ho hpending (.of_nil hu rfl)
  have hcount : heads.routeCount 2 root = 2 := by
    rw [Setting.routeCount_of_step ho, hpending, List.map_singleton,
      Setting.routeCount_of_step hu]
    rfl
  exact hwithin.beamSearch hroot (by decide) hcount.le

theorem exhausts_heavyToss : heads.Exhausts 2 heavyToss .init ∧
    ∃ m, (heads.beamSearch (.exhaustive 2) heavyToss .init).value = .ok m :=
  exhausts_of_single rfl rfl rfl fun _ => rfl

/-- The choice of tails, which the search for heads rejects. -/
noncomputable def tailsOnly : Program Bool Unit Exact := .choose none [false] none

theorem builds_tailsOnly {p : Program Bool Unit Exact} (h : heads.Builds tailsOnly p) :
    p = tailsOnly ∨ ∃ side, p = .value (.data side) := by
  induction h with
  | self => exact .inl rfl
  | chosen side => exact .inr ⟨side, rfl⟩
  | inner _ ih | resumed _ _ _ ih | opened _ ih => rcases ih with heq | ⟨side, heq⟩ <;> cases heq
  | consulted _ hcode => cases hcode

/-- The search comes to the choice of tails, and no path goes on from there. -/
theorem exists_stuck_tailsOnly :
    ∃ s, heads.Reaches tailsOnly .init [] s ∧ heads.Stops s (.ok none) :=
  ⟨_, ⟨_, rfl, .nil⟩, .stuck ⟨1, rfl⟩ rfl⟩

/-- Sampling the toss draws from its surviving paths, one of which is heads; and sampling the
choice of tails stops at it. -/
theorem samplesPaths_heavyToss : (∃ e, heads.Survives heavyToss .init [.take 0] e) ∧
    (heads.Exhausts 2 heavyToss .init ∧
      ∃ m, (heads.beamSearch (.exhaustive 2) heavyToss .init).value = .ok m) ∧
    heads.SamplesPaths heavyToss .init ∧
    (∃ s, heads.Reaches tailsOnly .init [] s ∧ heads.Stops s (.ok none)) ∧
    heads.SamplesPaths tailsOnly .init := by
  refine ⟨exists_survives_heavyToss, exhausts_heavyToss,
    Setting.samplesPaths_of_uncollapsed uncollapsed_heavyToss not_builds_zero_heavyToss,
    exists_stuck_tailsOnly, Setting.samplesPaths_of_uncollapsed (fun inner h => ?_) fun h => ?_⟩
  · rcases builds_tailsOnly h with heq | ⟨side, heq⟩ <;> cases heq
  · rcases builds_tailsOnly h with heq | ⟨side, heq⟩ <;> cases heq

end ChoiceSearch
