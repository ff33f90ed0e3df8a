import ChoiceSearch.Proofs.Search.Discovery
import ChoiceSearch.Proofs.Search.Merging
import ChoiceSearch.Proofs.Search.Ordering

/-!
# The choice graph of a sum-product search

Cycles are found in two places: an exploration stops at an edge into an active vertex, and the
vertices of a whole graph are ordered before weight is pushed through it. Edges into vertices
that wait or are done pass the first test. The two together reject exactly the graphs with a
cycle, and otherwise every vertex receives the summed weight of the paths that lead to it
(`Setting.exists_graphSound`). This holds for any program and any limit, also if the exploration
is cut off.
-/

namespace ChoiceSearch

variable {D κ : Type}

namespace Exploration

variable {R : Type} {x : Exploration D κ R} {v : Nat}

/-- A vertex that is not a final value. -/
def Inner (x : Exploration D κ R) (v : Nat) : Prop :=
  v < x.vertices.size ∧ ∀ u, x.stage? v ≠ some (.terminal u)

/-- Only inner vertices are entered. -/
theorem Entered.inner (h : x.Entered v) : x.Inner v := by
  refine ⟨h.lt_size, fun u hu => ?_⟩
  rcases h with h | h
  · cases h.symm.trans hu
  · cases h.symm.trans hu

/-- A vertex that neither waits nor is active is entered or a final value. -/
theorem Inner.entered (h : x.Inner v) (hactive : x.stage? v ≠ some .active)
    (hpending : ∀ s, x.stage? v ≠ some (.pending s)) : x.Entered v := by
  obtain ⟨hv, hterminal⟩ := h
  obtain ⟨stage, hstage⟩ : ∃ stage, x.stage? v = some stage := by
    unfold stage?
    rw [Array.getElem?_eq_getElem hv]
    exact ⟨_, rfl⟩
  cases stage with
  | pending s => exact absurd hstage (hpending s)
  | active => exact absurd hstage hactive
  | done => exact .inr hstage
  | terminal u => exact absurd hstage (hterminal u)

/-- A finished state with a weight is that of a vertex. -/
theorem exists_of_mem_terminals {mass : Array R} {p : State D κ R × R}
    (hp : p ∈ x.terminals mass) : ∃ v, x.stage? v = some (.terminal p.1) := by
  obtain ⟨⟨vertex, m⟩, hmem, hf⟩ := List.mem_filterMap.mp hp
  obtain ⟨v, hv⟩ := List.mem_iff_getElem?.mp hmem
  rw [List.getElem?_zip_eq_some] at hv
  obtain ⟨hvertex, -⟩ := hv
  rw [Array.getElem?_toList] at hvertex
  dsimp only at hf
  split at hf
  · rename_i u hstage
    cases hf
    refine ⟨v, ?_⟩
    unfold stage?
    rw [hvertex]
    exact congrArg some hstage
  · cases hf

/-- Every vertex has received the weight of its paths, and every final value of a result has
the weight of its vertex. -/
def Weighed (x : Exploration D κ Extended) (logWeight : Extended)
    (result : SumProduct (Value D Extended) D Extended) : Prop :=
  ∃ mass, pathMass x.vertices (Scalar.exp logWeight) = .ok mass ∧
    (∀ v < x.vertices.size,
      mass[v]? = some (.ofMass (pathSum x.vertices logWeight.weight v))) ∧
    List.Forall₂ (fun p t => p.1.program = .value t.value ∧ t.env = p.1.path.env ∧ t.prob = p.2)
      (x.terminals mass) result.terminals

end Exploration

open Exploration

/-- The result of a graph whose vertices cannot be ordered. -/
theorem Setting.value_summarize_error {R : Type} [Scalar R] {x : Exploration D κ R}
    {truncated : Bool} {rootMass : R} {e : Error R}
    (hpath : pathMass x.vertices rootMass = .error e) :
    (Setting.summarize x truncated rootMass).value = .error (.failed e) := by
  unfold Setting.summarize
  rw [hpath]
  rfl

/-- What is finished has a final value. -/
theorem Exploration.Surveyed.exists_terminals {R : Type} [Scalar R] {x : Exploration D κ R}
    (h : x.Surveyed) (mass : Array R) :
    ∃ terminals, (x.terminals mass).mapM Merger.terminalOf = .ok terminals := by
  refine exists_mapM_eq_ok fun p hp => ?_
  obtain ⟨v, hv⟩ := exists_of_mem_terminals hp
  obtain ⟨value, hvalue⟩ := h.values v p.1 hv
  unfold Merger.terminalOf
  rw [hvalue]
  exact ⟨_, rfl⟩

/-- A graph is summed up, or it has a cycle. -/
theorem Exploration.Surveyed.summarize {x : Exploration D κ Extended} (h : x.Surveyed)
    {logWeight : Extended} (hadm : Scalar.admissible logWeight = true) (truncated : Bool) :
    (¬ Cyclic x.vertices ∧ ∃ result, x.Weighed logWeight result ∧ result.truncated = truncated ∧
      (Setting.summarize x truncated (Scalar.exp logWeight)).value = .ok result) ∨
    (Cyclic x.vertices ∧ ∃ v, (Setting.summarize x truncated (Scalar.exp logWeight)).value =
      .error (.failed (.cyclicProgram v))) := by
  have hcases := h.discovered.pathMass_cases (Extended.weight_ne_zero hadm)
  rw [← Extended.exp_eq_ofMass hadm] at hcases
  rcases hcases with ⟨hacyclic, mass, hpath, hsize, hmass⟩ | ⟨hcyclic, v, hpath⟩
  · obtain ⟨terminals, hterminals⟩ := h.exists_terminals mass
    have hall := (forall₂_of_mapM hterminals).imp fun p t => Merger.eq_of_terminalOf
    exact .inl ⟨hacyclic, _, ⟨mass, hpath, hmass, hall⟩, rfl,
      Merger.value_summarize hpath hterminals⟩
  · exact .inr ⟨hcyclic, v, Setting.value_summarize_error hpath⟩

namespace Setting

/-- What a sum-product search from an admitted initial state makes of its choice graph: the
exploration expands the given vertices, leaves the given graph and ends, and the search ends
with the given outcome. -/
structure GraphSound (S : Setting D κ Extended) (config : SearchConfig)
    (root : State D κ Extended) (x : Exploration D κ Extended) (ending : Ending Extended)
    (expanded : List Nat) (run : Result Extended (SumProduct (Value D Extended) D Extended)) :
    Prop where
  /-- No two vertices have the same key. -/
  keys : ∀ v w key, x.key? v = some key → x.key? w = some key → v = w
  /-- The given vertices are those that are expanded. -/
  account : S.Explores config.maxIterations (Exploration.addPending {} root) expanded x ending
  /-- No vertex is expanded twice. -/
  once : expanded.Nodup
  /-- Final values are not expanded. -/
  inner : ∀ v ∈ expanded, x.Inner v
  /-- Unless the result is truncated, everything else is. -/
  all : ∀ result, run = .ok result → result.truncated = false → ∀ v, x.Inner v → v ∈ expanded
  /-- The program is rejected as cyclic if and only if the edges contain a cycle, those of a
  vertex in the midst of its expansion and the one that ended it included. -/
  cyclic : (∃ v, run = .error (.failed (.cyclicProgram v))) ↔ Cyclic x.vertices
  /-- Without a cycle there is a result. -/
  acyclic : ¬ Cyclic x.vertices → ∃ result, run = .ok result
  /-- Every vertex receives the weight of its paths. -/
  masses : ∀ result, run = .ok result → x.Weighed root.logProb result

variable {S : Setting D κ Extended} {config : SearchConfig} {program : Program D κ Extended}
  {env : Env D Extended} {root : State D κ Extended} {x : Exploration D κ Extended}
  {ending : Ending Extended}

/-- How a sum-product search ends, by the graph that it has explored. -/
theorem sumProduct_cases (hroot : S.sumRoot? program env = some root)
    (hrun : (S.explore config.maxIterations S.fuel (Exploration.addPending {} root)).value =
      (x, ending)) (hsound : ∀ halt, ending ≠ .halted halt) (hx : x.Surveyed)
    (hclosed : ∀ target, ending = .cyclic target → Cyclic x.vertices) :
    (¬ Cyclic x.vertices ∧ ∃ result, (S.sumProduct config program env).value = .ok result ∧
      x.Weighed root.logProb result ∧ (result.truncated = false → ending = .complete)) ∨
    (Cyclic x.vertices ∧ ∃ v, (S.sumProduct config program env).value =
      .error (.failed (.cyclicProgram v))) := by
  have hadm := (State.logProb_of_scored hroot).1
  have hvalue := value_sumProduct hroot config
  rw [hrun] at hvalue
  rw [hvalue]
  cases ending with
  | complete =>
      rcases hx.summarize hadm false with ⟨hacyclic, result, hweighed, -, hresult⟩ | hcyclic
      · exact .inl ⟨hacyclic, result, hresult, hweighed, fun _ => rfl⟩
      · exact .inr hcyclic
  | truncated =>
      rcases hx.summarize hadm true with ⟨hacyclic, result, hweighed, hcut, hresult⟩ | hcyclic
      · refine .inl ⟨hacyclic, result, hresult, hweighed, fun hfalse => ?_⟩
        rw [hcut] at hfalse
        cases hfalse
      · exact .inr hcyclic
  | cyclic target => exact .inr ⟨hclosed target rfl, target, rfl⟩
  | halted halt => exact absurd rfl (hsound halt)

/-- **The choice graph of a sum-product search is sound**, for every program, unless a
transition fails. A program whose initial state is rejected has no graph and no final
value. -/
theorem exists_graphSound (S : Setting D κ Extended) (config : SearchConfig)
    (program : Program D κ Extended) (env : Env D Extended) :
    (S.sumRoot? program env = none → (S.sumProduct config program env).value = .ok {}) ∧
    ∀ root x ending, S.sumRoot? program env = some root →
      (S.explore config.maxIterations S.fuel (Exploration.addPending {} root)).value =
        (x, ending) →
      (∀ halt, ending ≠ .halted halt) →
      ∃ expanded,
        S.GraphSound config root x ending expanded (S.sumProduct config program env).value := by
  refine ⟨fun hnone => ?_, fun root x ending hroot hrun hsound => ?_⟩
  · unfold sumProduct
    rw [hnone]
    rfl
  · obtain ⟨hstart, hidle⟩ := traversed_start root
    obtain ⟨expanded, haccount⟩ := exists_explores S.fuel hrun hsound
    have houtcome := haccount.outcome hstart
    have hentered : ∀ v, x.Entered v ↔ v ∈ expanded := fun v =>
      (houtcome.entered v).trans (or_iff_right (hidle v))
    have hinner : ∀ v ∈ expanded, x.Inner v := fun v hv => ((hentered v).mpr hv).inner
    -- at the end nothing waits and nothing is active any more
    have hall : ending = .complete → ∀ v, x.Inner v → v ∈ expanded := by
      intro hend v hv
      obtain ⟨hactive, hpending⟩ := houtcome.settled hend v
      exact (hentered v).mp (hv.entered hactive hpending)
    refine ⟨expanded, ?_⟩
    rcases sumProduct_cases hroot hrun hsound houtcome.surveyed houtcome.cyclic with
      ⟨hacyclic, result, hresult, hweighed, hcomplete⟩ | ⟨hcyclic, v, hrejected⟩
    · rw [hresult]
      refine ⟨houtcome.surveyed.keys, haccount, houtcome.nodup, hinner, ?_, ?_, ?_, ?_⟩
      · rintro _ ⟨⟩ hfalse
        exact hall (hcomplete hfalse)
      · exact ⟨nofun, fun hcyclic => absurd hcyclic hacyclic⟩
      · exact fun _ => ⟨result, rfl⟩
      · rintro _ ⟨⟩
        exact hweighed
    · rw [hrejected]
      refine ⟨houtcome.surveyed.keys, haccount, houtcome.nodup, hinner, nofun, ?_, ?_, nofun⟩
      · exact ⟨fun _ => hcyclic, fun _ => ⟨v, rfl⟩⟩
      · exact fun hacyclic => absurd hcyclic hacyclic

end Setting

/-! ### Two ways that join -/

/-- The step after a fork. -/
inductive ForkStep where
  /-- Forgets which way was taken. -/
  | join

/-- Searches of programs whose ways join. -/
noncomputable def joins : Setting Bool ForkStep Extended where
  codes :=
    { resume := fun _ _ => .ok (.choose (some 0) [true] none)
      consult := fun _ _ => .error .outOfFuel }
  graph := Graph.view {}
  score := .zero
  fuel := 12

/-- A choice, after which both ways lead to the same alternative of another one. -/
noncomputable def fork : Program Bool ForkStep Extended :=
  (Program.choose none [true, false] none).thenStep { name := some 1, code := .join }

/-- The fork as it is admitted. -/
noncomputable def forkRoot : State Bool ForkStep Extended :=
  { State.initial fork .init with
    path := { (State.initial fork .init).path with logProb := Scalar.zero + Scalar.zero } }

/-- Both ways of a fork lead to one vertex: five vertices with five edges between them have a
single final value. If everything is rejected, there is no graph. -/
theorem graphSound_fork : ∃ x expanded,
    joins.sumRoot? fork .init = some forkRoot ∧
    (joins.explore 0 joins.fuel (Exploration.addPending {} forkRoot)).value = (x, .complete) ∧
    (∀ halt, (Ending.complete : Ending Extended) ≠ .halted halt) ∧
    joins.GraphSound {} forkRoot x .complete expanded (joins.sumProduct {} fork .init).value ∧
    x.vertices.size = 5 ∧ x.edgeCount = 5 ∧
    (∃ result, (joins.sumProduct {} fork .init).value = .ok result ∧
      result.terminals.length = 1) ∧
    { joins with score := fun _ _ _ => .nan }.sumRoot? fork .init = none ∧
    ({ joins with score := fun _ _ _ => .nan }.sumProduct {} fork .init).value = .ok {} := by
  have hroot : joins.sumRoot? fork .init = some forkRoot := rfl
  have hsize : (joins.explore 0 joins.fuel (.addPending {} forkRoot)).value.1.vertices.size = 5 := by
    decide +kernel
  have hedges : (joins.explore 0 joins.fuel (.addPending {} forkRoot)).value.1.edgeCount = 5 := by
    decide +kernel
  have hcomplete : (match (joins.explore 0 joins.fuel (.addPending {} forkRoot)).value.2 with
      | .complete => true
      | _ => false) = true := by
    decide +kernel
  have hfinal : (match (joins.sumProduct {} fork .init).value with
      | .ok result => result.terminals.length == 1
      | .error _ => false) = true := by
    decide +kernel
  have hending : ∀ halt, (Ending.complete : Ending Extended) ≠ .halted halt := by
    intro halt heq
    cases heq
  obtain ⟨x, ending, hrun⟩ : ∃ x ending,
      (joins.explore 0 joins.fuel (.addPending {} forkRoot)).value = (x, ending) := ⟨_, _, rfl⟩
  rw [hrun] at hsize hedges hcomplete
  cases ending with
  | complete =>
      obtain ⟨expanded, hsound⟩ :=
        (Setting.exists_graphSound joins {} fork .init).2 forkRoot x .complete hroot hrun hending
      have hrejected : { joins with score := fun _ _ _ => .nan }.sumRoot? fork .init = none := rfl
      have hempty :=
        (Setting.exists_graphSound { joins with score := fun _ _ _ => .nan } {} fork .init).1
          hrejected
      refine ⟨x, expanded, hroot, hrun, hending, hsound, hsize, hedges, ?_, hrejected, hempty⟩
      cases hresult : (joins.sumProduct {} fork .init).value with
      | error halt =>
          rw [hresult] at hfinal
          cases hfinal
      | ok result =>
          rw [hresult] at hfinal
          exact ⟨result, rfl, beq_iff_eq.mp hfinal⟩
  | _ => cases hcomplete

end ChoiceSearch
