import ChoiceSearch.Proofs.Search.Opening
import ChoiceSearch.Proofs.Search.SamplePaths

/-!
# Collapsed or not

A walk does not see whether a part of a program is collapsed. So exhaustive beam searches
of a program find the same executions whether or not its first part is collapsed, if states
without a choice score zero and nobody looks at timers
(`Setting.executions_collapsed_perm`).

Sampling walks straight through collapsed parts as well and never scores what comes out of
them. Its executions are those of an exhaustive beam search if that score is zero
(`Setting.exists_execution_of_sample`), but not otherwise (`sampled_of_rejected`).
-/

namespace ChoiceSearch

variable {D κ R : Type}

namespace Setting

section Collapsed

variable [Scalar R] {S : Setting D κ R} {inner : Program D κ R} {rest : List (Link κ)}
  {env : Env D R}

theorem arrives_collapsed_iff {stack : List (Frame κ)} {path path' : Path D R} {n : Nat}
    {choices : List Nat} {value : Value D R} :
    S.Arrives n (.root (.bind (.collapsed inner) rest) stack path) choices value path' ↔
      ∃ m, n = m + 1 ∧ S.Arrives m (.root (.bind inner rest) stack path) choices value path' := by
  let below := path.supply.push rest stack
  have hopen : S.Advances (.root (.bind (.collapsed inner) rest) stack path)
      (.collapsed inner below.1 { path with supply := below.2 }) :=
    (advances_iff_of_next rfl).mpr (advances_of_stop rfl)
  have hsame : ∀ t, S.Advances (.root (.bind inner rest) stack path) t ↔
      S.Advances (.root inner below.1 { path with supply := below.2 }) t := fun t =>
    advances_iff_of_next rfl
  rw [arrives_iff_of_collapsed hopen]
  constructor
  · rintro ⟨m, hm, h⟩
    exact ⟨m, hm, h.congr fun t => (hsame t).mpr⟩
  · rintro ⟨m, hm, h⟩
    exact ⟨m, hm, h.congr fun t => (hsame t).mp⟩

/-- Whether a search admits a program depends on the environment alone. -/
theorem exists_path_of_initial {program : Program D κ R} {root : State D κ R}
    (h : (State.initial program env).scored S.score = some root) :
    ∃ path, root = .root program [] path ∧
      ∀ p : Program D κ R, (State.initial p env).scored S.score = some (.root p [] path) := by
  simp only [State.scored] at h
  split at h
  · cases h
    exact ⟨_, rfl, fun p => if_pos ‹_›⟩
  · cases h

/-- **A walk does not see whether a part is collapsed.** -/
theorem walked_collapsed_iff {choices : List Nat} {e : Execution (Value D R) D R} :
    S.Walked (.bind (.collapsed inner) rest) env choices e ↔
      S.Walked (.bind inner rest) env choices e := by
  constructor
  · rintro ⟨root, n, value, path', u, hroot, harr, hscore, rfl⟩
    obtain ⟨path, rfl, hall⟩ := exists_path_of_initial hroot
    obtain ⟨m, -, harr⟩ := arrives_collapsed_iff.mp harr
    exact ⟨_, m, value, path', u, hall _, harr, hscore, rfl⟩
  · rintro ⟨root, n, value, path', u, hroot, harr, hscore, rfl⟩
    obtain ⟨path, rfl, hall⟩ := exists_path_of_initial hroot
    exact ⟨_, n + 1, value, path', u, hall _, arrives_collapsed_iff.mpr ⟨n, rfl, harr⟩, hscore, rfl⟩

variable [LawfulScalar R] [NeutralZero R] {code : κ → κ → Prop}

/-- **Collapsing the first part of a program does not change its executions**, each found
equally often with the same value, variables, labels, score and log-weight, if states
without a choice score zero and nobody looks at timers. -/
theorem executions_collapsed_perm (hS : S.IgnoresTimers code)
    (hprogram : (Program.bind inner rest).Like code (.bind inner rest))
    (hzero : ∀ e, Scalar.isZero (S.score none none e) = true) {fuel fuel' width width' : Nat}
    {m m' : Marginals (Value D R) D R}
    (hm : ((S.withFuel fuel).beamSearch (.exhaustive width) (.bind (.collapsed inner) rest)
      env).value = .ok m)
    (hroom : S.Exhausts width (.bind (.collapsed inner) rest) env)
    (hm' : ((S.withFuel fuel').beamSearch (.exhaustive width') (.bind inner rest)
      env).value = .ok m')
    (hroom' : S.Exhausts width' (.bind inner rest) env) :
    (m.executions.map Execution.untimed).Perm (m'.executions.map Execution.untimed) := by
  have hV : S.Transparent fun _ => True :=
    ⟨fun _ _ => trivial, fun _ => trivial, fun _ _ => trivial, fun _ _ => hzero _⟩
  have hcollapsed : (Program.bind (.collapsed inner) rest).Like code
      (.bind (.collapsed inner) rest) := by
    cases hprogram with
    | bind hinner hrest => exact .bind (.collapsed hinner) hrest
  have hwalks := lists_walked hS hV hcollapsed (fun _ _ => trivial)
    (lists_executions_withFuel hm hroom)
  have hwalks' := lists_walked hS hV hprogram (fun _ _ => trivial)
    (lists_executions_withFuel hm' hroom')
  -- the walks of both programs are the same, so they list the same executions
  simp only [walked_collapsed_iff] at hwalks
  refine hwalks.perm_of_functional hwalks' ?_ ?_
  · rintro choices x y ⟨e, he, rfl⟩ ⟨e', he', rfl⟩
    rw [he.unique he']
  · rintro choices x ⟨e, he, -⟩
    exact ⟨e, he⟩

end Collapsed

end Setting

/-! ## A collapsed toss -/

/-- The weighted toss of a coin whose choice is collapsed. -/
noncomputable def closedToss : Program Bool Unit Exact :=
  .bind (.collapsed (.choose none [true, false] none)) [{ name := none, code := () }]

theorem ignoresTimers_heads : heads.IgnoresTimers fun _ _ => True where
  resume _ _ := .ok (.factor _)
  consult _ := .error _ _
  score _ _ _ := rfl

theorem exhausts_closedToss : heads.Exhausts 2 closedToss .init ∧
    ∃ m, (heads.beamSearch (.exhaustive 2) closedToss .init).value = .ok m :=
  exhausts_of_single rfl rfl rfl fun _ => rfl

theorem isZero_zero : Scalar.isZero (Scalar.zero : Exact) = true := by
  simp [Scalar.isZero, Scalar.isNaN, Scalar.less, Scalar.zero, Exact.less]

/-- The toss has the same executions, heads among them, whether or not it is collapsed. -/
theorem executions_closedToss : ∃ m m',
    (heads.beamSearch (.exhaustive 2) closedToss .init).value = .ok m ∧
    (heads.beamSearch (.exhaustive 2) heavyToss .init).value = .ok m' ∧
    m'.executions ≠ [] ∧
    (m.executions.map Execution.untimed).Perm (m'.executions.map Execution.untimed) := by
  obtain ⟨hroom, m, hm⟩ := exhausts_closedToss
  obtain ⟨hroom', m', hm'⟩ := exhausts_heavyToss
  have hsome : m'.executions ≠ [] := by
    obtain ⟨e, he⟩ := exists_survives_heavyToss
    exact List.ne_nil_of_mem ((Setting.mem_executions_iff hm' hroom').mpr ⟨_, he⟩)
  exact ⟨m, m', hm, hm', hsome, Setting.executions_collapsed_perm ignoresTimers_heads
    (Program.Like.refl (fun _ => trivial) heavyToss) (fun _ => isZero_zero) hm hroom hm' hroom'⟩

namespace Setting

/-! ## Sampling -/

variable {S : Setting D κ Exact} {program : Program D κ Exact} {env : Env D Exact}
  {code : κ → κ → Prop} {V : State D κ Exact → Prop}

theorem exists_walked_of_sample (hfactor : ¬ S.Builds program (.factor Scalar.zero))
    {d d' : Draws} {e : Execution (Value D Exact) D Exact}
    (h : (S.sample program env d).value = (.ok e, d')) :
    ∃ choices, S.Walked program env choices e := by
  obtain ⟨root, n, choices, u, t, hroot, hwalk, ⟨value, path, hfin, hscore⟩, he, -⟩ :=
    exists_arrives_of_sample hfactor h
  refine ⟨choices, root, n, value, path, t, hroot, ⟨u, hwalk, hfin⟩, hscore, ?_⟩
  obtain ⟨value', hvalue, rfl⟩ := State.execution_eq_ok_iff.mp he
  rw [State.eq_of_scored hscore] at hvalue ⊢
  cases hvalue
  rfl

/-- **A sampled execution is found by exhaustive beam search**, up to timers, if the choice
tree ends and what comes out of collapsed parts scores zero. -/
theorem exists_execution_of_sample (hS : S.IgnoresTimers code) (hV : S.Transparent V)
    (hprogram : program.Like code program)
    (hroot : ∀ root, (State.initial program env).scored S.score = some root → V root)
    (hfactor : ¬ S.Builds program (.factor Scalar.zero)) {n : Nat} (hfuel : n < S.fuel)
    (hends : ∀ root, (State.initial program env).scored S.score = some root →
      S.EndsWithin n root) {d d' : Draws} {e : Execution (Value D Exact) D Exact}
    (h : (S.sample program env d).value = (.ok e, d')) :
    ∃ width₀, ∀ width ≥ width₀, ∃ m,
      (S.beamSearch (.exhaustive width) program env).value = .ok m ∧
      ∃ e' ∈ m.executions, e'.untimed = e.untimed := by
  obtain ⟨choices, hwalk⟩ := exists_walked_of_sample hfactor h
  obtain ⟨root, -, -, -, -, hstart, -⟩ := id hwalk
  refine ⟨S.routeCount n root, fun width hwidth => ?_⟩
  obtain ⟨hroom, m, hm⟩ := (hends root hstart).beamSearch hstart hfuel hwidth
  obtain ⟨route, e', hroute, -, heq⟩ := exists_survives_of_walked hS hV hprogram hroot hwalk
  exact ⟨m, hm, e', (mem_executions_iff hm hroom).mpr ⟨route, hroute⟩, heq⟩

end Setting

/-! ## A detour -/

/-- Sets a variable in a collapsed part. -/
noncomputable def detour : Program Bool Unit Exact :=
  .bind (.collapsed (.setEnv (Env.init.set "away" true))) [{ name := none, code := () }]

/-- The search in which the way back clears all variables. -/
noncomputable def travel (score : ExecutionScore Bool Exact) : Setting Bool Unit Exact where
  codes := { resume := fun _ _ => .ok (.setEnv .init), consult := fun _ _ => .error .outOfFuel }
  graph := Graph.view {}
  score
  fuel := 8

/-- The score that rejects every state in which the variable is set. -/
noncomputable def atHome : ExecutionScore Bool Exact := .filter fun env => !env.contains "away"

theorem ignoresTimers_travel : (travel .zero).IgnoresTimers fun _ _ => True where
  resume _ _ := .ok (.setEnv rfl)
  consult _ := .error _ _
  score _ _ _ := rfl

theorem not_builds_factor_detour {score : ExecutionScore Bool Exact} (w : Exact) :
    ¬ (travel score).Builds detour (.factor w) := by
  suffices hall : ∀ p, (travel score).Builds detour p → p = detour ∨
      (∃ e, p = .collapsed (.setEnv e)) ∨ (∃ e, p = .setEnv e) ∨ ∃ side, p = .value (.data side) by
    intro h
    rcases hall _ h with heq | ⟨e, heq⟩ | ⟨e, heq⟩ | ⟨side, heq⟩ <;> cases heq
  intro p h
  induction h with
  | self => exact .inl rfl
  | chosen side => exact .inr (.inr (.inr ⟨side, rfl⟩))
  | inner _ ih =>
      rcases ih with heq | ⟨e, heq⟩ | ⟨e, heq⟩ | ⟨side, heq⟩ <;> cases heq
      exact .inr (.inl ⟨_, rfl⟩)
  | resumed _ _ hres =>
      cases hres
      exact .inr (.inr (.inl ⟨_, rfl⟩))
  | consulted _ hcode => cases hcode
  | opened _ ih =>
      rcases ih with heq | ⟨e, heq⟩ | ⟨e, heq⟩ | ⟨side, heq⟩ <;> cases heq
      exact .inr (.inr (.inl ⟨_, rfl⟩))

/-- Where nothing is rejected, the detour is sampled and found. -/
theorem exists_execution_detour : ∃ (d : Draws) (e : Execution (Value Bool Exact) Bool Exact),
    ((travel .zero).sample detour .init d).value = (.ok e, d) ∧
    ∃ width₀, ∀ width ≥ width₀, ∃ m,
      ((travel .zero).beamSearch (.exhaustive width) detour .init).value = .ok m ∧
      ∃ e' ∈ m.executions, e'.untimed = e.untimed := by
  let d : Draws := { upcoming := Stream'.const ⟨0, le_rfl, one_pos⟩ }
  obtain ⟨e, hsample⟩ : ∃ e, ((travel .zero).sample detour .init d).value = (.ok e, d) := ⟨_, rfl⟩
  have hV : (travel .zero).Transparent fun _ => True :=
    ⟨fun _ _ => trivial, fun _ => trivial, fun _ _ => trivial, fun _ _ => isZero_zero⟩
  have hends : ∀ root, (State.initial detour .init).scored ExecutionScore.zero = some root →
      (travel .zero).EndsWithin 2 root := by
    intro root hroot
    obtain ⟨o, t, u, ho, hpending, hu⟩ : ∃ o t u, (travel .zero).step root = .ok o ∧
        (travel .zero).pendingOf o = [t] ∧ (travel .zero).step t = .ok (.finished u) := by
      cases hroot
      exact ⟨_, _, _, rfl, rfl, rfl⟩
    exact .of_single ho hpending (.of_nil hu rfl)
  exact ⟨d, e, hsample, Setting.exists_execution_of_sample ignoresTimers_travel hV
    (Program.Like.refl (fun _ => trivial) detour) (fun _ _ => trivial)
    (not_builds_factor_detour Scalar.zero) (by decide) hends hsample⟩

/-- **What comes out of a collapsed part is not scored by sampling**: the detour is sampled,
although an exhaustive beam search rejects it on the way. -/
theorem sampled_of_rejected : ∃ (d : Draws) (e : Execution (Value Bool Exact) Bool Exact),
    ((travel atHome).sample detour .init d).value = (.ok e, d) ∧
    (travel atHome).Exhausts 1 detour .init ∧
    ((travel atHome).beamSearch (.exhaustive 1) detour .init).value =
      .ok { executions := [], iterations := 1 } := by
  let d : Draws := { upcoming := Stream'.const ⟨0, le_rfl, one_pos⟩ }
  obtain ⟨e, hsample⟩ : ∃ e, ((travel atHome).sample detour .init d).value = (.ok e, d) := ⟨_, rfl⟩
  obtain ⟨root, o, hroot, ho, hpending⟩ : ∃ root o,
      (State.initial detour .init).scored (travel atHome).score = some root ∧
      (travel atHome).step root = .ok o ∧ (travel atHome).pendingOf o = [] :=
    ⟨_, _, rfl, rfl, rfl⟩
  have hends : (travel atHome).EndsWithin 1 root := .of_nil ho hpending
  have hcount : (travel atHome).routeCount 1 root = 1 := by
    rw [Setting.routeCount_of_step ho, hpending]
    rfl
  exact ⟨d, e, hsample, (hends.beamSearch hroot (by decide) hcount.le).1, rfl⟩

end ChoiceSearch
