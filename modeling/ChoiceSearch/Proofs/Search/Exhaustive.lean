import ChoiceSearch.Proofs.Search.Survival
import ChoiceSearch.Proofs.Search.Tree

/-!
# Exhaustive beam search

A beam search whose beam has room for the whole choice tree, and which has no limit on its
rounds, is exhaustive: it succeeds when every step of the tree does, and its executions
weigh what the tree weighs (`Setting.beamSearch_exhaustive`).

The weight that a level stands for is the weight of what has finished and the weight of
the trees below its frontier. A round leaves it as it is (`Setting.levelTotal_nextLevel`).
-/

namespace ChoiceSearch

variable {D κ : Type}

/-- A sum over joined lists, list by list. -/
theorem sum_map_flatMap {α β M : Type} [AddCommMonoid M] (f : α → List β) (g : β → M)
    (xs : List α) :
    ((xs.flatMap f).map g).sum = (xs.map fun x => ((f x).map g).sum).sum := by
  induction xs with
  | nil => rfl
  | cons x xs ih =>
      rw [List.flatMap_cons, List.map_append, List.sum_append, ih, List.map_cons, List.sum_cons]

namespace Setting

variable {S : Setting D κ Exact} {W : View D κ} {q : Value D Exact → Bool}

/-- The weight that a level stands for. -/
noncomputable def levelTotal (S : Setting D κ Exact) (q : Value D Exact → Bool) (n : Nat)
    (level : Level D κ Exact) : ℝ :=
  (level.frontier.map fun s => s.logProb.weight * S.total q n s).sum +
    (level.finished.map (·.endWeight q)).sum

/-- A bound on the states that a level stands for. -/
noncomputable def levelSize (S : Setting D κ Exact) (n : Nat) (level : Level D κ Exact) : Nat :=
  (level.frontier.map (S.size n)).sum + level.finished.length

/-- All states of a level have admissible log-weights and trees of bounded depth. -/
def LevelBounded (S : Setting D κ Exact) (n : Nat) (level : Level D κ Exact) : Prop :=
  ∀ s ∈ level.frontier, Scalar.admissible s.logProb = true ∧ S.Bounded n s

theorem length_finishedOf_le (o : Step D κ Exact) : (S.finishedOf o).length ≤ 1 := by
  cases o with
  | finished u => exact List.length_filterMap_le _ [u]
  | pending states => exact Nat.zero_le _

theorem admissible_of_mem_pendingOf {o : Step D κ Exact} {t : State D κ Exact}
    (ht : t ∈ S.pendingOf o) : Scalar.admissible t.logProb = true := by
  cases o with
  | finished u => cases ht
  | pending states =>
      obtain ⟨t₀, -, hscore⟩ := List.mem_filterMap.mp ht
      exact (State.logProb_of_scored hscore).1

theorem one_le_size (n : Nat) (s : State D κ Exact) : 1 ≤ S.size n s := by
  unfold size
  cases n with
  | zero => exact le_rfl
  | succ n =>
      rw [fold]
      split
      · exact le_rfl
      · exact le_rfl
      · exact Nat.le_add_right 1 _

theorem length_le_sum_size (n : Nat) (states : List (State D κ Exact)) :
    states.length ≤ (states.map (S.size n)).sum := by
  induction states with
  | nil => exact le_rfl
  | cons s states ih =>
      have hone := one_le_size (S := S) n s
      rw [List.length_cons, List.map_cons, List.sum_cons]
      omega

section Steps

variable {n : Nat} {states : List (State D κ Exact)} {steps : List (Step D κ Exact)}

/-- The weight below the states of a level is below their offers, or has finished. -/
theorem total_of_steps (hW : W.Lawful S) (hq : W.Invariant q)
    (hadm : ∀ s ∈ states, Scalar.admissible s.logProb = true)
    (hsteps : List.Forall₂ (fun s o => S.step s = .ok o) states steps) :
    (states.map fun s => s.logProb.weight * S.total q (n + 1) s).sum =
      ((steps.flatMap S.pendingOf).map fun t => t.logProb.weight * S.total q n t).sum +
      ((steps.flatMap S.finishedOf).map (·.endWeight q)).sum := by
  rw [sum_map_flatMap, sum_map_flatMap, ← List.sum_map_add]
  refine congrArg List.sum (map_eq_of_forall₂ ?_)
  induction hsteps with
  | nil => exact .nil
  | cons hstep _ ih =>
      exact .cons (total_of_step hW hq (hadm _ List.mem_cons_self) hstep n)
        (ih fun s hs => hadm s (List.mem_cons_of_mem _ hs))

/-- The offers of a level and what finishes there are no more than its states had below. -/
theorem size_of_steps (hW : W.Lawful S)
    (hadm : ∀ s ∈ states, Scalar.admissible s.logProb = true)
    (hsteps : List.Forall₂ (fun s o => S.step s = .ok o) states steps) :
    ((steps.flatMap S.pendingOf).map (S.size n)).sum + (steps.flatMap S.finishedOf).length ≤
      (states.map (S.size (n + 1))).sum := by
  induction hsteps with
  | nil => exact le_rfl
  | @cons s o states steps hstep _ ih =>
      have hrest := ih fun s hs => hadm s (List.mem_cons_of_mem _ hs)
      have hsize := size_of_step hW (hadm s List.mem_cons_self) hstep n
      have hone : (S.finishedOf o).length ≤ 1 := length_finishedOf_le o
      rw [List.flatMap_cons, List.flatMap_cons, List.map_append, List.sum_append,
        List.length_append, List.map_cons, List.sum_cons]
      omega

/-- What holds of all states of a level, one step deeper, in terms of their offers. -/
theorem forall_of_steps {P P' : State D κ Exact → Prop}
    (hP : ∀ s ∈ states, ∀ o, S.step s = .ok o → (P' s ↔ ∀ t ∈ S.pendingOf o, P t))
    (hsteps : List.Forall₂ (fun s o => S.step s = .ok o) states steps) :
    (∀ t ∈ steps.flatMap S.pendingOf, P t) ↔ ∀ s ∈ states, P' s := by
  induction hsteps with
  | nil => simp
  | @cons s o states steps hstep _ ih =>
      have hrest := ih fun s hs => hP s (List.mem_cons_of_mem _ hs)
      have hhead := hP s List.mem_cons_self o hstep
      rw [List.forall_mem_cons, ← hrest, hhead, List.flatMap_cons]
      exact List.forall_mem_append

end Steps

/-- A round that fails has met a state whose step fails. -/
theorem exists_error_of_nextLevel {k : Nat} {level : Level D κ Exact} {halt : Halt Exact}
    (h : S.nextLevel k level = .error halt) :
    ∃ s ∈ level.frontier, ∃ halt', S.step s = .error halt' := by
  by_contra hnone
  have hok : ∀ s ∈ level.frontier, ∃ o, S.step s = .ok o := by
    intro s hs
    cases hstep : S.step s with
    | error halt' => exact absurd ⟨s, hs, halt', hstep⟩ hnone
    | ok o => exact ⟨o, rfl⟩
  obtain ⟨steps, hsteps⟩ := exists_mapM_eq_ok hok
  cases (nextLevel_eq_ok_iff.mpr ⟨steps, hsteps, rfl⟩).symm.trans h

/-- A round leaves the weight that a level stands for as it is. -/
theorem levelTotal_nextLevel (hW : W.Lawful S) {n k : Nat} {level level' : Level D κ Exact}
    (h : S.LevelBounded (n + 1) level) (hk : S.levelSize (n + 1) level ≤ k)
    (hnext : S.nextLevel k level = .ok level') :
    (∀ q : Value D Exact → Bool, W.Invariant q →
      S.levelTotal q n level' = S.levelTotal q (n + 1) level) ∧
    S.levelSize n level' ≤ k ∧ S.LevelBounded n level' ∧
    ((∀ t ∈ level'.frontier, S.Sound n t) ↔ ∀ s ∈ level.frontier, S.Sound (n + 1) s) := by
  obtain ⟨steps, hsteps, rfl⟩ := nextLevel_eq_ok_iff.mp hnext
  have hall := forall₂_of_mapM hsteps
  have hadm : ∀ s ∈ level.frontier, Scalar.admissible s.logProb = true := fun s hs => (h s hs).1
  have hsize := size_of_steps (n := n) hW hadm hall
  have hroom : (steps.flatMap S.pendingOf).length ≤ k := by
    have hlen := length_le_sum_size (S := S) n (steps.flatMap S.pendingOf)
    unfold levelSize at hk
    omega
  have hperm := firstBest_perm hroom
  refine ⟨?_, ?_, ?_, ?_⟩
  · intro q hq
    unfold levelTotal
    dsimp only
    rw [(hperm.map _).sum_eq, total_of_steps hW hq hadm hall, List.map_append,
      List.sum_append]
    ring
  · unfold levelSize at hk ⊢
    dsimp only
    rw [(hperm.map _).sum_eq, List.length_append]
    omega
  · intro t ht
    have ht := hperm.mem_iff.mp ht
    refine ⟨?_, ?_⟩
    · obtain ⟨o, -, hto⟩ := List.mem_flatMap.mp ht
      exact admissible_of_mem_pendingOf hto
    · have hbelow : ∀ s ∈ level.frontier, ∀ o, S.step s = .ok o →
          (S.Bounded (n + 1) s ↔ ∀ t ∈ S.pendingOf o, S.Bounded n t) :=
        fun s hs o hstep => bounded_of_step hW (hadm s hs) hstep n
      exact (forall_of_steps hbelow hall).mpr (fun s hs => (h s hs).2) t ht
  · rw [← forall_of_steps (fun s hs o hstep => sound_of_step hW (hadm s hs) hstep n) hall]
    exact ⟨fun hs t ht => hs t (hperm.mem_iff.mpr ht), fun hs t ht => hs t (hperm.mem_iff.mp ht)⟩

/-- Where nothing is left, a search ends with what has finished. -/
theorem levels_exhaustive_of_empty {n k : Nat} (fuel i : Nat) (hfuel : 0 < fuel)
    {level : Level D κ Exact} (hempty : level.frontier = []) (hk : S.levelSize n level ≤ k) :
    ((∃ r, (S.levels k 0 fuel i level).value = .ok r) ↔ ∀ s ∈ level.frontier, S.Sound n s) ∧
    ∀ level' i', (S.levels k 0 fuel i level).value = .ok (level', i') →
      level'.finished.length ≤ k ∧ ∀ q : Value D Exact → Bool, W.Invariant q →
        (level'.finished.map (·.endWeight q)).sum = S.levelTotal q n level := by
  obtain ⟨f, rfl⟩ : ∃ f, fuel = f + 1 := ⟨fuel - 1, by omega⟩
  rw [levels_of_stop (.inl hempty)]
  refine ⟨⟨fun _ s hs => (by rw [hempty] at hs; cases hs), fun _ => ⟨_, rfl⟩⟩, ?_⟩
  intro level' i' hrun
  cases hrun
  unfold levelSize at hk
  unfold levelTotal
  exact ⟨by omega, fun q _ => by simp [hempty]⟩

/-- Level after level until nothing is left, without a limit and with room for all. -/
theorem levels_exhaustive (hW : W.Lawful S) {n k : Nat} (fuel i : Nat) (hfuel : n < fuel)
    {level : Level D κ Exact} (h : S.LevelBounded n level) (hk : S.levelSize n level ≤ k) :
    ((∃ r, (S.levels k 0 fuel i level).value = .ok r) ↔ ∀ s ∈ level.frontier, S.Sound n s) ∧
    ∀ level' i', (S.levels k 0 fuel i level).value = .ok (level', i') →
      level'.finished.length ≤ k ∧ ∀ q : Value D Exact → Bool, W.Invariant q →
        (level'.finished.map (·.endWeight q)).sum = S.levelTotal q n level := by
  induction n generalizing fuel i level with
  | zero =>
      have hempty : level.frontier = [] :=
        List.eq_nil_iff_forall_not_mem.mpr fun s hs => not_bounded_zero (h s hs).2
      exact levels_exhaustive_of_empty fuel i (Nat.zero_lt_of_lt hfuel) hempty hk
  | succ n ih =>
      by_cases hempty : level.frontier = []
      · exact levels_exhaustive_of_empty fuel i (Nat.zero_lt_of_lt hfuel) hempty hk
      · obtain ⟨f, rfl⟩ : ∃ f, fuel = f + 1 := ⟨fuel - 1, by omega⟩
        rw [levels_of_go hempty rfl]
        cases hnext : S.nextLevel k level with
        | error halt =>
            refine ⟨⟨?_, fun hsound => ?_⟩, fun _ _ hrun => (by cases hrun)⟩
            · rintro ⟨r, hr⟩
              cases hr
            obtain ⟨s, hs, halt', hstep⟩ := exists_error_of_nextLevel hnext
            exact absurd (hsound s hs) (not_sound_of_error hW (h s hs).1 hstep n)
        | ok next =>
            obtain ⟨htotal, hsize, hbounded, hsound⟩ := levelTotal_nextLevel hW h hk hnext
            obtain ⟨hiff, hall⟩ := ih f (i + 1) (by omega) hbounded hsize
            rw [← hsound]
            refine ⟨hiff, fun level' i' hrun => ?_⟩
            obtain ⟨hlen, hweight⟩ := hall level' i' hrun
            exact ⟨hlen, fun q hq => (hweight q hq).trans (htotal q hq)⟩

/-- The weight of the executions that pass a test, in terms of the finished states. -/
theorem sum_prob_filter {states : List (State D κ Exact)}
    {executions : List (Execution (Value D Exact) D Exact)}
    (h : List.Forall₂ (fun u e => u.execution = .ok e) states executions)
    (hadm : ∀ u ∈ states, Scalar.admissible u.logProb = true) (q : Value D Exact → Bool) :
    Scalar.sum ((executions.filter (q ·.value)).map (·.prob)) =
      .real (states.map (·.endWeight q)).sum := by
  have hprob : ∀ e ∈ executions, e.prob = .real e.logProb.weight := by
    intro e he
    obtain ⟨u, hu, hexec⟩ := exists_right_of_forall₂ h.flip e he
    obtain ⟨value, -, rfl⟩ := State.execution_eq_ok_iff.mp hexec
    exact Exact.exp_eq_weight (hadm u hu)
  rw [Exact.sum_filter_map (q ·.value) hprob]
  refine congrArg (fun l => Exact.real (List.sum l)) (map_eq_of_forall₂ (h.flip.imp ?_))
  intro e u hexec
  obtain ⟨value, hprogram, rfl⟩ := State.execution_eq_ok_iff.mp hexec
  unfold State.endWeight
  rw [hprogram]
  rfl

section Beam

variable {program : Program D κ Exact} {env : Env D Exact}

/-- **Exhaustive beam search**: without a limit and with room for the whole tree, beam
search succeeds when the tree is sound, and its executions weigh what the tree weighs. -/
theorem beamSearch_exhaustive (hW : W.Lawful S) {root : State D κ Exact}
    (hroot : (State.initial program env).scored S.score = some root) {n k : Nat}
    (hbounded : S.Bounded n root) (hfuel : n < S.fuel) (hk : S.size n root ≤ k) :
    let run := (S.beamSearch { beamSize := k, maxIterations := 0 } program env).value
    ((∃ m, run = .ok m) ↔ S.Sound n root) ∧
    ∀ m, run = .ok m → ∀ q : Value D Exact → Bool, W.Invariant q →
      Scalar.sum ((m.executions.filter (q ·.value)).map (·.prob)) =
        .real (root.logProb.weight * S.total q n root) := by
  intro run
  have hstart := startLevel_eq (S := S) ((one_le_size n root).trans hk) hroot
  have hadm : Scalar.admissible root.logProb = true := (State.logProb_of_scored hroot).1
  have hlevel : S.LevelBounded n (S.startLevel k program env) := by
    rw [hstart]
    intro s hs
    rw [List.mem_singleton.mp hs]
    exact ⟨hadm, hbounded⟩
  have hroom : S.levelSize n (S.startLevel k program env) ≤ k := by
    rw [hstart]
    simpa [levelSize] using hk
  obtain ⟨hsound, hrun⟩ := levels_exhaustive hW S.fuel 0 hfuel hlevel hroom
  -- whatever has finished is a value with an admissible log-weight
  have hends : ∀ level i, (S.levels k 0 S.fuel 0 (S.startLevel k program env)).value =
      .ok (level, i) → ∀ u ∈ firstBest k level.finished,
        (∃ e, u.execution = .ok e) ∧ Scalar.admissible u.logProb = true := by
    intro level i hlevels u hu
    obtain ⟨hsurvey, -⟩ := surveyed_levels (surveyed_start k 0 program env) hlevels
    obtain ⟨route, hend, -, -⟩ := hsurvey.finished.exists_label u (mem_of_mem_firstBest hu)
    obtain ⟨value, hvalue⟩ := hend.exists_value
    exact ⟨⟨_, State.execution_eq_ok_iff.mpr ⟨value, hvalue, rfl⟩⟩, hend.admissible⟩
  refine ⟨?_, ?_⟩
  · have hfrontier : (∀ s ∈ (S.startLevel k program env).frontier, S.Sound n s) ↔ S.Sound n root := by
      rw [hstart]
      simp
    rw [← hfrontier, ← hsound]
    constructor
    · rintro ⟨m, hm⟩
      obtain ⟨level, hlevels, -⟩ := beamSearch_eq_ok_iff.mp hm
      exact ⟨_, hlevels⟩
    · rintro ⟨⟨level, i⟩, hlevels⟩
      obtain ⟨executions, hexec⟩ := exists_mapM_eq_ok fun u hu => (hends level i hlevels u hu).1
      exact ⟨{ executions, iterations := i }, beamSearch_eq_ok_iff.mpr ⟨level, hlevels, hexec⟩⟩
  · intro m hm q hq
    obtain ⟨level, hlevels, hexec⟩ := beamSearch_eq_ok_iff.mp hm
    obtain ⟨hlen, hweight⟩ := hrun level _ hlevels
    rw [sum_prob_filter (forall₂_of_mapM hexec) (fun u hu => (hends level _ hlevels u hu).2),
      ((firstBest_perm hlen).map _).sum_eq, hweight q hq, hstart]
    simp [levelTotal]

end Beam

end Setting

end ChoiceSearch
