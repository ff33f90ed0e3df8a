import ChoiceSearch.Proofs.Marginals
import ChoiceSearch.Proofs.Search.Building
import ChoiceSearch.Proofs.Search.Exhaustion
import ChoiceSearch.Proofs.Search.Labels
import ChoiceSearch.Proofs.Search.Proportional
import ChoiceSearch.Proofs.Search.ScoreLaws
import ChoiceSearch.Proofs.Search.Truncation

/-!
# Infinite weights

A search admits all log-weights but minus infinity and what is not a number, so a path may weigh
plus infinity. The partition function then is plus infinity as well. Its logarithm is computed
with the largest log-weight factored out, and that takes an infinity away from itself: it is not
a number, and neither is any of the probabilities (`Marginals.Undefined`). If no execution weighs
that much, the logarithm and the probabilities are well defined (`Marginals.wellDefined_iff`).

Infinite log-weights come from infinite weights of the program or of the score
(`Setting.WeightsIn.logProb_of_ends`), and a path that has one keeps it. Scalars are real numbers
with both infinities here, so nothing is rounded and finite weights have finite sums.
-/

namespace ChoiceSearch

open Scalar

variable {α D κ R : Type}

/-! ## Log-sum-exp with infinities -/

namespace Extended

theorem larger_posInf_right (x : Extended) : larger x .posInf = .posInf := by
  cases x with
  | nan => rfl
  | negInf => exact larger_negInf rfl
  | posInf | real r => rw [larger_of_number rfl rfl]; simp [rank]

theorem maximum_of_posInf {ws : List Extended} (h : .posInf ∈ ws) : maximum ws = .posInf := by
  suffices hfold : ∀ start : Extended, ws.foldl larger start = .posInf from hfold _
  induction ws with
  | nil => cases h
  | cons w ws ih =>
      intro start
      rw [List.foldl_cons]
      rcases List.mem_cons.mp h with rfl | hrest
      · rw [larger_posInf_right, foldl_larger_posInf]
      · exact ih hrest _

theorem sum_of_nan {xs : List Extended} (h : .nan ∈ xs) : Scalar.sum xs = .nan := by
  have hnan : ∀ xs : List Extended, xs.foldl (· + ·) .nan = .nan := by
    intro xs
    induction xs with
    | nil => rfl
    | cons x xs ih => cases x <;> exact ih
  suffices hfold : ∀ start : Extended, xs.foldl (· + ·) start = .nan from hfold _
  induction xs with
  | nil => cases h
  | cons x xs ih =>
      intro start
      rw [List.foldl_cons]
      rcases List.mem_cons.mp h with rfl | hrest
      · rw [sum_comm]
        cases start <;> exact hnan xs
      · exact ih hrest _

/-- **Plus infinity has no log-sum-exp**: it is the largest term, and its difference from itself
is not a number. -/
theorem logSumExp_of_posInf {ws : List Extended} (h : .posInf ∈ ws) : logSumExp ws = .nan := by
  have hinf : ¬ isNegInf Extended.posInf = true := by simp [isNegInf_iff]
  have hterm : .nan ∈ ws.map fun w => Scalar.exp (w - .posInf) := List.mem_map.mpr ⟨_, h, rfl⟩
  unfold logSumExp
  rw [maximum_of_posInf h]
  dsimp only
  rw [if_neg hinf, sum_of_nan hterm]
  rfl

theorem exp_le_total {ws : List Extended} {x : ℝ} (h : .real x ∈ ws) : Real.exp x ≤ total ws := by
  refine List.single_le_sum (fun y hy => ?_) _ (List.mem_map_of_mem (f := mass) h)
  obtain ⟨w, -, rfl⟩ := List.mem_map.mp hy
  exact mass_nonneg w

/-- Of real numbers the log-sum-exp is the logarithm of the total weight. -/
theorem logSumExp_of_real {ws : List Extended} (hne : ws ≠ []) (h : ∀ w ∈ ws, ∃ x, w = .real x) :
    logSumExp ws = .real (Real.log (total ws)) := by
  have hinf : .posInf ∉ ws := fun hmem => by obtain ⟨x, hx⟩ := h _ hmem; cases hx
  have hdrawable : Drawable ws := by
    obtain ⟨w, hw⟩ := List.exists_mem_of_ne_nil ws hne
    obtain ⟨x, rfl⟩ := h w hw
    exact ⟨⟨x, hw⟩, hinf⟩
  have hfinite := (isFinite_maximum_iff ws).mpr hdrawable
  cases htop : maximum ws with
  | nan | posInf | negInf => rw [htop] at hfinite; cases hfinite
  | real top =>
      have hpos := total_pos hdrawable
      have hall : (shifted top ws).filter isFinite = shifted top ws := by
        refine List.filter_eq_self.mpr fun y hy => ?_
        obtain ⟨w, hw, rfl⟩ := List.mem_map.mp hy
        obtain ⟨x, rfl⟩ := h w hw
        rfl
      have hsum : Scalar.sum (shifted top ws) = .real (total ws * Real.exp (-top)) := by
        rw [← hall]
        exact sum_shifted hinf top
      have hlog : Scalar.log (Extended.real (total ws * Real.exp (-top))) =
          .real (Real.log (total ws) - top) := by
        show (if 0 < total ws * Real.exp (-top) then _ else _) = _
        rw [if_pos (by positivity), Real.log_mul hpos.ne' (Real.exp_pos _).ne', Real.log_exp,
          sub_eq_add_neg]
      have hnegInf : ¬ isNegInf (Extended.real top) = true := by simp [isNegInf_iff]
      unfold logSumExp
      rw [htop]
      dsimp only
      rw [if_neg hnegInf]
      show Extended.real top + Scalar.log (Scalar.sum (shifted top ws)) = _
      rw [hsum, hlog]
      exact congrArg Extended.real (add_sub_cancel _ _)

end Extended

/-! ## Marginal distributions -/

namespace Marginals

variable [BEq α]

theorem forall_mem_addMass [Scalar R] {P : R → Prop} (hP : ∀ p q, P p → P q → P (p + q)) {v : α}
    {p : R} (hp : P p) {out : List (α × R)} (hout : ∀ entry ∈ out, P entry.2) :
    ∀ entry ∈ addMass v p out, P entry.2 := by
  induction out with
  | nil =>
      intro entry hentry
      rw [List.mem_singleton.mp hentry]
      exact hp
  | cons first out ih =>
      obtain ⟨hfirst, hrest⟩ := List.forall_mem_cons.mp hout
      unfold addMass
      split
      · exact List.forall_mem_cons.mpr ⟨hP _ _ hfirst hp, hrest⟩
      · exact List.forall_mem_cons.mpr ⟨hfirst, ih hrest⟩

/-- What holds of every share, and of the sums of what it holds of, holds of all that is listed. -/
theorem forall_mem_distribution [Scalar R] {P : R → Prop} (hP : ∀ p q, P p → P q → P (p + q))
    {m : Marginals α D R} (hm : ∀ e ∈ m.executions, P (Scalar.exp (e.logProb - m.logPartition))) :
    ∀ entry ∈ m.distribution, P entry.2 := by
  refine List.foldlRecOn (motive := fun out : List (α × R) => ∀ entry ∈ out, P entry.2)
    m.executions _ ?_ fun out hout e he => ?_
  · exact fun _ h => absurd h List.not_mem_nil
  · exact forall_mem_addMass hP (hm e he) hout

/-- The logarithm of the partition function is a number, and at least every log-weight, and the
probabilities are numbers. -/
structure WellDefined (m : Marginals α D Extended) : Prop where
  logPartition : m.logPartition ≠ .nan
  le : ∀ e ∈ m.executions, less m.logPartition e.logProb = false
  entry : ∀ entry ∈ m.distribution, entry.2 ≠ .nan

/-- The partition function is infinite, but its logarithm is not a number, and neither are the
probabilities. -/
structure Undefined (m : Marginals α D Extended) : Prop where
  partition : m.partition = .posInf
  logPartition : m.logPartition = .nan
  entry : ∀ entry ∈ m.distribution, entry.2 = .nan

variable {m : Marginals α D Extended}

omit [BEq α] in
/-- Without infinite weights, the logarithm of the partition function is that of the total
weight. -/
theorem logPartition_of_real (h : ∀ e ∈ m.executions, ∃ x, e.logProb = .real x)
    (hne : m.executions ≠ []) :
    m.logPartition = .real (Real.log (Extended.total (m.executions.map (·.logProb)))) := by
  refine Extended.logSumExp_of_real (by simpa using hne) fun w hw => ?_
  obtain ⟨e, he, rfl⟩ := List.mem_map.mp hw
  exact h e he

theorem wellDefined_of_real (h : ∀ e ∈ m.executions, ∃ x, e.logProb = .real x)
    (hne : m.executions ≠ []) : m.WellDefined := by
  have hlog := logPartition_of_real h hne
  refine ⟨by simp [hlog], fun e he => ?_, ?_⟩
  · obtain ⟨x, hx⟩ := h e he
    have hmem : Extended.real x ∈ m.executions.map (·.logProb) := List.mem_map.mpr ⟨e, he, hx⟩
    have hexp := Extended.exp_le_total hmem
    have hle := (Real.le_log_iff_exp_le ((Real.exp_pos x).trans_le hexp)).mpr hexp
    rw [hlog, hx, Extended.less_real]
    exact decide_eq_false (not_lt.mpr hle)
  · have hreal : ∀ entry ∈ m.distribution, ∃ p, entry.2 = .real p := by
      refine forall_mem_distribution (P := fun p => ∃ x, p = Extended.real x) ?_ fun e he => ?_
      · rintro _ _ ⟨x, rfl⟩ ⟨y, rfl⟩
        exact ⟨x + y, rfl⟩
      · obtain ⟨x, hx⟩ := h e he
        rw [hlog, hx]
        exact ⟨_, rfl⟩
    intro entry hentry
    obtain ⟨p, hp⟩ := hreal entry hentry
    simp [hp]

theorem undefined_of_posInf (hadm : ∀ e ∈ m.executions, admissible e.logProb = true)
    (h : ∃ e ∈ m.executions, e.logProb = .posInf) : m.Undefined := by
  obtain ⟨e, he, hinf⟩ := h
  have hlog : m.logPartition = .nan :=
    Extended.logSumExp_of_posInf (List.mem_map.mpr ⟨e, he, hinf⟩)
  refine ⟨?_, hlog, ?_⟩
  · have hprobs : m.executions.map (·.prob) =
        (m.executions.map (·.logProb.weight)).map Extended.ofMass := by
      rw [List.map_map]
      exact List.map_congr_left fun e he => Extended.exp_eq_ofMass (hadm e he)
    have htop : (m.executions.map (·.logProb.weight)).sum = ⊤ := by
      refine top_le_iff.mp (List.single_le_sum (fun _ _ => zero_le) _ ?_)
      exact List.mem_map.mpr ⟨e, he, by rw [hinf]; rfl⟩
    rw [partition, hprobs, Extended.sum_map_ofMass, htop, Extended.ofMass_top]
  · refine forall_mem_distribution (P := fun p => p = Extended.nan) ?_ fun e he => ?_
    · rintro _ q rfl rfl
      rfl
    · rw [hlog]
      cases e.logProb <;> rfl

/-- **The marginals are well defined unless an execution has infinite weight.** -/
theorem wellDefined_iff (hadm : ∀ e ∈ m.executions, admissible e.logProb = true)
    (hne : m.executions ≠ []) :
    m.WellDefined ↔ ∀ e ∈ m.executions, e.logProb ≠ .posInf := by
  constructor
  · intro h e he hinf
    exact h.logPartition (undefined_of_posInf hadm ⟨e, he, hinf⟩).logPartition
  · intro h
    refine wellDefined_of_real (fun e he => ?_) hne
    obtain ⟨hnan, hneg⟩ := (Extended.admissible_iff _).mp (hadm e he)
    cases hx : e.logProb with
    | nan => exact absurd hx hnan
    | negInf => exact absurd hx hneg
    | posInf => exact absurd hx (h e he)
    | real x => exact ⟨x, rfl⟩

end Marginals

/-! ## The weights of a program -/

namespace Setting

section Weights

variable [Scalar R]

/-- The log-weights of the factors and of the choices that a program builds are in `W`, and so are
those of the score. -/
structure WeightsIn (S : Setting D κ R) (program : Program D κ R) (W : Set R) : Prop where
  factor {w} : S.Builds program (.factor w) → Scalar.log w ∈ W
  categorical {site alternatives tag} :
    S.Builds program (.categorical site alternatives tag) → ∀ a ∈ alternatives, a.2 ∈ W
  neural {site items parameter tag env alternatives} :
    S.Builds program (.neural site items parameter tag) →
    neuralAlternatives S.graph items parameter env = .ok alternatives →
    ∀ a ∈ alternatives, a.logWeight ∈ W
  score (tag item env) : S.score tag item env ∈ W

/-- The machine has a value in focus or what the program builds, what waits for it resumes with
what the program builds, and the log-weight of the path is in `Q`. -/
structure Carries (S : Setting D κ R) (program : Program D κ R) (Q : Set R) (p : Program D κ R)
    (stack : List (Frame κ)) (path : Path D R) : Prop where
  focus : (∃ v, p = .value v) ∨ S.Builds program p
  frames : S.Supplies program stack
  logProb : path.logProb ∈ Q

variable {S : Setting D κ R} {program : Program D κ R} {W Q : Set R}
  (hW : S.WeightsIn program W) (hQ : ∀ x ∈ Q, ∀ w ∈ W, x + w ∈ Q)
include hW hQ

/-- **A step of the machine adds log-weights of the program only.** -/
theorem Carries.of_move {p : Program D κ R} {stack : List (Frame κ)} {path : Path D R}
    {m : Move D κ R} (h : S.Carries program Q p stack path)
    (hmove : move S.codes S.graph p stack path = .ok m) : S.BuiltMove program (· ∈ Q) m := by
  obtain ⟨⟨v, rfl⟩ | hbuilt, hframes, hlog⟩ := h
  · exact builtMove_of_feed hmove hframes hlog
  · have hstable : S.StableUnder program (· ∈ Q) := fun w x hw _ hx => hQ x hx _ (hW.factor hw)
    exact builtMove_of_move hstable hmove hbuilt hframes hlog

/-- The deterministic part ends at a value or at what the program builds. -/
theorem Carries.exists_stop {s : State D κ R} {t : Transition D κ R}
    (h : S.Carries program Q s.program s.stack s.path) (hadv : S.Advances s t) :
    ∃ q stack path, S.Carries program Q q stack path ∧
      move S.codes S.graph q stack path = .ok (.stop t) := by
  obtain ⟨q, stack, path, hcomes, hstop⟩ := hadv.exists_stopsAt
  refine ⟨q, stack, path, hcomes.invariant (P := S.Carries program Q) (fun hp hmove => ?_) h, hstop⟩
  obtain ⟨hbuilt, hframes, hlog⟩ := hp.of_move hW hQ hmove
  exact ⟨.inr hbuilt, hframes, hlog⟩

omit hQ in
/-- The alternatives of a choice have log-weights of the program. -/
theorem Carries.mem_of_choice {p : Program D κ R} {stack stack' : List (Frame κ)}
    {path path' : Path D R} {site : Option Nat} {alternatives : List (Alternative D R)}
    {tag : Option D} (h : S.Carries program Q p stack path)
    (hmove : move S.codes S.graph p stack path =
      .ok (.stop (.choice site alternatives tag stack' path'))) :
    ∀ a ∈ alternatives, a.logWeight ∈ W := by
  intro a ha
  rcases choice_of_move hmove with ⟨entries, rfl, rfl⟩ | ⟨items, parameter, rfl, halts⟩
  · obtain ⟨entry, hentry, rfl⟩ := List.mem_map.mp ha
    exact hW.categorical (h.focus.resolve_left nofun) entry hentry
  · exact hW.neural (h.focus.resolve_left nofun) halts a ha

omit hQ in
/-- Scoring adds a log-weight of the score. -/
theorem WeightsIn.logProb_of_scored (hQ : ∀ x ∈ Q, ∀ w ∈ W, x + w ∈ Q) {s t : State D κ R}
    (h : s.scored S.score = some t) (hs : s.logProb ∈ Q) : t.logProb ∈ Q := by
  rw [(State.logProb_of_scored h).2]
  exact hQ _ hs _ (hW.score ..)

/-- **Along a route log-weights of the program and of the score are added**, within collapsed
parts as well. -/
theorem Carries.of_follows {wait : State D κ R → State D κ R} {s u : State D κ R}
    {route : List Decision} (h : S.Follows wait s route u)
    (hs : S.Carries program Q s.program s.stack s.path)
    (hwait : ∀ t : State D κ R, S.Carries program Q t.program t.stack t.path →
      S.Carries program Q (wait t).program (wait t).stack (wait t).path) :
    S.Carries program Q u.program u.stack u.path := by
  induction h with
  | nil => exact hs
  | @take _ _ _ _ _ _ path _ t _ _ _ hadv hget hscore _ ih =>
      obtain ⟨q, _, _, hq, hstop⟩ := hs.exists_stop hW hQ hadv
      obtain ⟨hframes, hpath, -⟩ := hq.of_move hW hQ hstop
      simp only [State.ofChoice, List.getElem?_mapIdx, Option.map_eq_some_iff] at hget
      obtain ⟨a, ha, rfl⟩ := hget
      have hsum : path.logProb + a.logWeight ∈ Q :=
        hQ _ hpath _ (hq.mem_of_choice hW hstop a (List.mem_of_getElem? ha))
      refine ih (hwait _ ?_) hwait
      have hlog := hW.logProb_of_scored hQ hscore hsum
      rw [State.eq_of_scored hscore]
      exact ⟨.inl ⟨_, rfl⟩, hframes, hlog⟩
  | @through _ _ _ _ _ _ value path' _ _ _ _ hadv _ hfin hscore _ ihin ih =>
      obtain ⟨_, _, _, hq, hstop⟩ := hs.exists_stop hW hQ hadv
      obtain ⟨hframes, hpath, hcollapsed⟩ := hq.of_move hW hQ hstop
      have hinner := (hcollapsed _ _ _ rfl).opened
      have hv := ihin ⟨.inr hinner, fun _ h => absurd h List.not_mem_nil, hpath⟩
        fun t ht => ⟨ht.focus, ht.frames, ht.logProb⟩
      obtain ⟨_, _, _, hq', hstop'⟩ := hv.exists_stop hW hQ hfin
      obtain ⟨-, hend, -⟩ := hq'.of_move hW hQ hstop'
      refine ih (hwait _ ?_) hwait
      have hlog := hW.logProb_of_scored hQ hscore hend
      rw [State.eq_of_scored hscore]
      exact ⟨.inl ⟨_, rfl⟩, hframes, hlog⟩

/-- To the log-weight of a path, from zero on, nothing is added but log-weights of the program and
of the score. -/
theorem WeightsIn.logProb_of_ends (hzero : Scalar.zero ∈ Q) {env : Env D R}
    {route : List Decision} {u : State D κ R} (h : S.Ends program env route u) :
    u.logProb ∈ Q := by
  obtain ⟨s, ⟨root, hroot, hs⟩, value, path, hfin, hscore⟩ := h
  have hstart : S.Carries program Q root.program root.stack root.path := by
    have hlog := hW.logProb_of_scored hQ hroot hzero
    rw [State.eq_of_scored hroot]
    exact ⟨.inr .self, fun _ h => absurd h List.not_mem_nil, hlog⟩
  obtain ⟨_, _, _, hq, hstop⟩ :=
    (Carries.of_follows hW hQ hs hstart fun _ ht => ht).exists_stop hW hQ hfin
  obtain ⟨-, hend, -⟩ := hq.of_move hW hQ hstop
  exact hW.logProb_of_scored hQ hscore hend

end Weights

end Setting

/-! ## Searches -/

namespace Setting

variable {S : Setting D κ Extended} {program : Program D κ Extended} {env : Env D Extended}

theorem admissible_of_mem {config : SearchConfig} {m : Marginals (Value D Extended) D Extended}
    (hm : (S.beamSearch config program env).value = .ok m)
    {e : Execution (Value D Extended) D Extended} (he : e ∈ m.executions) :
    admissible e.logProb = true := by
  obtain ⟨route, u, value, hends, -, rfl⟩ := exists_survives_of_mem hm he
  exact hends.admissible

theorem admissible_of_mem_mapValue {config : SearchConfig}
    {m : Marginals (Value D Extended) D Extended}
    (hm : (S.beamSearch config program env).value = .ok m) (f : Value D Extended → α) :
    ∀ e ∈ (m.mapValue f).executions, admissible e.logProb = true := by
  intro _ hmem
  obtain ⟨e, he, rfl⟩ := List.mem_map.mp hmem
  exact admissible_of_mem hm he

theorem undefined_of_mem [BEq α] {config : SearchConfig}
    {m : Marginals (Value D Extended) D Extended}
    (hm : (S.beamSearch config program env).value = .ok m) (f : Value D Extended → α)
    (h : ∃ e ∈ m.executions, e.logProb = .posInf) : (m.mapValue f).Undefined := by
  obtain ⟨e, he, hinf⟩ := h
  exact Marginals.undefined_of_posInf (admissible_of_mem_mapValue hm f)
    ⟨e.mapValue f, List.mem_map_of_mem he, hinf⟩

/-- A path whose weight has become infinite ends with infinite weight. -/
theorem posInf_of_reaches {early late : List Decision} {s : State D κ Extended}
    {e : Execution (Value D Extended) D Extended} (hs : S.Reaches program env early s)
    (hinf : s.logProb = .posInf) (h : S.Survives program env (early ++ late) e) :
    e.logProb = .posInf := by
  obtain ⟨u, value, hends, -, rfl⟩ := h
  obtain ⟨hnan, -⟩ := (Extended.admissible_iff _).mp hends.admissible
  obtain ⟨t, ⟨root, hroot, ht⟩, value, path, hfin, hscore⟩ := hends
  obtain ⟨v, hv, hlate⟩ := follows_append_iff.mp ht
  cases hs.unique ⟨root, hroot, hv⟩
  -- what is added to plus infinity leaves it, or makes it something that is not a number
  have hadd : ∀ x y : Extended, x = .nan ∨ x = .posInf → x + y = .nan ∨ x + y = .posInf := by
    rintro x y (rfl | rfl)
    · exact .inl (by cases y <;> rfl)
    · cases y with
      | nan | negInf => exact .inl rfl
      | posInf | real y => exact .inr rfl
  have hlast := logProb_of_advances hadd hfin (hlate.logProb_of hadd (fun _ => rfl) (.inr hinf))
  have hfinal : u.logProb = .nan ∨ u.logProb = .posInf := logProb_of_scored hadd hscore hlast
  exact hfinal.resolve_left hnan

/-- Infinite log-weights come from infinite weights. -/
theorem ne_posInf_of_ends (hW : S.WeightsIn program {w | w ≠ .posInf}) {route : List Decision}
    {u : State D κ Extended} (h : S.Ends program env route u) : u.logProb ≠ .posInf := by
  refine hW.logProb_of_ends (Q := {x | x ≠ .posInf}) (fun x hx w hw => ?_) nofun h
  intro hsum
  cases x <;> cases w <;> first | exact hx rfl | exact hw rfl | cases hsum

/-- **What beam search returns is well defined unless an execution has infinite weight.** The
logarithm of its partition function then is not a number, nor is any probability, whatever the
values are mapped to. A path keeps an infinite weight once it has it, and no execution has one
if the weights of the program and of the score are less than plus infinity. -/
theorem wellDefined_of_beamSearch (S : Setting D κ Extended) (program : Program D κ Extended)
    (env : Env D Extended) :
    (∀ config m, (S.beamSearch config program env).value = .ok m → m.executions ≠ [] →
      ∀ (α : Type) [BEq α] (f : Value D Extended → α),
        ((m.mapValue f).WellDefined ↔ ∀ e ∈ m.executions, e.logProb ≠ .posInf) ∧
        ((∃ e ∈ m.executions, e.logProb = .posInf) → (m.mapValue f).Undefined)) ∧
    (∀ early s late e, S.Reaches program env early s → s.logProb = .posInf →
      S.Survives program env (early ++ late) e → e.logProb = .posInf) ∧
    (S.WeightsIn program {w | w ≠ .posInf} → ∀ config m,
      (S.beamSearch config program env).value = .ok m →
        ∀ e ∈ m.executions, e.logProb ≠ .posInf) := by
  refine ⟨fun config m hm hne α _ f => ⟨?_, undefined_of_mem hm f⟩,
    fun _ _ _ _ => posInf_of_reaches, ?_⟩
  · have hmapped : (m.mapValue f).executions ≠ [] := by simpa [Marginals.mapValue] using hne
    refine (Marginals.wellDefined_iff (admissible_of_mem_mapValue hm f) hmapped).trans ?_
    simp [Marginals.mapValue, Execution.mapValue]
  · intro hW config m hm e he
    obtain ⟨route, u, value, hends, -, rfl⟩ := exists_survives_of_mem hm he
    exact ne_posInf_of_ends hW hends

end Setting

/-! ### An infinite factor -/

/-- The side of a coin that is always up. -/
noncomputable def oneSide : Program Bool Unit Extended := .choose none [true] none

theorem weightsIn_oneSide : coinTosses.WeightsIn oneSide {w | w ≠ .posInf} := by
  have hbuilds : ∀ {p}, coinTosses.Builds oneSide p → p = oneSide ∨ ∃ v, p = .value v := by
    intro p h
    induction h with
    | self => exact .inl rfl
    | chosen d => exact .inr ⟨_, rfl⟩
    | inner _ ih | resumed _ _ _ ih | consulted _ _ ih | opened _ ih =>
        rcases ih with h | ⟨v, h⟩ <;> cases h
  refine ⟨fun h => ?_, fun h a ha => ?_, fun h => ?_, fun _ _ _ => nofun⟩
  · rcases hbuilds h with h | ⟨v, h⟩ <;> cases h
  · rcases hbuilds h with h | ⟨v, h⟩
    · cases h
      rw [List.mem_singleton.mp ha]
      nofun
    · cases h
  · rcases hbuilds h with h | ⟨v, h⟩ <;> cases h

/-- An infinite factor is a weight, and the program is over. -/
theorem advance_infinite (n : Nat) (path : Path Bool Extended) :
    advance coinTosses.codes coinTosses.graph (n + 1) (.factor .posInf) [] path =
      .ok (.finished .unit { path with logProb := path.logProb + .posInf }) := by
  have hvalid : ¬ (isNaN Extended.posInf || less Extended.posInf Scalar.zero) = true := by
    rw [Bool.or_eq_true_iff, Extended.less_iff]
    rintro (h | ⟨-, h⟩)
    · cases h
    · exact lt_asymm h (WithTop.coe_lt_coe.mpr EReal.zero_lt_top)
  have hmove : move coinTosses.codes coinTosses.graph (.factor .posInf) [] path =
      .ok (.stop (.finished .unit { path with logProb := path.logProb + .posInf })) := by
    unfold move
    dsimp only
    rw [if_neg hvalid]
    rfl
  rw [advance, hmove]

/-- The search for a program of infinite weight finds its only path. -/
theorem exists_infinite : ∃ m,
    (coinTosses.beamSearch (.exhaustive 1) (.factor .posInf) .init).value = .ok m ∧
      ∃ e ∈ m.executions, e.logProb = .posInf := by
  obtain ⟨_, hroot, path, rfl, hzero⟩ : ∃ root : State Bool Unit Extended,
      (State.initial (.factor .posInf) .init).scored coinTosses.score = some root ∧
      ∃ path, root = .root (.factor .posInf) [] path ∧ path.logProb = Extended.real (0 + 0) :=
    ⟨_, rfl, _, rfl, rfl⟩
  let last : Path Bool Extended := { path with logProb := path.logProb + .posInf }
  have hadv := advance_infinite 3 path
  have hstep : coinTosses.step (.root (.factor .posInf) [] path) =
      .ok (.finished (.finished .unit last)) := Setting.step_of_finished hadv
  have hinf : last.logProb + Scalar.zero = .posInf := by
    show path.logProb + .posInf + Scalar.zero = _
    rw [hzero]
    rfl
  have hscore : (State.finished (κ := Unit) .unit last).scored coinTosses.score =
      some (.finished .unit { last with logProb := .posInf }) := by
    unfold State.scored
    dsimp only [State.finished, State.root]
    rw [show coinTosses.score none none last.env = Scalar.zero from rfl, hinf]
    exact if_pos ((Extended.admissible_iff .posInf).mpr ⟨nofun, nofun⟩)
  have hends : coinTosses.EndsWithin 1 (.root (.factor .posInf) [] path) := .of_nil hstep rfl
  have hcount := Setting.routeCount_of_step (n := 0) hstep
  obtain ⟨hroom, m, hm⟩ := hends.beamSearch hroot (by decide) hcount.le
  have hpath : coinTosses.Ends (.factor .posInf) .init [] _ :=
    ⟨_, ⟨_, hroot, .nil⟩, .unit, last, ⟨4, hadv⟩, hscore⟩
  exact ⟨m, hm, _, (Setting.mem_executions_iff hm hroom).mpr ⟨[], _, .unit, hpath, rfl, rfl⟩, rfl⟩

/-- The data of a value. -/
def coinSide? : Value Bool Extended → Option Bool
  | .data side => some side
  | _ => none

/-- The search for one side of a coin has marginals, and the one for a path of infinite weight
has none. -/
theorem wellDefined_oneSide :
    (∃ m, (coinTosses.beamSearch (.exhaustive 1) oneSide .init).value = .ok m ∧
      m.executions.map (·.value) = [.data true] ∧ (m.mapValue coinSide?).WellDefined) ∧
    ∃ m, (coinTosses.beamSearch (.exhaustive 1) (.factor .posInf) .init).value = .ok m ∧
      (∃ e ∈ m.executions, e.logProb = .posInf) ∧ (m.mapValue coinSide?).Undefined := by
  constructor
  · obtain ⟨m, hm, hside⟩ : ∃ m,
        (coinTosses.beamSearch (.exhaustive 1) oneSide .init).value = .ok m ∧
        m.executions.map (·.value) = [.data true] := ⟨_, rfl, rfl⟩
    have hne : m.executions ≠ [] := by
      intro heq
      rw [heq] at hside
      cases hside
    obtain ⟨hmarginals, -, hfinite⟩ :=
      Setting.wellDefined_of_beamSearch coinTosses oneSide .init
    have hall := hfinite weightsIn_oneSide _ m hm
    exact ⟨m, hm, hside, (hmarginals _ m hm hne _ coinSide?).1.mpr hall⟩
  · obtain ⟨m, hm, hinf⟩ := exists_infinite
    obtain ⟨hmarginals, -, -⟩ :=
      Setting.wellDefined_of_beamSearch coinTosses (.factor .posInf) .init
    obtain ⟨e, he, -⟩ := id hinf
    exact ⟨m, hm, hinf, (hmarginals _ m hm (List.ne_nil_of_mem he) _ coinSide?).2 hinf⟩

/-- **A path of infinite weight leaves the marginals undefined.** The search for an infinite
factor succeeds and returns an execution, of log-weight plus infinity, but the logarithm of the
partition function is not a number, and neither is any probability. -/
theorem not_wellDefined_infinite : ∃ m,
    (coinTosses.beamSearch (.exhaustive 1) (.factor .posInf) .init).value = .ok m ∧
      m.executions ≠ [] ∧ (∀ e ∈ m.executions, admissible e.logProb = true) ∧
      (m.mapValue coinSide?).Undefined ∧ ¬ (m.mapValue coinSide?).WellDefined := by
  obtain ⟨m, hm, e, he, hinf⟩ := exists_infinite
  have hundefined := Setting.undefined_of_mem hm coinSide? ⟨e, he, hinf⟩
  exact ⟨m, hm, List.ne_nil_of_mem he, fun _ => Setting.admissible_of_mem hm, hundefined,
    fun h => h.logPartition hundefined.logPartition⟩

end ChoiceSearch
