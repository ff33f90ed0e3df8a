import ChoiceSearch.Proofs.Scalar.SameWeight
import ChoiceSearch.Proofs.Search.Drawing
import ChoiceSearch.Proofs.Search.Lockstep

/-!
# Sampling with the same weights

Two scores that give every state the same weight are the same to sampling
(`Setting.sampledAlike_samplePath`): both runs fail with the same error, or are rejected, or
find the same execution, and they leave the generator in the same state. The log-weights of
the two paths are the same numbers at every transition, and that is all that is kept.

A draw shifts the log-weights by their maximum, which rejected ones do not change. What a
rejected log-weight is exponentiated to is zero or not finite, so it neither contributes to
the total nor is it passed over by the cumulative sum (`draw_eq_of_sameWeight`). In
particular what is drawn was not rejected (`admissible_of_draw`).
-/

namespace ChoiceSearch

open Scalar

/-! ## Draws -/

section Draws

variable {R : Type} [Scalar R] [ScoringScalar R]

/-- The same share of a draw, or shares of which none counts. -/
inductive SameShare : R → R → Prop
  | same (p : R) : SameShare p p
  | void {p q : R} : (isFinite p = true → isZero p = true) → (isFinite q = true → isZero q = true) →
      SameShare p q

omit [ScoringScalar R] in
theorem isPositive_of_void {p : R} (h : isFinite p = true → isZero p = true) :
    isPositive p = false := by
  rw [← Bool.not_eq_true]
  intro hpositive
  obtain ⟨hless, hfinite⟩ := (Bool.and_eq_true _ _).mp hpositive
  rw [less_zero_of_isZero (h hfinite)] at hless
  cases hless

omit [ScoringScalar R] in
/-- Shares that do not count are passed over. -/
theorem covering_eq_of_sameShare {ps qs : List R} (h : List.Forall₂ SameShare ps qs) (target : R)
    (index : Nat) (cumulative : R) (last : Option Nat) :
    covering target ps index cumulative last = covering target qs index cumulative last := by
  induction h generalizing index cumulative last with
  | nil => rfl
  | cons hshare _ ih =>
      cases hshare with
      | same =>
          unfold covering
          simp only [ih]
      | void hp hq =>
          rw [covering, covering, isPositive_of_void hp, isPositive_of_void hq]
          exact ih ..

/-- A share that does not count adds nothing. -/
theorem sameNumber_addFinite {x y p : R} (h : SameNumber x y)
    (hp : isFinite p = true → isZero p = true) (ps : List R) :
    ∃ z, SameNumber z y ∧
      ((p :: ps).filter isFinite).foldl (· + ·) x = (ps.filter isFinite).foldl (· + ·) z := by
  cases hfinite : isFinite p with
  | false => exact ⟨x, h, by rw [List.filter_cons_of_neg (by simp [hfinite])]⟩
  | true =>
      refine ⟨x + p, (sameNumber_add_of_isZero x (hp hfinite)).trans h, ?_⟩
      rw [List.filter_cons_of_pos hfinite, List.foldl_cons]

/-- The same shares have the same total. -/
theorem sameNumber_total {ps qs : List R} (h : List.Forall₂ SameShare ps qs) {x y : R}
    (hxy : SameNumber x y) : SameNumber ((ps.filter isFinite).foldl (· + ·) x)
      ((qs.filter isFinite).foldl (· + ·) y) := by
  induction h generalizing x y with
  | nil => exact hxy
  | @cons p _ _ _ hshare _ ih =>
      cases hshare with
      | same =>
          cases hfinite : isFinite p with
          | false =>
              rw [List.filter_cons_of_neg (by simp [hfinite]),
                List.filter_cons_of_neg (by simp [hfinite])]
              exact ih hxy
          | true =>
              rw [List.filter_cons_of_pos hfinite, List.filter_cons_of_pos hfinite]
              exact ih (hxy.add (.refl p))
      | void hp hq =>
          obtain ⟨x', hx', hleft⟩ := sameNumber_addFinite (.refl x) hp _
          obtain ⟨y', hy', hright⟩ := sameNumber_addFinite (.refl y) hq _
          rw [hleft, hright]
          exact ih (hx'.trans (hxy.trans hy'.symm))

variable [ExpScalar R]

/-- The same log-weights, shifted by the same maximum, have the same shares. -/
theorem sameShare_of_sameWeight {w w' top top' : R} (h : SameWeight w w')
    (htop : SameNumber top top') (hfinite : isFinite top = true) :
    SameShare (exp (w - top)) (exp (w' - top')) := by
  cases h with
  | number h =>
      rw [(h.sub htop).exp_eq]
      exact .same _
  | rejected hw hw' =>
      have hfinite' : isFinite top' = true := htop.isFinite_eq ▸ hfinite
      exact .void (ExpScalar.isZero_exp _ (ScoringScalar.admissible_sub w top hw hfinite))
        (ExpScalar.isZero_exp _ (ScoringScalar.admissible_sub w' top' hw' hfinite'))

variable {G : Type} [Generator G R]

/-- **The same weights are drawn alike**, with as many numbers. -/
theorem draw_eq_of_sameWeight {ws ws' : List R} (h : List.Forall₂ SameWeight ws ws') (g : G) :
    draw ws g = draw ws' g := by
  have htop := sameNumber_maximum h
  unfold draw shiftedWeights?
  dsimp only
  rw [← htop.isFinite_eq]
  by_cases hfinite : isFinite (maximum ws) = true
  · rw [if_pos hfinite, if_pos hfinite]
    dsimp only
    have hshares : List.Forall₂ SameShare (ws.map fun w => exp (w - maximum ws))
        (ws'.map fun w => exp (w - maximum ws')) := by
      rw [List.forall₂_map_left_iff, List.forall₂_map_right_iff]
      exact h.imp fun _ _ hw => sameShare_of_sameWeight hw htop hfinite
    generalize ws.map (fun w => exp (w - maximum ws)) = ps at hshares ⊢
    generalize ws'.map (fun w => exp (w - maximum ws')) = qs at hshares ⊢
    have htotal : SameNumber (sum (ps.filter isFinite)) (sum (qs.filter isFinite)) :=
      sameNumber_total hshares (.refl _)
    generalize sum (ps.filter isFinite) = total at htotal ⊢
    generalize sum (qs.filter isFinite) = total' at htotal ⊢
    cases htotal with
    | refl =>
        split
        · rw [covering_eq_of_sameShare hshares]
        · rfl
    | zeros hzero hzero' =>
        -- nothing is drawn from a total of zero, whatever its sign
        rw [less_zero_of_isZero hzero, less_zero_of_isZero hzero']
        rfl
  · rw [if_neg hfinite, if_neg hfinite]

/-- What is drawn was not rejected. -/
theorem admissible_of_draw {ws : List R} {g g' : G} {i : Nat} (h : draw ws g = (some i, g')) :
    ∃ w, ws[i]? = some w ∧ admissible w = true := by
  unfold draw shiftedWeights? at h
  dsimp only at h
  by_cases hfinite : isFinite (maximum ws) = true
  · rw [if_pos hfinite] at h
    dsimp only at h
    split at h
    · have hcovering := congrArg Prod.fst h
      dsimp only at hcovering
      by_cases hpositive : ∃ p ∈ ws.map fun w => exp (w - maximum ws), isPositive p = true
      · obtain ⟨j, p, hp, hpos, hcov⟩ := exists_covering hpositive 0 zero none
        rw [hcov, Nat.zero_add] at hcovering
        cases hcovering
        rw [List.getElem?_map] at hp
        obtain ⟨w, hw, rfl⟩ := Option.map_eq_some_iff.mp hp
        refine ⟨w, hw, ?_⟩
        by_contra hreject
        have hvoid := ExpScalar.isZero_exp _ (ScoringScalar.admissible_sub w (maximum ws)
          ((Bool.not_eq_true _).mp hreject) hfinite)
        rw [isPositive_of_void hvoid] at hpos
        cases hpos
      · have hnone : ∀ p ∈ ws.map fun w => exp (w - maximum ws), isPositive p = false := by
          intro p hp
          rw [← Bool.not_eq_true]
          exact fun hpos => hpositive ⟨p, hp, hpos⟩
        rw [covering_of_not_positive hnone] at hcovering
        cases hcovering
    · cases h
  · rw [if_neg hfinite] at h
    cases h

end Draws

variable {D κ R : Type} [Scalar R]

/-! ## Transitions -/

/-- Paths that differ in nothing but the sign of a log-weight zero. -/
def Path.SameNumbers (p p' : Path D R) : Prop :=
  ∃ x, SameNumber p.logProb x ∧ p' = { p with logProb := x }

/-- Transitions that differ in nothing but the sign of a log-weight zero. -/
inductive Transition.SameNumbers : Transition D κ R → Transition D κ R → Prop
  | finished (value : Value D R) {path path' : Path D R} : path.SameNumbers path' →
      SameNumbers (.finished value path) (.finished value path')
  | choice (site alternatives tag stack) {path path' : Path D R} : path.SameNumbers path' →
      SameNumbers (.choice site alternatives tag stack path)
        (.choice site alternatives tag stack path')
  | collapsed (inner stack) {path path' : Path D R} : path.SameNumbers path' →
      SameNumbers (.collapsed inner stack path) (.collapsed inner stack path')

/-- Steps of the machine that differ in nothing but the sign of a log-weight zero. -/
inductive Move.SameNumbers : Move D κ R → Move D κ R → Prop
  | next (program stack) {path path' : Path D R} : path.SameNumbers path' →
      SameNumbers (.next program stack path) (.next program stack path')
  | stop {t t' : Transition D κ R} : t.SameNumbers t' → SameNumbers (.stop t) (.stop t')

/-- Two runs that fail in the same way or have related results. -/
inductive ResultsMatch {α β : Type} (P : α → β → Prop) : Result R α → Result R β → Prop
  | error (halt) : ResultsMatch P (.error halt) (.error halt)
  | ok {a b} : P a b → ResultsMatch P (.ok a) (.ok b)

section Transitions

variable [ScoringScalar R] {codes : Codes D κ R} {graph : GraphView R} {path path' : Path D R}

omit [Scalar R] [ScoringScalar R] in
theorem ResultsMatch.bind_same {α β γ : Type} {P : β → γ → Prop} (x : Result R α)
    {f : α → Result R β} {g : α → Result R γ} (h : ∀ a, ResultsMatch P (f a) (g a)) :
    ResultsMatch P (x >>= f) (x >>= g) := by
  cases x with
  | error halt => exact .error halt
  | ok a => exact h a

omit [ScoringScalar R] in
theorem sameNumbers_feed (codes : Codes D κ R) (v : Value D R) (stack : List (Frame κ))
    (h : path.SameNumbers path') :
    ResultsMatch Move.SameNumbers (feed codes v stack path) (feed codes v stack path') := by
  cases stack with
  | nil => exact .ok (.stop (.finished v h))
  | cons frame below => exact .bind_same _ fun p => .ok (.next p below h)

/-- A step of the machine adds to the log-weight at most. -/
theorem sameNumbers_move (codes : Codes D κ R) (graph : GraphView R) (p : Program D κ R)
    (stack : List (Frame κ)) (h : path.SameNumbers path') :
    ResultsMatch Move.SameNumbers (move codes graph p stack path)
      (move codes graph p stack path') := by
  obtain ⟨x, hx, rfl⟩ := h
  cases p with
  | value v => exact sameNumbers_feed codes v stack ⟨x, hx, rfl⟩
  | categorical site alternatives tag => exact .ok (.stop (.choice site _ tag stack ⟨x, hx, rfl⟩))
  | neural site items parameter tag =>
      exact .bind_same _ fun alternatives => .ok (.stop (.choice site _ tag stack ⟨x, hx, rfl⟩))
  | bind inner rest => exact .ok (.next inner _ ⟨x, hx, rfl⟩)
  | factor weight =>
      unfold move
      dsimp only
      split
      · exact .error _
      · exact sameNumbers_feed codes .unit stack ⟨x + log weight, hx.add (.refl _), rfl⟩
  | getEnv => exact sameNumbers_feed codes _ stack ⟨x, hx, rfl⟩
  | setEnv env => exact sameNumbers_feed codes _ stack ⟨x, hx, rfl⟩
  | consult c => exact .bind_same _ fun p => .ok (.next p stack ⟨x, hx, rfl⟩)
  | startTimer name => exact sameNumbers_feed codes _ stack ⟨x, hx, rfl⟩
  | stopTimer name => exact sameNumbers_feed codes _ stack ⟨x, hx, rfl⟩
  | collapsed inner => exact .ok (.stop (.collapsed inner stack ⟨x, hx, rfl⟩))

/-- The machine keeps log-weights the same number, by induction on its steps. -/
theorem sameNumbers_advance (codes : Codes D κ R) (graph : GraphView R) (fuel : Nat)
    (p : Program D κ R) (stack : List (Frame κ)) (h : path.SameNumbers path') :
    ResultsMatch Transition.SameNumbers (advance codes graph fuel p stack path)
      (advance codes graph fuel p stack path') := by
  induction fuel generalizing p stack path path' with
  | zero => exact .error _
  | succ fuel ih =>
      unfold advance
      have hmove := sameNumbers_move codes graph p stack h
      revert hmove
      generalize move codes graph p stack path = x
      generalize move codes graph p stack path' = y
      intro hmove
      cases hmove with
      | error halt => exact .error halt
      | ok hxy =>
          cases hxy with
          | next q stack' hpath => exact ih q stack' hpath
          | stop ht => exact .ok ht

end Transitions

/-! ## Walks -/

/-- Executions that end in the same with the same numbers. -/
structure Execution.Matches {α : Type} (e e' : Execution α D R) : Prop where
  value : e.value = e'.value
  env : e.env = e'.env
  logProb : SameNumber e.logProb e'.logProb
  prob : e.prob = e'.prob

/-- Scores that give every state the same weight. -/
def ExecutionScore.SameWeights (a b : ExecutionScore D R) : Prop :=
  ∀ tag choice env, SameWeight (a tag choice env) (b tag choice env)

/-- The same search under another score. -/
def Setting.withScore (S : Setting D κ R) (score : ExecutionScore D R) : Setting D κ R :=
  { S with score }

namespace Setting

variable {G : Type}

/-- Walks that end in the same and leave the generator in the same state. -/
inductive SampledAlike : Result R (Option (Execution (Value D R) D R)) × G →
    Result R (Option (Execution (Value D R) D R)) × G → Prop
  | error (halt : Halt R) (g : G) : SampledAlike (.error halt, g) (.error halt, g)
  | rejected (g : G) : SampledAlike (.ok none, g) (.ok none, g)
  | found {e e' : Execution (Value D R) D R} (g : G) : e.Matches e' →
      SampledAlike (.ok (some e), g) (.ok (some e'), g)

variable {S : Setting D κ R} {a b : ExecutionScore D R} [ScoringScalar R] [ExpScalar R]
  [Generator G R]

/-- **Walks under scores of the same weight end alike**, by induction on their transitions. -/
theorem sampledAlike_walk (hscore : a.SameWeights b) (n : Nat) (p : Program D κ R)
    (stack : List (Frame κ)) {path path' : Path D R} (h : path.SameNumbers path') (g : G) :
    SampledAlike ((S.withScore a).walk n p stack path g)
      ((S.withScore b).walk n p stack path' g) := by
  induction n generalizing p stack path path' g with
  | zero => exact .error _ g
  | succ n ih =>
      rw [walk_succ, walk_succ]
      have hadvance := sameNumbers_advance S.codes S.graph S.fuel p stack h
      unfold withScore at ih ⊢
      dsimp only
      revert hadvance
      generalize advance S.codes S.graph S.fuel p stack path = x
      generalize advance S.codes S.graph S.fuel p stack path' = y
      intro hadvance
      cases hadvance with
      | error halt => exact .error halt g
      | ok ht =>
          cases ht with
          | finished value hpath =>
              obtain ⟨x, hx, rfl⟩ := hpath
              rename_i path₁
              have hdelta := hscore none none path₁.env
              unfold walkAfter
              dsimp only
              rw [← hdelta.admissible_eq]
              split
              · rename_i hadm
                have hsum := hx.add (hdelta.sameNumber hadm)
                exact .found g ⟨rfl, rfl, hsum, hsum.exp_eq⟩
              · exact .rejected g
          | collapsed inner stack' hpath => exact ih inner stack' hpath g
          | choice site alternatives tag stack' hpath =>
              obtain ⟨x, hx, rfl⟩ := hpath
              have hweight : ∀ alt : Alternative D R,
                  SameWeight (alt.logWeight + a tag (some alt.item) alt.env)
                    (alt.logWeight + b tag (some alt.item) alt.env) :=
                fun alt => (hscore tag (some alt.item) alt.env).add_left alt.logWeight
              -- a draw looks at the sums only, so both walks take the same alternative
              have hdraw := draw_eq_of_sameWeight (g := g) (List.forall₂_map_left_iff.mpr
                (List.forall₂_map_right_iff.mpr (List.forall₂_same.mpr fun alt _ => hweight alt)) :
                List.Forall₂ SameWeight
                  (alternatives.map fun alt => alt.logWeight + a tag (some alt.item) alt.env)
                  (alternatives.map fun alt => alt.logWeight + b tag (some alt.item) alt.env))
              unfold walkAfter
              dsimp only
              rw [← hdraw]
              cases hdrawn : draw (alternatives.map fun alt =>
                  alt.logWeight + a tag (some alt.item) alt.env) g with
              | mk index g' =>
                  cases index with
                  | none => exact .rejected g'
                  | some i =>
                      obtain ⟨w, hw, hadm⟩ := admissible_of_draw hdrawn
                      rw [List.getElem?_map] at hw
                      obtain ⟨alt, halt, rfl⟩ := Option.map_eq_some_iff.mp hw
                      simp only [List.getElem?_map, halt, Option.map_some]
                      refine ih _ _ ⟨_, hx.add ((hweight alt).sameNumber hadm), rfl⟩ g'

theorem sampledAlike_samplePath (hscore : a.SameWeights b) (program : Program D κ R)
    (env : Env D R) (g : G) : SampledAlike ((S.withScore a).samplePath program env g)
      ((S.withScore b).samplePath program env g) := by
  have hstart := hscore none none (env.settle {}).1
  show SampledAlike (if admissible (a none none (env.settle {}).1) = true then _ else _)
    (if admissible (b none none (env.settle {}).1) = true then _ else _)
  rw [← hstart.admissible_eq]
  split
  · rename_i hadm
    exact sampledAlike_walk hscore S.fuel program [] ⟨_, hstart.sameNumber hadm, rfl⟩ g
  · exact .rejected g

end Setting

end ChoiceSearch
