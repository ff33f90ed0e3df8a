import ChoiceSearch.Proofs.Listing
import ChoiceSearch.Proofs.Search.Alike
import ChoiceSearch.Proofs.Search.Fuel
import ChoiceSearch.Proofs.Search.Resolve

/-!
# Choice trees

Below a state hangs the tree of all that can follow. `Setting.fold` evaluates it, with
weights relative to the state, down to a given depth: how much weight ends in values of
a kind (`Setting.total`), how many states there are (`Setting.size`), how deep the tree is
(`Setting.height`), whether every step succeeds (`Setting.Sound`) and whether the depth is
enough (`Setting.Bounded`).

Every such evaluation is the same for alike states (`View.fold_alike`). So states that
look the same have the same future, whatever identifiers they carry.
-/

namespace ChoiceSearch

variable {D κ α β : Type}

/-- The state at log-weight zero. -/
noncomputable def State.unweighted (s : State D κ Exact) : State D κ Exact :=
  { s with path := { s.path with logProb := Scalar.zero } }

/-- A way to evaluate choice trees. -/
structure Fold (β α : Type) where
  /-- The tree of a state whose step comes to nothing. -/
  halted : Halt Exact → α
  /-- The tree of a state that finishes, with what the score admits of it. -/
  finished : List (Exact × β) → α
  /-- The tree of a state with the given admitted offers. -/
  choice : List (Exact × α) → α

namespace Setting

/-- Evaluates the choice tree below a state down to a depth; `label` is what counts of a
program that has finished. -/
noncomputable def fold (S : Setting D κ Exact) (label : Program D κ Exact → β) (F : Fold β α) :
    Nat → State D κ Exact → α
  | 0, _ => F.halted .outOfFuel
  | n + 1, s =>
    match S.step s.unweighted with
    | .error halt => F.halted halt
    | .ok (.finished u) =>
      F.finished ((S.admitted [u]).map fun u => (u.logProb, label u.program))
    | .ok (.pending states) =>
      F.choice ((S.admitted states).map fun t => (t.logProb, S.fold label F n t))

end Setting

/-- Whether a program is a value that passes a test. -/
def Program.passes (q : Value D Exact → Bool) : Program D κ Exact → Bool
  | .value v => q v
  | _ => false

/-- The weight of a finished state if its value passes a test. -/
noncomputable def State.endWeight (q : Value D Exact → Bool) (u : State D κ Exact) : ℝ :=
  if u.program.passes q then u.logProb.weight else 0

namespace Fold

/-- The weight of what passes. -/
noncomputable def total : Fold Bool ℝ where
  halted _ := 0
  finished ends := (ends.map fun (w, hit) => if hit then w.weight else 0).sum
  choice offers := (offers.map fun (w, x) => w.weight * x).sum

/-- The number of states. -/
def size : Fold Unit Nat where
  halted _ := 1
  finished _ := 1
  choice offers := 1 + (offers.map (·.2)).sum

/-- The number of steps on the longest path. -/
def height : Fold Unit Nat where
  halted _ := 1
  finished _ := 1
  choice offers := 1 + (offers.map (·.2)).foldr max 0

/-- Every step succeeds. -/
def sound : Fold Unit Prop where
  halted _ := False
  finished _ := True
  choice offers := ∀ offer ∈ offers, offer.2

/-- Every step comes to an end. -/
def bounded : Fold Unit Prop where
  halted halt := halt ≠ .outOfFuel
  finished _ := True
  choice offers := ∀ offer ∈ offers, offer.2

end Fold

namespace Setting

/-- The weight, relative to the state, of the paths that end in values that pass a test. -/
noncomputable def total (S : Setting D κ Exact) (q : Value D Exact → Bool) :
    Nat → State D κ Exact → ℝ := S.fold (·.passes q) Fold.total

/-- The number of states of the choice tree. -/
noncomputable def size (S : Setting D κ Exact) : Nat → State D κ Exact → Nat :=
  S.fold (fun _ => ()) Fold.size

/-- The number of steps on the longest path of the choice tree. -/
noncomputable def height (S : Setting D κ Exact) : Nat → State D κ Exact → Nat :=
  S.fold (fun _ => ()) Fold.height

/-- Every step of the choice tree succeeds. -/
def Sound (S : Setting D κ Exact) : Nat → State D κ Exact → Prop :=
  S.fold (fun _ => ()) Fold.sound

/-- The choice tree ends within the given depth. -/
def Bounded (S : Setting D κ Exact) : Nat → State D κ Exact → Prop :=
  S.fold (fun _ => ()) Fold.bounded

/-- The choice tree below a state is finite: the step of every state comes to an end, and
so does every path. -/
inductive FiniteTree (S : Setting D κ Exact) : State D κ Exact → Prop
  | intro {s} (fuel : Nat) (hstep : (S.withFuel fuel).step s ≠ .error .outOfFuel)
      (hoffers : ∀ states, (S.withFuel fuel).step s = .ok (.pending states) →
        ∀ t ∈ S.admitted states, FiniteTree S t) : FiniteTree S s

end Setting

namespace View

variable {W : View D κ} {S : Setting D κ Exact} {base base' : Exact}

/-- A test of values that passes both of two values that look the same, or none. -/
def Invariant (W : View D κ) (q : Value D Exact → Bool) : Prop :=
  ∀ {v v'}, W.SameValue v v' → q v = q v'

theorem SameValue.refl (hW : W.Lawful S) (v : Value D Exact) : W.SameValue v v := by
  cases v with
  | unit => exact .unit
  | env e => exact .env (hW.env_equiv.refl e)
  | expr x => exact .expr x
  | data d => exact .data d

theorem SameProgram.refl (hW : W.Lawful S) (program : Program D κ Exact) :
    W.SameProgram program program := by
  induction program with
  | value v => exact .value (.refl hW v)
  | categorical site alternatives tag => exact .categorical site alternatives tag
  | neural site items parameter tag => exact .neural site items parameter tag
  | bind inner rest ih =>
      exact .bind ih (List.forall₂_same.mpr fun l _ => ⟨rfl, hW.code_equiv.refl l.code⟩)
  | factor weight => exact .factor weight
  | getEnv => exact .getEnv
  | setEnv e => exact .setEnv (hW.env_equiv.refl e)
  | consult code => exact .consult (hW.code_equiv.refl code)
  | startTimer name => exact .startTimer name
  | stopTimer name => exact .stopTimer name
  | collapsed inner ih => exact .collapsed ih

theorem SameStack.refl (hW : W.Lawful S) (stack : List (Frame κ)) : W.SameStack stack stack :=
  List.forall₂_same.mpr fun f _ => hW.code_equiv.refl f.code

/-- Stacks with the same codes look the same. -/
theorem SameStack.of_codes (hW : W.Lawful S) {stack stack' : List (Frame κ)}
    (h : stack.map (·.code) = stack'.map (·.code)) : W.SameStack stack stack' := by
  have hcodes : List.Forall₂ W.code (stack.map (·.code)) (stack'.map (·.code)) := by
    rw [h]
    exact List.forall₂_same.mpr fun c _ => hW.code_equiv.refl c
  rw [List.forall₂_map_left_iff, List.forall₂_map_right_iff] at hcodes
  exact hcodes

/-- A state looks the same with other marks and from another log-weight. -/
theorem Alike.repath (hW : W.Lawful S) (s : State D κ Exact) (weight weight' : Exact)
    (supply supply' : Supply) :
    W.Alike weight weight' { s with path := { s.path with logProb := weight, supply } }
      { s with path := { s.path with logProb := weight', supply := supply' } } :=
  ⟨.refl hW s.program, .refl hW s.stack, ⟨hW.env_equiv.refl _, .refl weight weight'⟩, rfl, rfl, rfl⟩

theorem Alike.unweighted {s s' : State D κ Exact} (h : W.Alike base base' s s') :
    W.Alike Scalar.zero Scalar.zero s.unweighted s'.unweighted :=
  ⟨h.program, h.stack, ⟨h.path.env, .refl _ _⟩, h.tag, h.choice, h.spot⟩

/-- **Alike states have the same future.** -/
theorem fold_alike (hW : W.Lawful S) {label : Program D κ Exact → β}
    (hlabel : ∀ {p p'}, W.SameProgram p p' → label p = label p') (F : Fold β α) (n : Nat)
    {base base' : Exact} {s s' : State D κ Exact} (h : W.Alike base base' s s') :
    S.fold label F n s = S.fold label F n s' := by
  induction n generalizing base base' s s' with
  | zero => rfl
  | succ n ih =>
      have hstep : ResultRel (W.SameStep Scalar.zero Scalar.zero) (S.step s.unweighted)
          (S.step s'.unweighted) := step_alike hW rfl rfl h.unweighted
      have hlog : ∀ {t t' : State D κ Exact}, W.Alike Scalar.zero Scalar.zero t t' →
          t.logProb = t'.logProb := by
        rintro t t' ht
        obtain ⟨w, hw, hw'⟩ := ht.path.logProb
        exact hw.trans hw'.symm
      unfold Setting.fold
      revert hstep
      generalize S.step s.unweighted = x
      generalize S.step s'.unweighted = y
      intro hstep
      cases hstep with
      | error halt => rfl
      | ok hsame =>
          cases hsame with
          | finished hu =>
              refine congrArg F.finished (map_eq_of_forall₂ ?_)
              exact (alike_admitted hW rfl rfl (.cons hu .nil)).imp fun t t' ht =>
                Prod.ext (hlog ht) (hlabel ht.program)
          | pending hstates =>
              refine congrArg F.choice (map_eq_of_forall₂ ?_)
              exact (alike_admitted hW rfl rfl hstates).imp fun t t' ht =>
                Prod.ext (hlog ht) (ih ht)

/-- A state steps as it does at log-weight zero; only the log-weights are shifted. -/
theorem step_unweighted (hW : W.Lawful S) {s : State D κ Exact}
    (hs : Scalar.admissible s.logProb = true) :
    ResultRel (W.SameStep s.logProb Scalar.zero) (S.step s) (S.step s.unweighted) :=
  step_alike hW hs rfl (.repath hW s s.logProb Scalar.zero s.path.supply s.path.supply)

theorem Lawful.withFuel (hW : W.Lawful S) (fuel : Nat) : W.Lawful (S.withFuel fuel) := by
  constructor
  · exact hW.env_equiv
  · exact hW.code_equiv
  · exact hW.vars
  · exact hW.version
  · exact hW.label
  · exact hW.startTimer
  · exact hW.stopTimer
  · exact hW.pause
  · exact hW.unpause
  · exact hW.resume
  · exact hW.consult
  · exact hW.score

section Unfold

variable (label : Program D κ Exact → β) (F : Fold β α) {s : State D κ Exact}

omit label F in
theorem logProb_of_shifted {base : Exact} {t t' : State D κ Exact}
    (h : W.Alike base Scalar.zero t t') : t.logProb = base + t'.logProb := by
  obtain ⟨w, hw, hw'⟩ := h.path.logProb
  have hzero : t'.logProb = w := hw'.trans ((Exact.sum_comm _ _).trans (Exact.sum_zero w))
  rw [hzero]
  exact hw

/-- The tree of a state whose step comes to nothing. -/
theorem fold_of_error (hW : W.Lawful S) (hs : Scalar.admissible s.logProb = true)
    {halt : Halt Exact} (h : S.step s = .error halt) (n : Nat) :
    S.fold label F (n + 1) s = F.halted halt := by
  have hstep := step_unweighted hW hs
  rw [h] at hstep
  rw [Setting.fold]
  revert hstep
  generalize S.step s.unweighted = x
  intro hstep
  cases hstep
  rfl

/-- The tree of a state that finishes. -/
theorem fold_of_finished (hW : W.Lawful S)
    (hlabel : ∀ {p p'}, W.SameProgram p p' → label p = label p')
    (hs : Scalar.admissible s.logProb = true) {u : State D κ Exact}
    (h : S.step s = .ok (.finished u)) (n : Nat) :
    ∃ ends, S.fold label F (n + 1) s = F.finished ends ∧
      List.Forall₂ (fun t e => t.logProb = s.logProb + e.1 ∧ label t.program = e.2)
        (S.admitted [u]) ends := by
  have hstep := step_unweighted hW hs
  rw [h] at hstep
  rw [Setting.fold]
  revert hstep
  generalize S.step s.unweighted = x
  intro hstep
  cases hstep with
  | ok hsame =>
      cases hsame with
      | finished hu =>
          refine ⟨_, rfl, ?_⟩
          rw [List.forall₂_map_right_iff]
          exact (alike_admitted hW hs rfl (.cons hu .nil)).imp fun t t' ht =>
            ⟨logProb_of_shifted ht, hlabel ht.program⟩

/-- The tree of a state that offers others. -/
theorem fold_of_pending (hW : W.Lawful S)
    (hlabel : ∀ {p p'}, W.SameProgram p p' → label p = label p')
    (hs : Scalar.admissible s.logProb = true) {states : List (State D κ Exact)}
    (h : S.step s = .ok (.pending states)) (n : Nat) :
    ∃ offers, S.fold label F (n + 1) s = F.choice offers ∧
      List.Forall₂ (fun t e => t.logProb = s.logProb + e.1 ∧ S.fold label F n t = e.2)
        (S.admitted states) offers := by
  have hstep := step_unweighted hW hs
  rw [h] at hstep
  rw [Setting.fold]
  revert hstep
  generalize S.step s.unweighted = x
  intro hstep
  cases hstep with
  | ok hsame =>
      cases hsame with
      | pending hstates =>
          refine ⟨_, rfl, ?_⟩
          rw [List.forall₂_map_right_iff]
          exact (alike_admitted hW hs rfl hstates).imp fun t t' ht =>
            ⟨logProb_of_shifted ht, fold_alike hW hlabel F n ht⟩

end Unfold

end View

namespace Setting

variable {S : Setting D κ Exact} {s : State D κ Exact}

/-- More depth and more fuel do not change a choice tree that has come to its end. -/
theorem fold_stable {fuel fuel' n n' : Nat} (hfuel : fuel ≤ fuel') (hn : n ≤ n')
    (h : (S.withFuel fuel).Bounded n s) (label : Program D κ Exact → β) (F : Fold β α) :
    (S.withFuel fuel').fold label F n' s = (S.withFuel fuel).fold label F n s := by
  induction n generalizing n' s with
  | zero => exact absurd rfl h
  | succ n ih =>
      obtain ⟨m, rfl⟩ : ∃ m, n' = m + 1 := ⟨n' - 1, by omega⟩
      have hstep := step_mono (S := S) hfuel s.unweighted
      unfold Bounded at h
      unfold fold at h ⊢
      cases hx : (S.withFuel fuel).step s.unweighted with
      | error halt =>
          rw [hx] at h hstep
          rw [hstep fun heq => h (by cases heq; rfl)]
      | ok o =>
          rw [hx] at h hstep
          rw [hstep (by simp)]
          cases o with
          | finished u => rfl
          | pending states =>
              refine congrArg F.choice (List.map_congr_left ?_)
              intro t ht
              have ht' : (S.withFuel fuel).Bounded n t := h _ (List.mem_map_of_mem ht)
              rw [ih (by omega) ht']

theorem Bounded.mono {fuel fuel' n n' : Nat} (hfuel : fuel ≤ fuel') (hn : n ≤ n')
    (h : (S.withFuel fuel).Bounded n s) : (S.withFuel fuel').Bounded n' s := by
  unfold Bounded
  rw [fold_stable hfuel hn h]
  exact h

/-- Enough depth and fuel for every state of a list. -/
theorem exists_bounded_forall {states : List (State D κ Exact)}
    (h : ∀ t ∈ states, ∃ fuel n, (S.withFuel fuel).Bounded n t) :
    ∃ fuel n, ∀ t ∈ states, (S.withFuel fuel).Bounded n t := by
  induction states with
  | nil => exact ⟨0, 0, by simp⟩
  | cons t states ih =>
      obtain ⟨fuel, n, ht⟩ := h t List.mem_cons_self
      obtain ⟨fuel', n', hstates⟩ := ih fun u hu => h u (List.mem_cons_of_mem _ hu)
      refine ⟨max fuel fuel', max n n', ?_⟩
      intro u hu
      rcases List.mem_cons.mp hu with rfl | hu
      · exact ht.mono (Nat.le_max_left _ _) (Nat.le_max_left _ _)
      · exact (hstates u hu).mono (Nat.le_max_right _ _) (Nat.le_max_right _ _)

/-- **A finite choice tree has a depth, and some fuel suffices for all of its steps.** -/
theorem FiniteTree.exists_bounded {W : View D κ} (hW : W.Lawful S) (h : S.FiniteTree s)
    (hs : Scalar.admissible s.logProb = true) : ∃ fuel n, (S.withFuel fuel).Bounded n s := by
  induction h with
  | @intro s fuel hstep hoffers ih =>
      cases hx : (S.withFuel fuel).step s with
      | error halt =>
          refine ⟨fuel, 1, ?_⟩
          unfold Bounded
          rw [View.fold_of_error _ _ (hW.withFuel fuel) hs hx]
          exact fun heq => hstep (by rw [hx, heq])
      | ok o =>
          cases o with
          | finished u =>
              obtain ⟨ends, hfold, -⟩ := View.fold_of_finished (fun _ => ()) Fold.bounded
                (hW.withFuel fuel) (fun _ => rfl) hs hx 0
              refine ⟨fuel, 1, ?_⟩
              unfold Bounded
              rw [hfold]
              trivial
          | pending states =>
              have hadm : ∀ t ∈ S.admitted states, Scalar.admissible t.logProb = true := by
                intro t ht
                obtain ⟨t₀, -, hscore⟩ := List.mem_filterMap.mp ht
                exact (State.logProb_of_scored hscore).1
              obtain ⟨fuel', n, hall⟩ := exists_bounded_forall fun t ht =>
                ih states hx t ht (hadm t ht)
              have hx' : (S.withFuel (max fuel fuel')).step s = .ok (.pending states) :=
                (step_mono (Nat.le_max_left _ _) s (by rw [hx]; simp)).trans hx
              obtain ⟨offers, hfold, hoff⟩ := View.fold_of_pending (fun _ => ()) Fold.bounded
                (hW.withFuel (max fuel fuel')) (fun _ => rfl) hs hx' n
              refine ⟨max fuel fuel', n + 1, ?_⟩
              unfold Bounded
              rw [hfold]
              intro offer hmem
              obtain ⟨t, ht, -, heq⟩ := exists_right_of_forall₂ hoff.flip offer hmem
              rw [← heq]
              exact (hall t ht).mono (Nat.le_max_right _ _) le_rfl

/-- The choice tree of a state that finishes. -/
theorem FiniteTree.of_finished {u : State D κ Exact} (fuel : Nat)
    (h : (S.withFuel fuel).step s = .ok (.finished u)) : S.FiniteTree s := by
  refine .intro fuel ?_ ?_
  · rw [h]
    intro heq
    cases heq
  · intro states hstates
    rw [h] at hstates
    cases hstates

/-- The choice tree of a state with finite choice trees below its offers. -/
theorem FiniteTree.of_pending {states : List (State D κ Exact)} (fuel : Nat)
    (h : (S.withFuel fuel).step s = .ok (.pending states))
    (hall : ∀ t ∈ S.admitted states, S.FiniteTree t) : S.FiniteTree s := by
  refine .intro fuel ?_ ?_
  · rw [h]
    intro heq
    cases heq
  · intro states' hstates
    rw [h] at hstates
    cases hstates
    exact hall

/-- The choice tree of a state that comes to a choice. -/
theorem FiniteTree.of_choice {site : Option Nat} {alternatives : List (Alternative D Exact)}
    {tag : Option D} {stack : List (Frame κ)} {path : Path D Exact} (fuel : Nat)
    (h : (S.withFuel fuel).step s =
      .ok (.pending (State.ofChoice site alternatives tag stack path)))
    (hall : ∀ t : State D κ Exact, ∀ a ∈ alternatives, t.program = .value (.data a.item) →
      t.stack = stack → t.path.env = a.env → S.FiniteTree t) : S.FiniteTree s := by
  refine .of_pending fuel h ?_
  intro t ht
  obtain ⟨u, hu, hscore⟩ := List.mem_filterMap.mp ht
  obtain ⟨i, hi, rfl⟩ := List.mem_mapIdx.mp hu
  rw [State.eq_of_scored hscore]
  exact hall _ alternatives[i] (List.getElem_mem hi) rfl rfl rfl

/-! ## One step of a tree -/

section Step

variable {W : View D κ} {q : Value D Exact → Bool} {o : Step D κ Exact}

theorem not_bounded_zero : ¬ S.Bounded 0 s := fun h => h rfl

/-- A program that looks like another one passes the same tests. -/
theorem passes_eq (hq : W.Invariant q) {p p' : Program D κ Exact}
    (h : W.SameProgram p p') : p.passes q = p'.passes q := by
  cases h with
  | value hv => exact hq hv
  | _ => rfl

/-- The weight below a state is that below its offers and that of what it finishes as. -/
theorem total_of_step (hW : W.Lawful S) (hq : W.Invariant q)
    (hs : Scalar.admissible s.logProb = true) (h : S.step s = .ok o) (n : Nat) :
    s.logProb.weight * S.total q (n + 1) s =
      ((S.pendingOf o).map fun t => t.logProb.weight * S.total q n t).sum +
      ((S.finishedOf o).map (·.endWeight q)).sum := by
  unfold total
  cases o with
  | finished u =>
      obtain ⟨ends, hfold, hends⟩ := View.fold_of_finished (·.passes q) Fold.total hW
        (passes_eq hq) hs h n
      rw [hfold]
      show s.logProb.weight * (ends.map _).sum = ([].map _).sum + ((S.admitted [u]).map _).sum
      rw [List.map_nil, List.sum_nil, zero_add, ← List.sum_map_mul_left]
      refine congrArg List.sum (map_eq_of_forall₂ (hends.flip.imp ?_))
      rintro e t ⟨hlog, hpass⟩
      simp only [State.endWeight, hpass, hlog, Exact.weight_add]
      split
      · rfl
      · exact mul_zero _
  | pending states =>
      obtain ⟨offers, hfold, hoffers⟩ := View.fold_of_pending (·.passes q) Fold.total hW
        (passes_eq hq) hs h n
      rw [hfold]
      show s.logProb.weight * (offers.map _).sum = ((S.admitted states).map _).sum + ([].map _).sum
      rw [List.map_nil, List.sum_nil, add_zero, ← List.sum_map_mul_left]
      refine congrArg List.sum (map_eq_of_forall₂ (hoffers.flip.imp ?_))
      rintro e t ⟨hlog, hfold⟩
      rw [hlog, Exact.weight_add, hfold, mul_assoc]

/-- A state is one more than all that it offers. -/
theorem size_of_step (hW : W.Lawful S) (hs : Scalar.admissible s.logProb = true)
    (h : S.step s = .ok o) (n : Nat) :
    S.size (n + 1) s = 1 + ((S.pendingOf o).map (S.size n)).sum := by
  unfold size
  cases o with
  | finished u =>
      obtain ⟨ends, hfold, -⟩ := View.fold_of_finished (fun _ => ()) Fold.size hW
        (fun _ => rfl) hs h n
      rw [hfold]
      rfl
  | pending states =>
      obtain ⟨offers, hfold, hoffers⟩ := View.fold_of_pending (fun _ => ()) Fold.size hW
        (fun _ => rfl) hs h n
      rw [hfold]
      show 1 + (offers.map _).sum = 1 + ((S.admitted states).map _).sum
      rw [map_eq_of_forall₂ (hoffers.flip.imp fun e t ht => ht.2.symm)]

/-- What a state offers is less high. -/
theorem height_of_step (hW : W.Lawful S) (hs : Scalar.admissible s.logProb = true)
    (h : S.step s = .ok o) (n : Nat) : ∀ t ∈ S.pendingOf o, S.height n t < S.height (n + 1) s := by
  unfold height
  cases o with
  | finished u => intro t ht; cases ht
  | pending states =>
      intro t ht
      obtain ⟨offers, hfold, hoffers⟩ := View.fold_of_pending (fun _ => ()) Fold.height hW
        (fun _ => rfl) hs h n
      rw [hfold]
      show _ < 1 + (offers.map (·.2)).foldr max 0
      obtain ⟨e, he, -, heq⟩ := exists_right_of_forall₂ hoffers t ht
      rw [heq]
      have hmax : e.2 ≤ (offers.map (·.2)).foldr max 0 :=
        List.le_max_of_le (List.mem_map_of_mem he) le_rfl
      omega

/-- What holds of a tree if it holds of all trees below the offers. -/
theorem forall_of_step {F : Fold Unit Prop} (hfinished : ∀ ends, F.finished ends = True)
    (hchoice : ∀ offers, F.choice offers = ∀ offer ∈ offers, offer.2) (hW : W.Lawful S)
    (hs : Scalar.admissible s.logProb = true) (h : S.step s = .ok o) (n : Nat) :
    S.fold (fun _ => ()) F (n + 1) s ↔ ∀ t ∈ S.pendingOf o, S.fold (fun _ => ()) F n t := by
  cases o with
  | finished u =>
      obtain ⟨ends, hfold, -⟩ := View.fold_of_finished (fun _ => ()) F hW (fun _ => rfl) hs h n
      rw [hfold, hfinished]
      show True ↔ ∀ t ∈ [], _
      simp
  | pending states =>
      obtain ⟨offers, hfold, hoffers⟩ := View.fold_of_pending (fun _ => ()) F hW
        (fun _ => rfl) hs h n
      rw [hfold, hchoice]
      constructor
      · intro hall t ht
        obtain ⟨e, he, -, heq⟩ := exists_right_of_forall₂ hoffers t ht
        rw [heq]
        exact hall e he
      · intro hall e he
        obtain ⟨t, ht, -, heq⟩ := exists_right_of_forall₂ hoffers.flip e he
        rw [← heq]
        exact hall t ht

theorem sound_of_step (hW : W.Lawful S) (hs : Scalar.admissible s.logProb = true)
    (h : S.step s = .ok o) (n : Nat) : S.Sound (n + 1) s ↔ ∀ t ∈ S.pendingOf o, S.Sound n t :=
  forall_of_step (fun _ => rfl) (fun _ => rfl) hW hs h n

theorem bounded_of_step (hW : W.Lawful S) (hs : Scalar.admissible s.logProb = true)
    (h : S.step s = .ok o) (n : Nat) : S.Bounded (n + 1) s ↔ ∀ t ∈ S.pendingOf o, S.Bounded n t :=
  forall_of_step (fun _ => rfl) (fun _ => rfl) hW hs h n

/-- A tree with a step that fails is not sound. -/
theorem not_sound_of_error (hW : W.Lawful S) (hs : Scalar.admissible s.logProb = true)
    {halt : Halt Exact} (h : S.step s = .error halt) (n : Nat) : ¬ S.Sound (n + 1) s := by
  unfold Sound
  rw [View.fold_of_error _ _ hW hs h]
  exact id

/-- A tree comes to its end and is sound if the trees below the offers are so. -/
theorem bounded_and_sound_of_step (hW : W.Lawful S) (hs : Scalar.admissible s.logProb = true)
    (h : S.step s = .ok o) {n : Nat} (hall : ∀ t ∈ S.pendingOf o, S.Bounded n t ∧ S.Sound n t) :
    S.Bounded (n + 1) s ∧ S.Sound (n + 1) s := by
  rw [bounded_of_step hW hs h, sound_of_step hW hs h]
  exact ⟨fun t ht => (hall t ht).1, fun t ht => (hall t ht).2⟩

/-! ## One step of a tree that is deep enough -/

/-- One level more does not change a tree that is deep enough. -/
theorem Bounded.fold_succ {n : Nat} (h : S.Bounded n s) (label : Program D κ Exact → β)
    (F : Fold β α) : S.fold label F (n + 1) s = S.fold label F n s :=
  fold_stable (S := S) (Nat.le_refl S.fuel) (Nat.le_succ n) h label F

variable {n : Nat}

theorem Bounded.of_step (hb : S.Bounded n s) (hW : W.Lawful S)
    (hs : Scalar.admissible s.logProb = true) (h : S.step s = .ok o) :
    ∀ t ∈ S.pendingOf o, S.Bounded n t := by
  refine (bounded_of_step hW hs h n).mp ?_
  unfold Bounded
  rw [hb.fold_succ]
  exact hb

theorem Bounded.height_lt (hb : S.Bounded n s) (hW : W.Lawful S)
    (hs : Scalar.admissible s.logProb = true) (h : S.step s = .ok o) :
    ∀ t ∈ S.pendingOf o, S.height n t < S.height n s := by
  intro t ht
  have hlt := height_of_step hW hs h n t ht
  unfold height at hlt ⊢
  rwa [hb.fold_succ] at hlt

theorem Bounded.size_eq (hb : S.Bounded n s) (hW : W.Lawful S)
    (hs : Scalar.admissible s.logProb = true) (h : S.step s = .ok o) :
    S.size n s = 1 + ((S.pendingOf o).map (S.size n)).sum := by
  rw [← size_of_step hW hs h n]
  exact (hb.fold_succ _ _).symm

theorem Bounded.sound_iff (hb : S.Bounded n s) (hW : W.Lawful S)
    (hs : Scalar.admissible s.logProb = true) (h : S.step s = .ok o) :
    S.Sound n s ↔ ∀ t ∈ S.pendingOf o, S.Sound n t := by
  rw [← sound_of_step hW hs h n]
  unfold Sound
  rw [hb.fold_succ]

theorem Bounded.not_sound (hb : S.Bounded n s) (hW : W.Lawful S)
    (hs : Scalar.admissible s.logProb = true) {halt : Halt Exact} (h : S.step s = .error halt) :
    ¬ S.Sound n s := by
  have hnot := not_sound_of_error hW hs h n
  unfold Sound at hnot ⊢
  rwa [hb.fold_succ] at hnot

theorem Bounded.total_eq (hb : S.Bounded n s) (hW : W.Lawful S) (hq : W.Invariant q)
    (hs : Scalar.admissible s.logProb = true) (h : S.step s = .ok o) :
    s.logProb.weight * S.total q n s =
      ((S.pendingOf o).map fun t => t.logProb.weight * S.total q n t).sum +
      ((S.finishedOf o).map (·.endWeight q)).sum := by
  rw [← total_of_step hW hq hs h n]
  unfold total
  rw [hb.fold_succ]

end Step

end Setting

end ChoiceSearch
