import ChoiceSearch.Proofs.Search.Walk

/-!
# Labels along a path

The labels that belong to a path by its choices alone, without a look at an environment.
A transition ends at the program in focus there (`Setting.StopsAt`), and where that is a
neural choice, taking an alternative has a label: its parameter and the position of the
alternative (`Program.labelAt`). `Setting.LabelsAlong` collects the labels along a route,
those within collapsed parts in their place, and `Setting.LabelsWalked` those of a walk.
-/

namespace ChoiceSearch

variable {D κ R : Type}

/-- The label of an alternative of the program in focus. Only neural choices have any. -/
def Program.labelAt (p : Program D κ R) (index : Nat) : List ChoiceLabel :=
  match p with
  | .neural _ _ parameter _ => [{ parameter, index }]
  | _ => []

namespace Setting

variable [Scalar R]

/-- Steps of the machine lead from one program in focus to another one. -/
inductive Comes (S : Setting D κ R) : Program D κ R → List (Frame κ) → Path D R →
    Program D κ R → List (Frame κ) → Path D R → Prop
  | here {p stack path} : Comes S p stack path p stack path
  | next {p stack path p₁ stack₁ path₁ q stack₂ path₂} :
      move S.codes S.graph p stack path = .ok (.next p₁ stack₁ path₁) →
      Comes S p₁ stack₁ path₁ q stack₂ path₂ →
      Comes S p stack path q stack₂ path₂

/-- `S.StopsAt s q t`: the deterministic part of a state ends in the transition `t`, and
`q` is the program in focus there. -/
def StopsAt (S : Setting D κ R) (s : State D κ R) (q : Program D κ R)
    (t : Transition D κ R) : Prop :=
  ∃ stack path, S.Comes s.program s.stack s.path q stack path ∧
    move S.codes S.graph q stack path = .ok (.stop t)

/-- `S.LabelsAlong wait s route labels`: the labels of the neural alternatives that the
route takes from `s`, in order. -/
inductive LabelsAlong (S : Setting D κ R) :
    (State D κ R → State D κ R) → State D κ R → List Decision → List ChoiceLabel → Prop
  | nil {wait s} : LabelsAlong S wait s [] []
  | take {wait s q site alternatives tag stack path i t t' route labels} :
      S.StopsAt s q (.choice site alternatives tag stack path) →
      (State.ofChoice site alternatives tag stack path)[i]? = some t →
      t.scored S.score = some t' →
      LabelsAlong S wait (wait t') route labels →
      LabelsAlong S wait s (.take i :: route) (q.labelAt i ++ labels)
  | through {wait s inner stack path t inside inner_labels route labels} :
      S.Advances s (.collapsed inner stack path) →
      LabelsAlong S State.waited (State.root inner [] path).waited inside inner_labels →
      S.Offers s (.through inside) t →
      LabelsAlong S wait (wait t) route labels →
      LabelsAlong S wait s (.through inside :: route) (inner_labels ++ labels)

/-- `S.LabelsWalked s choices labels`: the labels of the neural alternatives among those
that a walk takes from `s`, in order. -/
inductive LabelsWalked (S : Setting D κ R) :
    State D κ R → List Nat → List ChoiceLabel → Prop
  | stay {s} : LabelsWalked S s [] []
  | take {s q site alternatives tag stack path i t t' choices labels} :
      S.StopsAt s q (.choice site alternatives tag stack path) →
      (State.ofChoice site alternatives tag stack path)[i]? = some t →
      t.scored S.score = some t' →
      LabelsWalked S t' choices labels →
      LabelsWalked S s (i :: choices) (q.labelAt i ++ labels)
  | enter {s inner stack path choices labels} :
      S.Advances s (.collapsed inner stack path) →
      LabelsWalked S (.root inner stack path) choices labels →
      LabelsWalked S s choices labels

/-- The labels of the neural alternatives on a path from the start of a program. -/
def RouteLabels (S : Setting D κ R) (program : Program D κ R) (env : Env D R)
    (route : List Decision) (labels : List ChoiceLabel) : Prop :=
  ∃ root, (State.initial program env).scored S.score = some root ∧
    S.LabelsAlong id root route labels

/-- The labels of the neural alternatives on a walk from the start of a program. -/
def WalkLabels (S : Setting D κ R) (program : Program D κ R) (env : Env D R)
    (choices : List Nat) (labels : List ChoiceLabel) : Prop :=
  ∃ root, (State.initial program env).scored S.score = some root ∧
    S.LabelsWalked root choices labels

variable {S : Setting D κ R}

/-- Every transition ends at some program. -/
theorem Advances.exists_stopsAt {s : State D κ R} {t : Transition D κ R}
    (h : S.Advances s t) : ∃ q, S.StopsAt s q t := by
  obtain ⟨fuel, h⟩ := h
  suffices hcomes : ∀ (p : Program D κ R) (stack : List (Frame κ)) (path : Path D R),
      advance S.codes S.graph fuel p stack path = .ok t → ∃ q stack' path',
        S.Comes p stack path q stack' path' ∧ move S.codes S.graph q stack' path' = .ok (.stop t) by
    exact hcomes s.program s.stack s.path h
  clear h
  induction fuel with
  | zero => intro p stack path h; cases h
  | succ fuel ih =>
      intro p stack path h
      rw [advance_succ] at h
      obtain ⟨m, hmove, h⟩ := exists_of_bind_eq_ok h
      cases m with
      | stop t' => cases h; exact ⟨p, stack, path, .here, hmove⟩
      | next p₁ stack₁ path₁ =>
          obtain ⟨q, stack', path', hcomes, hstop⟩ := ih p₁ stack₁ path₁ h
          exact ⟨q, stack', path', .next hmove hcomes, hstop⟩

/-- What steps of the machine preserve holds where a transition ends. -/
theorem Comes.invariant {P : Program D κ R → List (Frame κ) → Path D R → Prop}
    (hP : ∀ {p stack path p₁ stack₁ path₁}, P p stack path →
      move S.codes S.graph p stack path = .ok (.next p₁ stack₁ path₁) → P p₁ stack₁ path₁)
    {p q : Program D κ R} {stack stack' : List (Frame κ)} {path path' : Path D R}
    (h : S.Comes p stack path q stack' path') (hp : P p stack path) : P q stack' path' := by
  induction h with
  | here => exact hp
  | next hmove _ ih => exact ih (hP hp hmove)

end Setting

end ChoiceSearch
