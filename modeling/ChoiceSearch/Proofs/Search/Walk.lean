import ChoiceSearch.Proofs.Search.Resolve

/-!
# Walks

A walk goes straight through collapsed parts: at a choice it takes an alternative, and a
collapsed part is entered with the frames outside it still waiting below
(`Setting.Walks`). So a walk is given by the alternatives taken, one after the other,
where a route nests the decisions within a collapsed part.

The alternatives along a route (`takenAlong`) determine the route, if both end where a
path finishes (`Setting.Follows.eq_of_takenAlong`). On a path without collapsed parts walks
and routes are the same (`Setting.follows_iff_walks`).
-/

namespace ChoiceSearch

variable {D κ R : Type}

mutual

/-- The alternatives taken by a decision, those within a collapsed part included. -/
def Decision.taken : Decision → List Nat
  | .take i => [i]
  | .through route => takenAlong route

/-- The alternatives taken along a route, in order. -/
def takenAlong : List Decision → List Nat
  | [] => []
  | d :: route => d.taken ++ takenAlong route

end

namespace Setting

variable [Scalar R]

/-- `S.Walks n s choices u`: the walk that takes the given alternatives leads from `s` to
`u` by `n` transitions. -/
inductive Walks (S : Setting D κ R) : Nat → State D κ R → List Nat → State D κ R → Prop
  | stay {s} : Walks S 0 s [] s
  | take {n s site alternatives tag stack path i t t' choices u} :
      S.Advances s (.choice site alternatives tag stack path) →
      (State.ofChoice site alternatives tag stack path)[i]? = some t →
      t.scored S.score = some t' →
      Walks S n t' choices u →
      Walks S (n + 1) s (i :: choices) u
  | enter {n s inner stack path choices u} :
      S.Advances s (.collapsed inner stack path) →
      Walks S n (.root inner stack path) choices u →
      Walks S (n + 1) s choices u

/-- `S.Arrives n s choices value path`: the walk that takes the given alternatives leads
from `s` to the final value by `n` transitions and one that finishes. -/
def Arrives (S : Setting D κ R) (n : Nat) (s : State D κ R) (choices : List Nat)
    (value : Value D R) (path : Path D R) : Prop :=
  ∃ u, S.Walks n s choices u ∧ S.Advances u (.finished value path)

variable {S : Setting D κ R} {wait : State D κ R → State D κ R}

theorem arrives_iff_of_finished {s : State D κ R} {v : Value D R} {p : Path D R}
    (h : S.Advances s (.finished v p)) {n : Nat} {choices : List Nat} {value : Value D R}
    {path : Path D R} : S.Arrives n s choices value path ↔
      n = 0 ∧ choices = [] ∧ value = v ∧ path = p := by
  constructor
  · rintro ⟨u, hwalk, hfin⟩
    cases hwalk with
    | stay =>
        cases hfin.unique h
        exact ⟨rfl, rfl, rfl, rfl⟩
    | take hadv => cases hadv.unique h
    | enter hadv => cases hadv.unique h
  · rintro ⟨rfl, rfl, rfl, rfl⟩
    exact ⟨s, .stay, h⟩

/-- A walk from a state at a choice takes an alternative. -/
theorem arrives_iff_of_choice {s : State D κ R} {site : Option Nat}
    {alternatives : List (Alternative D R)} {tag : Option D} {stack : List (Frame κ)}
    {p : Path D R} (h : S.Advances s (.choice site alternatives tag stack p)) {n : Nat}
    {choices : List Nat} {value : Value D R} {path : Path D R} :
    S.Arrives n s choices value path ↔ ∃ m i rest t t', n = m + 1 ∧ choices = i :: rest ∧
      (State.ofChoice site alternatives tag stack p)[i]? = some t ∧
      t.scored S.score = some t' ∧ S.Arrives m t' rest value path := by
  constructor
  · rintro ⟨u, hwalk, hfin⟩
    cases hwalk with
    | stay => cases hfin.unique h
    | take hadv hget hscore hrest =>
        cases hadv.unique h
        exact ⟨_, _, _, _, _, rfl, rfl, hget, hscore, u, hrest, hfin⟩
    | enter hadv => cases hadv.unique h
  · rintro ⟨m, i, rest, t, t', rfl, rfl, hget, hscore, u, hrest, hfin⟩
    exact ⟨u, .take h hget hscore hrest, hfin⟩

/-- A walk from a state at a collapsed part enters it. -/
theorem arrives_iff_of_collapsed {s : State D κ R} {inner : Program D κ R}
    {stack : List (Frame κ)} {p : Path D R} (h : S.Advances s (.collapsed inner stack p)) {n : Nat}
    {choices : List Nat} {value : Value D R} {path : Path D R} :
    S.Arrives n s choices value path ↔
      ∃ m, n = m + 1 ∧ S.Arrives m (.root inner stack p) choices value path := by
  constructor
  · rintro ⟨u, hwalk, hfin⟩
    cases hwalk with
    | stay => cases hfin.unique h
    | take hadv => cases hadv.unique h
    | enter hadv hrest =>
        cases hadv.unique h
        exact ⟨_, rfl, u, hrest, hfin⟩
  · rintro ⟨m, rfl, u, hrest, hfin⟩
    exact ⟨u, .enter h hrest, hfin⟩

theorem Arrives.exists_advances {n : Nat} {s : State D κ R} {choices : List Nat}
    {value : Value D R} {path : Path D R} (h : S.Arrives n s choices value path) :
    ∃ t, S.Advances s t := by
  obtain ⟨u, hwalk, hfin⟩ := h
  cases hwalk with
  | stay => exact ⟨_, hfin⟩
  | take hadv => exact ⟨_, hadv⟩
  | enter hadv => exact ⟨_, hadv⟩

/-- Where a walk arrives depends on nothing but the transition of its first state. -/
theorem Arrives.congr {n : Nat} {s s' : State D κ R} {choices : List Nat} {value : Value D R}
    {path : Path D R} (h : S.Arrives n s choices value path)
    (hsame : ∀ t, S.Advances s t → S.Advances s' t) : S.Arrives n s' choices value path := by
  obtain ⟨u, hwalk, hfin⟩ := h
  cases hwalk with
  | stay => exact ⟨s', .stay, hsame _ hfin⟩
  | take hadv hget hscore hrest => exact ⟨u, .take (hsame _ hadv) hget hscore hrest, hfin⟩
  | enter hadv hrest => exact ⟨u, .enter (hsame _ hadv) hrest, hfin⟩

/-- The alternatives taken determine where a walk arrives. -/
theorem Arrives.unique {n n' : Nat} {s : State D κ R} {choices : List Nat}
    {value value' : Value D R} {path path' : Path D R} (h : S.Arrives n s choices value path)
    (h' : S.Arrives n' s choices value' path') : value = value' ∧ path = path' := by
  obtain ⟨u, hwalk, hfin⟩ := h
  induction hwalk generalizing n' with
  | stay =>
      obtain ⟨-, -, rfl, rfl⟩ := (arrives_iff_of_finished hfin).mp h'
      exact ⟨rfl, rfl⟩
  | take hadv hget hscore _ ih =>
      obtain ⟨m, i, rest, t, t', -, heq, hget', hscore', hrest⟩ :=
        (arrives_iff_of_choice hadv).mp h'
      cases heq
      rw [hget] at hget'
      cases hget'
      rw [hscore] at hscore'
      cases hscore'
      exact ih hrest hfin
  | enter hadv _ ih =>
      obtain ⟨m, -, hrest⟩ := (arrives_iff_of_collapsed hadv).mp h'
      exact ih hrest hfin

theorem Walks.logProb_of {Q : R → Prop} (hQ : ∀ x y, Q x → Q (x + y)) {n : Nat}
    {s u : State D κ R} {choices : List Nat} (h : S.Walks n s choices u) (hq : Q s.logProb) :
    Q u.logProb := by
  induction h with
  | stay => exact hq
  | take hadv hget hscore _ ih =>
      exact ih (logProb_of_scored hQ hscore
        (logProb_of_ofChoice hQ hget (logProb_of_advances hQ hadv hq)))
  | enter hadv _ ih => exact ih (logProb_of_advances hQ hadv hq)

/-- A walk that ends admissibly has started so. -/
theorem Arrives.admissible_of [LawfulScalar R] {n : Nat} {s : State D κ R} {choices : List Nat}
    {value : Value D R} {path : Path D R} (h : S.Arrives n s choices value path)
    (hpath : Scalar.admissible path.logProb = true) : Scalar.admissible s.logProb = true := by
  by_contra hs
  have hlost : ∀ x y : R, Scalar.admissible x ≠ true → Scalar.admissible (x + y) ≠ true :=
    fun x y hx hxy => hx (LawfulScalar.admissible_of_add x y hxy)
  obtain ⟨u, hwalk, hfin⟩ := h
  exact logProb_of_advances hlost hfin (hwalk.logProb_of hlost hs) hpath

/-! ## Routes and the alternatives along them -/

/-- Two routes from a state that lead to final values are the same if the alternatives
along the one start as those along the other do. -/
theorem Follows.eq_of_takenAlong {s v v' : State D κ R} {route route' : List Decision}
    (h : S.Follows wait s route v) {value value' : Value D R} {path path' : Path D R}
    (hfin : S.Advances v (.finished value path)) (h' : S.Follows wait s route' v')
    (hfin' : S.Advances v' (.finished value' path')) {rest rest' : List Nat}
    (heq : takenAlong route ++ rest = takenAlong route' ++ rest') :
    route = route' ∧ rest = rest' := by
  induction h generalizing route' v' value value' path path' rest rest' with
  | nil =>
      cases h' with
      | nil => exact ⟨rfl, heq⟩
      | take hadv => cases hadv.unique hfin
      | through hadv => cases hadv.unique hfin
  | @take wait s site alternatives tag stack path i t t' route u hadv hget hscore _ ih =>
      cases h' with
      | nil => cases hadv.unique hfin'
      | through hadv' => cases hadv.unique hadv'
      | take hadv' hget' hscore' hrest' =>
          cases hadv.unique hadv'
          obtain ⟨rfl, htail⟩ := List.cons.inj heq
          rw [hget] at hget'
          cases hget'
          rw [hscore] at hscore'
          cases hscore'
          obtain ⟨rfl, hrest⟩ := ih hfin hrest' hfin' htail
          exact ⟨rfl, hrest⟩
  | through hadv hin hend hscore _ ihin ih =>
      cases h' with
      | nil => cases hadv.unique hfin'
      | take hadv' => cases hadv.unique hadv'
      | through hadv' hin' hend' hscore' hrest' =>
          cases hadv.unique hadv'
          -- the inner routes come first, and what follows them is the rest
          simp only [takenAlong, Decision.taken, List.append_assoc] at heq
          obtain ⟨rfl, htail⟩ := ihin hend hin' hend' heq
          cases hin.unique hin'
          cases hend.unique hend'
          rw [hscore] at hscore'
          cases hscore'
          obtain ⟨rfl, hrest⟩ := ih hfin hrest' hfin' htail
          exact ⟨rfl, hrest⟩

/-- Where no collapsed part is met, walks and routes are the same. -/
theorem follows_iff_walks {P : State D κ R → Prop}
    (hplain : ∀ s, P s → ∀ inner stack path, ¬ S.Advances s (.collapsed inner stack path))
    (hoffer : ∀ s t i, P s → S.Offers s (.take i) t → P t) {s u : State D κ R}
    {route : List Decision} (hs : P s) : S.Follows id s route u ↔
      ∃ choices, route = choices.map .take ∧ S.Walks choices.length s choices u := by
  induction route generalizing s with
  | nil =>
      constructor
      · intro h
        cases h
        exact ⟨[], rfl, .stay⟩
      · rintro ⟨choices, hroute, hwalk⟩
        obtain rfl := List.map_eq_nil_iff.mp hroute.symm
        cases hwalk
        exact .nil
  | cons d route ih =>
      rw [follows_cons_iff]
      constructor
      · rintro ⟨t, hd, hrest⟩
        cases d with
        | take i =>
            obtain ⟨choices, rfl, hwalk⟩ := (ih (hoffer s t i hs hd)).mp hrest
            obtain ⟨t₀, ⟨site, alternatives, tag, stack, path, hadv, hget⟩, hscore⟩ := hd
            exact ⟨i :: choices, rfl, .take hadv hget hscore hwalk⟩
        | through inside =>
            obtain ⟨t₀, ⟨inner, stack, path, _, hadv, -⟩, -⟩ := hd
            exact absurd hadv (hplain s hs inner stack path)
      · rintro ⟨choices, hroute, hwalk⟩
        cases choices with
        | nil => cases hroute
        | cons i choices =>
            cases hroute
            cases hwalk with
            | take hadv hget hscore hrest =>
                have hd : S.Offers s (.take i) _ := ⟨_, ⟨_, _, _, _, _, hadv, hget⟩, hscore⟩
                exact ⟨_, hd, (ih (hoffer _ _ i hs hd)).mpr ⟨choices, rfl, hrest⟩⟩
            | enter hadv => exact absurd hadv (hplain s hs _ _ _)

theorem Walks.length_eq {P : State D κ R → Prop}
    (hplain : ∀ s, P s → ∀ inner stack path, ¬ S.Advances s (.collapsed inner stack path))
    (hoffer : ∀ s t i, P s → S.Offers s (.take i) t → P t) {n : Nat} {s u : State D κ R}
    {choices : List Nat} (h : S.Walks n s choices u) (hs : P s) : n = choices.length := by
  induction h with
  | stay => rfl
  | @take n s site alternatives tag stack path i t t' choices u hadv hget hscore _ ih =>
      have ht : P t' :=
        hoffer s t' i hs ⟨t, ⟨site, alternatives, tag, stack, path, hadv, hget⟩, hscore⟩
      rw [ih ht, List.length_cons]
  | enter hadv => exact absurd hadv (hplain _ hs _ _ _)

end Setting

end ChoiceSearch
