import ChoiceSearch.Proofs.Search.Route
import ChoiceSearch.Search.Step

/-!
# Fuel

Fuel is a bound and nothing else: once a step of a search has come to an end, more fuel
leads to the same end (`Setting.step_mono`). Routes do not know of it at all
(`Setting.survives_withFuel`).
-/

namespace ChoiceSearch

variable {D κ R : Type}

/-- The second run ends as the first one does, unless that one was cut off. -/
def Outlasts {α : Type} (x y : Result R α) : Prop := x ≠ .error .outOfFuel → y = x

theorem Outlasts.bind {α β : Type} {x y : Result R α} {f g : α → Result R β}
    (h : Outlasts x y) (hfg : ∀ a, Outlasts (f a) (g a)) : Outlasts (x >>= f) (y >>= g) := by
  intro hne
  cases x with
  | error halt =>
      have hx : (.error halt : Result R α) ≠ .error .outOfFuel := by
        intro heq
        cases heq
        exact hne rfl
      rw [h hx]
      rfl
  | ok a =>
      rw [h (by simp)]
      exact hfg a hne

namespace Setting

/-- The same search with another bound on its loops. -/
def withFuel (S : Setting D κ R) (fuel : Nat) : Setting D κ R := { S with fuel }

variable [Scalar R] {S : Setting D κ R} {fuel fuel' : Nat}

/-- A step with more fuel, if more fuel does not change what collapsed parts end in. -/
theorem stepWith_mono (hle : fuel ≤ fuel')
    {resolve resolve' : Program D κ R → Path D R → Result R (List (State D κ R))}
    (hresolve : ∀ inner path, Outlasts (resolve inner path) (resolve' inner path))
    (s : State D κ R) :
    Outlasts ((S.withFuel fuel).stepWith resolve s) ((S.withFuel fuel').stepWith resolve' s) := by
  unfold stepWith
  refine Outlasts.bind (fun hne => advance_mono rfl hne hle) ?_
  intro t
  cases t with
  | finished value path => exact fun _ => rfl
  | choice site alternatives tag stack path => exact fun _ => rfl
  | collapsed inner stack path => exact (hresolve inner path).bind fun _ _ => rfl

/-- Resolving the stack of a collapsed part with more fuel. -/
theorem resolveAll_mono (hle : fuel ≤ fuel') {n n' : Nat} (hn : n ≤ n')
    (pending : Unbounded R (State D κ R)) (results : List (State D κ R)) :
    Outlasts ((S.withFuel fuel).resolveAll n pending results)
      ((S.withFuel fuel').resolveAll n' pending results) := by
  induction n generalizing n' pending results with
  | zero => exact fun hne => absurd rfl hne
  | succ n ih =>
      obtain ⟨m, rfl⟩ : ∃ m, n' = m + 1 := ⟨n' - 1, by omega⟩
      have hnm : n ≤ m := by omega
      unfold resolveAll
      cases hpop : pending.pop? with
      | none => exact fun _ => rfl
      | some popped =>
          obtain ⟨⟨_, s⟩, rest⟩ := popped
          have hstep := stepWith_mono (S := S) hle (fun inner path =>
            ih hnm (hold .empty (.root inner [] path)) []) s.resumed
          dsimp only
          revert hstep
          generalize (S.withFuel fuel).stepWith _ _ = x
          generalize (S.withFuel fuel').stepWith _ _ = y
          intro hstep hne
          cases x with
          | error halt =>
              rw [hstep fun heq => hne (by cases heq; rfl)]
          | ok o =>
              rw [hstep (by simp)]
              cases o with
              | finished u => exact ih hnm _ _ hne
              | pending states => exact ih hnm _ _ hne

/-- **A step that has come to an end ends in the same way with more fuel.** -/
theorem step_mono (hle : fuel ≤ fuel') (s : State D κ R) :
    Outlasts ((S.withFuel fuel).step s) ((S.withFuel fuel').step s) :=
  stepWith_mono hle (fun _ _ => resolveAll_mono hle hle _ _) s

/-! ## Routes -/

variable {program : Program D κ R} {env : Env D R}

theorem Follows.withFuel {wait : State D κ R → State D κ R}
    {s u : State D κ R} {route : List Decision} (h : S.Follows wait s route u) :
    (S.withFuel fuel).Follows wait s route u := by
  induction h with
  | nil => exact .nil
  | take hadv hget hscore _ ih => exact .take hadv hget hscore ih
  | through hadv _ hfin hscore _ ihin ih => exact .through hadv ihin hfin hscore ih

theorem reaches_withFuel {route : List Decision} {s : State D κ R} :
    (S.withFuel fuel).Reaches program env route s ↔ S.Reaches program env route s := by
  constructor
  · rintro ⟨root, hroot, hs⟩
    have hback : S.Follows id root route s := hs.withFuel
    exact ⟨root, hroot, hback⟩
  · rintro ⟨root, hroot, hs⟩
    exact ⟨root, hroot, hs.withFuel⟩

theorem survives_withFuel {route : List Decision}
    {e : Execution (Value D R) D R} :
    (S.withFuel fuel).Survives program env route e ↔ S.Survives program env route e := by
  constructor
  · rintro ⟨u, value, ⟨s, hs, hfin⟩, hend⟩
    exact ⟨u, value, ⟨s, reaches_withFuel.mp hs, hfin⟩, hend⟩
  · rintro ⟨u, value, ⟨s, hs, hfin⟩, hend⟩
    exact ⟨u, value, ⟨s, reaches_withFuel.mpr hs, hfin⟩, hend⟩

end Setting

end ChoiceSearch
