import ChoiceSearch.Graph.Gradient
import ChoiceSearch.Proofs.Listing

/-!
# Values of expressions

The value of an expression from the values of its parts, one equation per constructor, and
the parts of an expression that has a value. What is computed from an expression graph is
reasoned about through these.

An expression that has a value passes every adjoint on to its parts, since they have
values too. So a loss with a scalar value can be differentiated
(`Graph.exists_backward_of_evaluate`).
-/

namespace ChoiceSearch

/-- A vector is added onto another one of its length entry by entry. -/
theorem addOnto_eq_zipWith {R : Type} [Add R] {xs ys : List R} (h : xs.length = ys.length) :
    addOnto xs ys = List.zipWith (· + ·) xs ys := by
  induction xs generalizing ys with
  | nil => cases ys <;> rfl
  | cons x xs ih =>
      cases ys with
      | nil => cases h
      | cons y ys => rw [addOnto, List.zipWith_cons_cons, ih (Nat.succ.inj h)]

namespace Graph

variable {R : Type} [Scalar R] {g : Graph R}

@[simp] theorem view_parameter (g : Graph R) (name : String) :
    g.view.parameter name = g.parameter name := rfl

@[simp] theorem view_evaluate (g : Graph R) (e : Expr R) : g.view.evaluate e = g.evaluate e := rfl

@[simp] theorem view_locallyNormalized (g : Graph R) :
    g.view.locallyNormalized = g.locallyNormalized := rfl

attribute [local simp] evaluate scalars accumulate accumulateTerms

theorem evaluate_parameter {name : String} {p : Parameter R} (h : g.params.get? name = some p) :
    g.evaluate (.parameter name) = .ok p.value := by
  simp [h]

theorem evaluate_pick {vector : Expr R} {index : ℕ} {values : List R} {x : R}
    (h : g.evaluate vector = .ok values) (hx : values[index]? = some x) :
    g.evaluate (.pick vector index) = .ok [x] := by
  simp [h, hx, bind, Except.bind]

theorem evaluate_logSoftmax {vector : Expr R} {values : List R}
    (h : g.evaluate vector = .ok values) :
    g.evaluate (.logSoftmax vector) = .ok (Scalar.logSoftmax values) := by
  rw [evaluate, h]
  rfl

theorem evaluate_add_scalars {left right : Expr R} {x y : R}
    (hleft : g.evaluate left = .ok [x]) (hright : g.evaluate right = .ok [y]) :
    g.evaluate (.add left right) = .ok [x + y] := by
  simp [hleft, hright, bind, Except.bind]

theorem evaluate_neg {vector : Expr R} {values : List R}
    (h : g.evaluate vector = .ok values) :
    g.evaluate (.neg vector) = .ok (values.map (-·)) := by
  rw [evaluate, h]
  rfl

/-- Expressions have a list of scalars as their values when each has one of them. -/
theorem scalars_eq_ok_iff {terms : List (Expr R)} {xs : List R} :
    g.scalars terms = .ok xs ↔
      List.Forall₂ (fun term x => g.evaluate term = .ok [x]) terms xs := by
  induction terms generalizing xs with
  | nil =>
      rw [List.forall₂_nil_left_iff]
      exact ⟨fun h => (Except.ok.inj h).symm, fun h => h ▸ rfl⟩
  | cons term terms ih =>
      rw [List.forall₂_cons_left_iff, scalars]
      constructor
      · intro h
        simp only [bind, Except.bind] at h
        split at h
        · cases h
        · rename_i values hterm
          split at h
          · cases hrest : g.scalars terms with
            | error e => simp [hrest] at h
            | ok rest =>
                rw [hrest] at h
                exact ⟨_, rest, hterm, ih.mp hrest, (Except.ok.inj h).symm⟩
          · cases h
      · rintro ⟨x, rest, hterm, hrest, rfl⟩
        rw [hterm, ih.mpr hrest]
        rfl

theorem evaluate_logSumExp {terms : List (Expr R)} {xs : List R} (h : g.scalars terms = .ok xs) :
    g.evaluate (.logSumExp terms) = .ok [Scalar.logSumExp xs] := by
  rw [evaluate, h]
  rfl

/-! ## Parts of expressions with values -/

section Parts

variable {vector left right : Expr R} {values : List R}

theorem exists_of_evaluate_pick {index : ℕ}
    (h : g.evaluate (.pick vector index) = .ok values) : ∃ xs, g.evaluate vector = .ok xs := by
  rw [evaluate] at h
  obtain ⟨xs, hvector, -⟩ := exists_of_bind_eq_ok h
  exact ⟨xs, hvector⟩

theorem exists_of_evaluate_logSoftmax (h : g.evaluate (.logSoftmax vector) = .ok values) :
    ∃ xs, g.evaluate vector = .ok xs ∧ values = Scalar.logSoftmax xs := by
  rw [evaluate] at h
  obtain ⟨xs, hvector, hvalues⟩ := exists_of_bind_eq_ok h
  exact ⟨xs, hvector, (Except.ok.inj hvalues).symm⟩

theorem exists_of_evaluate_add (h : g.evaluate (.add left right) = .ok values) :
    ∃ xs ys, g.evaluate left = .ok xs ∧ g.evaluate right = .ok ys ∧ xs.length = ys.length ∧
      values = List.zipWith (· + ·) xs ys := by
  rw [evaluate] at h
  obtain ⟨xs, hleft, hrest⟩ := exists_of_bind_eq_ok h
  obtain ⟨ys, hright, hvalues⟩ := exists_of_bind_eq_ok hrest
  split at hvalues
  · rename_i hlength
    exact ⟨xs, ys, hleft, hright, beq_iff_eq.mp hlength, (Except.ok.inj hvalues).symm⟩
  · cases hvalues

theorem exists_of_evaluate_neg (h : g.evaluate (.neg vector) = .ok values) :
    ∃ xs, g.evaluate vector = .ok xs ∧ values = xs.map (-·) := by
  rw [evaluate] at h
  obtain ⟨xs, hvector, hvalues⟩ := exists_of_bind_eq_ok h
  exact ⟨xs, hvector, (Except.ok.inj hvalues).symm⟩

theorem exists_of_evaluate_logSumExp {terms : List (Expr R)}
    (h : g.evaluate (.logSumExp terms) = .ok values) : ∃ xs, g.scalars terms = .ok xs := by
  rw [evaluate] at h
  obtain ⟨xs, hterms, -⟩ := exists_of_bind_eq_ok h
  exact ⟨xs, hterms⟩

end Parts

/-! ## Expressions with values have gradients -/

/-- Terms that pass every adjoint on do so one after the other. -/
theorem exists_accumulateTerms_of_forall {terms : List (Expr R)}
    (h : ∀ term ∈ terms, ∀ us grads, ∃ grads', g.accumulate term us grads = .ok grads')
    (ws : List R) (grads : Table (List R)) :
    ∃ grads', g.accumulateTerms terms ws grads = .ok grads' := by
  induction terms generalizing ws grads with
  | nil => exact ⟨grads, by rw [accumulateTerms]; exact fun _ _ _ _ h => by cases h⟩
  | cons term terms ih =>
      cases ws with
      | nil => exact ⟨grads, by rw [accumulateTerms]; exact fun _ _ _ _ _ h => by cases h⟩
      | cons w ws =>
          obtain ⟨grads₁, hterm⟩ := h term List.mem_cons_self [w] grads
          obtain ⟨grads₂, hterms⟩ := ih (fun t ht => h t (List.mem_cons_of_mem _ ht)) ws grads₁
          refine ⟨grads₂, ?_⟩
          rw [accumulateTerms, hterm]
          exact hterms

/-- An expression with a value passes every adjoint on. -/
theorem exists_accumulate_of_evaluate : ∀ (e : Expr R) {values : List R},
    g.evaluate e = .ok values → ∀ us grads, ∃ grads', g.accumulate e us grads = .ok grads'
  | .parameter _, _, _, _, _ => ⟨_, rfl⟩
  | .constant _, _, _, _, grads => ⟨grads, rfl⟩
  | .pick vector index, _, h, us, grads => by
      obtain ⟨xs, hvector⟩ := exists_of_evaluate_pick h
      rw [accumulate, hvector]
      exact exists_accumulate_of_evaluate vector hvector _ grads
  | .logSoftmax vector, _, h, us, grads => by
      obtain ⟨xs, hvector, -⟩ := exists_of_evaluate_logSoftmax h
      rw [accumulate, h]
      exact exists_accumulate_of_evaluate vector hvector _ grads
  | .add left right, _, h, us, grads => by
      obtain ⟨xs, ys, hleft, hright, -⟩ := exists_of_evaluate_add h
      obtain ⟨grads₁, hrun⟩ := exists_accumulate_of_evaluate left hleft us grads
      rw [accumulate, hrun]
      exact exists_accumulate_of_evaluate right hright us grads₁
  | .neg vector, _, h, us, grads => by
      obtain ⟨xs, hvector, -⟩ := exists_of_evaluate_neg h
      rw [accumulate]
      exact exists_accumulate_of_evaluate vector hvector _ grads
  | .logSumExp terms, _, h, us, grads => by
      obtain ⟨xs, hterms⟩ := exists_of_evaluate_logSumExp h
      have hall := scalars_eq_ok_iff.mp hterms
      rw [accumulate, hterms]
      refine exists_accumulateTerms_of_forall (fun term hterm us grads => ?_) _ grads
      obtain ⟨x, -, hx⟩ := exists_right_of_forall₂ hall term hterm
      exact exists_accumulate_of_evaluate term hx us grads

/-- A loss whose value is a scalar can be differentiated. -/
theorem exists_backward_of_evaluate {loss : Expr R} {x : R} (h : g.evaluate loss = .ok [x]) :
    ∃ g', g.backward loss = .ok g' := by
  obtain ⟨grads, hrun⟩ := exists_accumulate_of_evaluate loss h [Scalar.one] .empty
  refine ⟨g.addGradients grads, ?_⟩
  rw [backward, h]
  simp only [bind, Except.bind, List.length_singleton, BEq.rfl, if_true, hrun]
  rfl

end Graph

end ChoiceSearch
