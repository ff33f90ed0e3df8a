import ChoiceSearch.Graph.Descent
import ChoiceSearch.Proofs.Graph.Evaluate
import ChoiceSearch.Proofs.Scalar.Division
import ChoiceSearch.Proofs.Table

/-!
# A step of gradient descent

Differentiating a loss and updating the graph is one step of gradient descent. If the
gradients of the graph are zero before, then the step moves every entry of a parameter
against the gradient of this loss alone, and the gradients are zero again
(`Graph.descends_update`).

What is collected for a parameter depends on the values of the graph only
(`Graph.accumulate_congr`), has the length of the parameter, and holds no negative zero, as
it was added up from zero (`Graph.Gathered`). So adding it to a vector of zeros changes
nothing.
-/

namespace ChoiceSearch

theorem length_addOnto {R : Type} [Add R] (xs ys : List R) :
    (addOnto xs ys).length = xs.length := by
  induction xs generalizing ys with
  | nil => cases ys <;> rfl
  | cons x xs ih =>
      cases ys with
      | nil => rfl
      | cons y ys => rw [addOnto, List.length_cons, ih, List.length_cons]

/-- Adding onto a vector without negative zeros does not make one. -/
theorem isNegZero_addOnto {R : Type} [Scalar R] [LawfulScalar R] {xs : List R} (ys : List R)
    (h : ∀ x ∈ xs, Scalar.isNegZero x = false) :
    ∀ z ∈ addOnto xs ys, Scalar.isNegZero z = false := by
  induction xs generalizing ys with
  | nil => cases ys <;> simp [addOnto]
  | cons x xs ih =>
      obtain ⟨hx, hxs⟩ := List.forall_mem_cons.mp h
      cases ys with
      | nil => exact h
      | cons y ys => exact List.forall_mem_cons.mpr ⟨Scalar.isNegZero_add y hx, ih ys hxs⟩

namespace Graph

variable {R : Type} [Scalar R]

/-! ## Gradients depend on values only -/

/-- The parameters of two graphs have the same values. -/
def SameValues (g g' : Graph R) : Prop :=
  ∀ name, (g.params.get? name).map (·.value) = (g'.params.get? name).map (·.value)

section Congr

variable {g g' : Graph R}

theorem scalars_congr {terms : List (Expr R)}
    (h : ∀ term ∈ terms, g.evaluate term = g'.evaluate term) :
    g.scalars terms = g'.scalars terms := by
  induction terms with
  | nil => rfl
  | cons term terms ih =>
      obtain ⟨hterm, hterms⟩ := List.forall_mem_cons.mp h
      rw [scalars, scalars, hterm, ih hterms]

theorem evaluate_congr (h : g.SameValues g') : ∀ e : Expr R, g.evaluate e = g'.evaluate e
  | .parameter name => by
      have hname := h name
      rw [evaluate, evaluate]
      cases hp : g.params.get? name <;> cases hp' : g'.params.get? name <;> simp_all
  | .constant _ => by rw [evaluate, evaluate]
  | .pick vector _ => by rw [evaluate, evaluate, evaluate_congr h vector]
  | .logSoftmax vector => by rw [evaluate, evaluate, evaluate_congr h vector]
  | .add left right => by
      rw [evaluate, evaluate, evaluate_congr h left, evaluate_congr h right]
  | .neg vector => by rw [evaluate, evaluate, evaluate_congr h vector]
  | .logSumExp terms => by
      rw [evaluate, evaluate, scalars_congr fun term _ => evaluate_congr h term]

/-- Renewing a graph changes no value. -/
theorem evaluate_renew (g : Graph R) (e : Expr R) : g.renew.evaluate e = g.evaluate e := by
  have hsame : g.renew.SameValues g := fun _ => rfl
  exact evaluate_congr hsame e

theorem accumulateTerms_congr {terms : List (Expr R)}
    (h : ∀ term ∈ terms, ∀ us grads, g.accumulate term us grads = g'.accumulate term us grads)
    (ws : List R) (grads : Table (List R)) :
    g.accumulateTerms terms ws grads = g'.accumulateTerms terms ws grads := by
  induction terms generalizing ws grads with
  | nil => cases ws <;> simp [accumulateTerms]
  | cons term terms ih =>
      obtain ⟨hterm, hterms⟩ := List.forall_mem_cons.mp h
      cases ws with
      | nil => simp [accumulateTerms]
      | cons w ws =>
          rw [accumulateTerms, accumulateTerms, hterm]
          exact congrArg _ (funext fun grads => ih hterms ws grads)

/-- What is collected for a loss depends on the values of the parameters only. -/
theorem accumulate_congr (h : g.SameValues g') : ∀ (e : Expr R) (us : List R)
    (grads : Table (List R)), g.accumulate e us grads = g'.accumulate e us grads
  | .parameter _, _, _ => by rw [accumulate, accumulate]
  | .constant _, _, _ => by rw [accumulate, accumulate]
  | .pick vector _, us, grads => by
      rw [accumulate, accumulate, evaluate_congr h vector]
      exact congrArg _ (funext fun values => accumulate_congr h vector _ _)
  | .logSoftmax vector, us, grads => by
      rw [accumulate, accumulate, evaluate_congr h (.logSoftmax vector)]
      exact congrArg _ (funext fun output => accumulate_congr h vector _ _)
  | .add left right, us, grads => by
      rw [accumulate, accumulate, accumulate_congr h left us grads]
      exact congrArg _ (funext fun grads => accumulate_congr h right us grads)
  | .neg vector, us, grads => by
      rw [accumulate, accumulate, accumulate_congr h vector]
  | .logSumExp terms, us, grads => by
      rw [accumulate, accumulate, scalars_congr fun term _ => evaluate_congr h term]
      exact congrArg _ (funext fun values =>
        accumulateTerms_congr (fun term _ => accumulate_congr h term) _ _)

end Congr

/-! ## What is collected -/

/-- A vector for a parameter: it has its length, and no entry of it is negative zero. -/
def IsSum (g : Graph R) (name : String) (xs : List R) : Prop :=
  (∀ p, g.params.get? name = some p → xs.length = p.value.length) ∧
    ∀ x ∈ xs, Scalar.isNegZero x = false

/-- What has been collected was added up from zeros. -/
def Gathered (g : Graph R) (grads : Table (List R)) : Prop :=
  ∀ name xs, grads.get? name = some xs → g.IsSum name xs

section Gathered

variable {g : Graph R} {grads : Table (List R)}

theorem Gathered.contribute [LawfulScalar R] (h : g.Gathered grads) {name : String} {us : List R}
    (hlen : ∀ p, g.params.get? name = some p → us.length = p.value.length) :
    g.Gathered (contribute grads name us) := by
  -- a first contribution is added to zeros
  have hcollected : g.IsSum name
      ((grads.get? name).getD (List.replicate us.length Scalar.zero)) := by
    cases hxs : grads.get? name with
    | none =>
        refine ⟨fun p hp => by simpa using hlen p hp, fun x hx => ?_⟩
        rw [List.eq_of_mem_replicate hx]
        exact Scalar.isNegZero_zero
    | some xs => exact h name xs hxs
  intro other xs hxs
  rw [Graph.contribute, Table.get?_insert] at hxs
  by_cases hother : other = name
  · rw [if_pos hother] at hxs
    cases hxs
    subst hother
    refine ⟨fun p hp => ?_, isNegZero_addOnto us hcollected.2⟩
    rw [length_addOnto]
    exact hcollected.1 p hp
  · rw [if_neg hother] at hxs
    exact h other xs hxs

/-- An expression that receives an adjoint of its length keeps what is collected in order. -/
def Gathers (g : Graph R) (e : Expr R) : Prop :=
  ∀ values us grads grads', g.evaluate e = .ok values → us.length = values.length →
    g.Gathered grads → g.accumulate e us grads = .ok grads' → g.Gathered grads'

theorem gathers_parameter [LawfulScalar R] (g : Graph R) (name : String) :
    g.Gathers (.parameter name) := by
  intro values us grads grads' hvalue hlen h hrun
  rw [accumulate] at hrun
  cases hrun
  refine h.contribute fun p hp => ?_
  rw [evaluate_parameter hp] at hvalue
  cases hvalue
  exact hlen

theorem gathers_constant (g : Graph R) (values : List R) : g.Gathers (.constant values) := by
  intro _ us grads grads' _ _ h hrun
  rw [accumulate] at hrun
  cases hrun
  exact h

theorem gathers_pick {vector : Expr R} (ih : g.Gathers vector) (index : Nat) :
    g.Gathers (.pick vector index) := by
  intro values us grads grads' _ _ h hrun
  rw [accumulate] at hrun
  obtain ⟨xs, hvector, hrun⟩ := exists_of_bind_eq_ok hrun
  exact ih xs _ grads grads' hvector (by simp [pickAdjoint]) h hrun

theorem gathers_logSoftmax {vector : Expr R} (ih : g.Gathers vector) :
    g.Gathers (.logSoftmax vector) := by
  intro values us grads grads' hvalue hlen h hrun
  rw [accumulate, hvalue] at hrun
  obtain ⟨xs, hvector, rfl⟩ := exists_of_evaluate_logSoftmax hvalue
  refine ih xs _ grads grads' hvector ?_ h hrun
  simp [logSoftmaxAdjoint, Scalar.logSoftmax, hlen]

theorem gathers_add {left right : Expr R} (ihleft : g.Gathers left) (ihright : g.Gathers right) :
    g.Gathers (.add left right) := by
  intro values us grads grads' hvalue hlen h hrun
  obtain ⟨xs, ys, hleft, hright, hsame, rfl⟩ := exists_of_evaluate_add hvalue
  rw [List.length_zipWith, hsame, Nat.min_self] at hlen
  rw [accumulate] at hrun
  obtain ⟨grads₁, hfirst, hrun⟩ := exists_of_bind_eq_ok hrun
  have h₁ := ihleft xs us grads grads₁ hleft (hlen.trans hsame.symm) h hfirst
  exact ihright ys us grads₁ grads' hright hlen h₁ hrun

theorem gathers_neg {vector : Expr R} (ih : g.Gathers vector) : g.Gathers (.neg vector) := by
  intro values us grads grads' hvalue hlen h hrun
  rw [accumulate] at hrun
  obtain ⟨xs, hvector, rfl⟩ := exists_of_evaluate_neg hvalue
  exact ih xs _ grads grads' hvector (by simpa using hlen) h hrun

/-- Terms that are scalars receive an entry each. -/
theorem Gathered.accumulateTerms {terms : List (Expr R)} {xs ws : List R}
    {grads grads' : Table (List R)} (hvalues : g.scalars terms = .ok xs)
    (ih : ∀ term ∈ terms, g.Gathers term) (h : g.Gathered grads)
    (hrun : g.accumulateTerms terms ws grads = .ok grads') : g.Gathered grads' := by
  have hall := scalars_eq_ok_iff.mp hvalues
  clear hvalues
  induction hall generalizing ws grads with
  | nil =>
      rw [Graph.accumulateTerms] at hrun
      · cases hrun
        exact h
      · intro _ _ _ _ heq
        cases heq
  | @cons term x terms xs hterm _ ihterms =>
      cases ws with
      | nil =>
          rw [Graph.accumulateTerms] at hrun
          · cases hrun
            exact h
          · intro _ _ _ _ _ heq
            cases heq
      | cons w ws =>
          obtain ⟨hfirst, hrest⟩ := List.forall_mem_cons.mp ih
          rw [Graph.accumulateTerms] at hrun
          obtain ⟨grads₁, hterm', hrun⟩ := exists_of_bind_eq_ok hrun
          exact ihterms hrest (hfirst [x] [w] grads grads₁ hterm rfl h hterm') hrun

theorem gathers_logSumExp {terms : List (Expr R)} (ih : ∀ term ∈ terms, g.Gathers term) :
    g.Gathers (.logSumExp terms) := by
  intro values us grads grads' _ _ h hrun
  rw [accumulate] at hrun
  obtain ⟨xs, hterms, hrun⟩ := exists_of_bind_eq_ok hrun
  exact h.accumulateTerms hterms ih hrun

theorem gathers [LawfulScalar R] (g : Graph R) : ∀ e : Expr R, g.Gathers e
  | .parameter name => gathers_parameter g name
  | .constant values => gathers_constant g values
  | .pick vector index => gathers_pick (gathers g vector) index
  | .logSoftmax vector => gathers_logSoftmax (gathers g vector)
  | .add left right => gathers_add (gathers g left) (gathers g right)
  | .neg vector => gathers_neg (gathers g vector)
  | .logSumExp _ => gathers_logSumExp fun term _ => gathers g term

end Gathered

/-! ## From zero gradients to zero gradients -/

/-- The gradients of all parameters are zero. -/
def Cleared (g : Graph R) : Prop :=
  ∀ name p, g.params.get? name = some p → p.grad = List.replicate p.value.length Scalar.zero

/-- What has been collected for a parameter; zeros if nothing has. -/
def gradientOf (collected : Table (List R)) (name : String) (p : Parameter R) : List R :=
  (collected.get? name).getD (List.replicate p.value.length Scalar.zero)

/-- One graph is another one after a step of descent at the given rate. The gradient is that
of the loss alone: any graph with the same values collects it. -/
def Descends (g : Graph R) (rate : R) (loss : Expr R) (g' : Graph R) : Prop :=
  ∃ collected,
    (∀ other : Graph R, other.SameValues g →
      other.accumulate loss [Scalar.one] .empty = .ok collected) ∧
    (∀ name p, g.params.get? name = some p →
      (gradientOf collected name p).length = p.value.length) ∧
    ∀ name, g'.params.get? name = (g.params.get? name).map fun p =>
      .ofValue (List.zipWith (fun v d => v - rate * d) p.value (gradientOf collected name p))

theorem Descends.cleared {g g' : Graph R} {rate : R} {loss : Expr R}
    (h : g.Descends rate loss g') : g'.Cleared := by
  obtain ⟨collected, -, -, hparams⟩ := h
  intro name p hp
  rw [hparams] at hp
  obtain ⟨q, -, rfl⟩ := Option.map_eq_some_iff.mp hp
  rfl

/-- Adding onto zeros what holds no negative zero. -/
theorem addOnto_replicate_zero [DescentScalar R] {xs : List R}
    (h : ∀ x ∈ xs, Scalar.isNegZero x = false) :
    addOnto (List.replicate xs.length Scalar.zero) xs = xs := by
  induction xs with
  | nil => rfl
  | cons x xs ih =>
      obtain ⟨hx, hxs⟩ := List.forall_mem_cons.mp h
      rw [List.length_cons, List.replicate_succ, addOnto, ih hxs, DescentScalar.zero_add_of x hx]

theorem Gathered.length_gradientOf {g : Graph R} {collected : Table (List R)}
    (h : g.Gathered collected) {name : String} {p : Parameter R}
    (hp : g.params.get? name = some p) :
    (gradientOf collected name p).length = p.value.length := by
  unfold gradientOf
  cases hxs : collected.get? name with
  | none => simp
  | some xs => exact (h name xs hxs).1 p hp

/-- Where the gradients are zero, adding what was collected makes it the gradients. -/
theorem Gathered.addGradients [DescentScalar R] {g : Graph R} {collected : Table (List R)}
    (h : g.Gathered collected) (hzero : g.Cleared) (name : String) :
    (g.addGradients collected).params.get? name =
      (g.params.get? name).map fun p => { p with grad := gradientOf collected name p } := by
  rw [Graph.addGradients, Table.get?_map]
  refine Option.map_congr fun p hp => ?_
  unfold gradientOf
  cases hxs : collected.get? name with
  | none => rw [Option.getD_none, ← hzero name p hp]
  | some xs =>
      obtain ⟨hlen, hsum⟩ := h name xs hxs
      simp only [Option.getD_some]
      rw [hzero name p hp, ← hlen p hp, addOnto_replicate_zero hsum]

end Graph

/-- Moving the entries of a vector against a gradient of its length. -/
theorem Descent.descend_eq_zipWith {R : Type} [Scalar R] (rate : R) {vs ds : List R}
    (h : ds.length = vs.length) :
    Descent.descend rate vs ds = List.zipWith (fun v d => v - rate * d) vs ds := by
  induction vs generalizing ds with
  | nil => cases ds <;> rfl
  | cons v vs ih =>
      cases ds with
      | nil => cases h
      | cons d ds => rw [Descent.descend, List.zipWith_cons_cons, ih (Nat.succ.inj h)]

theorem Descent.cleared_eq_replicate {R : Type} [Scalar R] {vs ds : List R}
    (h : ds.length = vs.length) :
    Descent.cleared vs ds = List.replicate vs.length Scalar.zero := by
  induction vs generalizing ds with
  | nil => exact List.eq_nil_of_length_eq_zero h
  | cons v vs ih =>
      cases ds with
      | nil => cases h
      | cons d ds =>
          rw [Descent.cleared, ih (Nat.succ.inj h), List.length_cons, List.replicate_succ]

namespace Graph

variable {R : Type} [Scalar R] [LawfulScalar R] [DescentScalar R]

/-- **A step of gradient descent**: from zero gradients, differentiating a loss with a scalar
value and updating the graph goes one step against the gradient of this loss alone. -/
theorem descends_update {g : Graph R} (hzero : g.Cleared) {loss : Expr R} {x : R}
    (hvalue : g.evaluate loss = .ok [x]) (d : Descent R) :
    ∃ g', g.backward loss = .ok g' ∧ g.Descends d.rate loss (d.update g') := by
  obtain ⟨collected, hrun⟩ := exists_accumulate_of_evaluate loss hvalue [Scalar.one] .empty
  have hgathered : g.Gathered collected :=
    g.gathers loss [x] [Scalar.one] .empty collected hvalue rfl (fun _ _ h => by cases h) hrun
  refine ⟨g.addGradients collected, ?_, collected, fun other hother => ?_, fun name p hp => ?_,
    fun name => ?_⟩
  · rw [backward, hvalue]
    simp only [bind, Except.bind, List.length_singleton, BEq.rfl, if_true, hrun]
    rfl
  · rw [accumulate_congr hother, hrun]
  · exact hgathered.length_gradientOf hp
  · rw [Descent.update, Table.get?_map, hgathered.addGradients hzero, Option.map_map]
    refine Option.map_congr fun p hp => ?_
    have hlen := hgathered.length_gradientOf hp
    simp only [Function.comp_apply, Descent.descend_eq_zipWith _ hlen,
      Descent.cleared_eq_replicate hlen]
    simp [Parameter.ofValue, hlen]

end Graph

end ChoiceSearch
