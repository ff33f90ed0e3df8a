import ChoiceSearch.Graph.Descent
import ChoiceSearch.Proofs.Graph.Evaluate
import ChoiceSearch.Proofs.Graph.Step
import ChoiceSearch.Proofs.Graph.Tangent
import ChoiceSearch.Proofs.Listing
import ChoiceSearch.Proofs.Table

/-!
# Shapes of gradients

Reverse differentiation reads the first entry of an adjoint, replaces an entry of a vector
of zeros and combines vectors entry by entry, and it asks nowhere whether the entry is
there and the vectors fit. `Graph.collect` does the same and asks everywhere. It succeeds
on every expression that has a value (`Graph.exists_collect`) with what `Graph.accumulate`
collects (`Graph.accumulate_of_collect`), so nothing is ever read beyond an end or cut off.

Where a gradient has the length of its value, it keeps it, since only gradients of
parameters in the loss change, each by a vector of its own length. A loss that cannot be
differentiated leaves the graph as it was, also when the graph is changed in place
(`Graph.runs_differentiate`).
-/

namespace ChoiceSearch

/-- Combines two vectors of the same length. -/
def zipExactly {α β γ : Type} (f : α → β → γ) (xs : List α) (ys : List β) : Option (List γ) :=
  if xs.length = ys.length then some (List.zipWith f xs ys) else none

/-- Replaces an entry that is there. -/
def setExactly {α : Type} (xs : List α) (index : Nat) (x : α) : Option (List α) :=
  if index < xs.length then some (xs.set index x) else none

theorem zipExactly_eq_some_iff {α β γ : Type} {f : α → β → γ} {xs : List α} {ys : List β}
    {zs : List γ} :
    zipExactly f xs ys = some zs ↔ xs.length = ys.length ∧ zs = List.zipWith f xs ys := by
  unfold zipExactly
  split
  · rename_i h
    rw [Option.some.injEq, eq_comm]
    exact ⟨fun heq => ⟨h, heq⟩, fun heq => heq.2⟩
  · rename_i h
    constructor
    · intro heq
      cases heq
    · intro heq
      exact absurd heq.1 h

theorem setExactly_eq_some_iff {α : Type} {xs ys : List α} {index : Nat} {x : α} :
    setExactly xs index x = some ys ↔ index < xs.length ∧ ys = xs.set index x := by
  unfold setExactly
  split
  · rename_i h
    rw [Option.some.injEq, eq_comm]
    exact ⟨fun heq => ⟨h, heq⟩, fun heq => heq.2⟩
  · rename_i h
    constructor
    · intro heq
      cases heq
    · intro heq
      exact absurd heq.1 h

namespace Graph

variable {R : Type} [Scalar R]

/-! ### Collecting with checks -/

/-- Adds a contribution to a gradient of the same length. -/
def contributeExactly (grads : Table (List R)) (name : String) (adjoint : List R) :
    Option (Table (List R)) := do
  let collected := (grads.get? name).getD (List.replicate adjoint.length Scalar.zero)
  let total ← zipExactly (· + ·) collected adjoint
  return grads.insert name total

/-- Checks that an adjoint has exactly the length of the value of its expression. -/
def checkShape (g : Graph R) (e : Expr R) (adjoint : List R) : Option Unit :=
  match g.evaluate e with
  | .ok values => if adjoint.length = values.length then some () else none
  | .error _ => none

mutual

/-- Collects the gradient contributions of an expression, checking at every part of it that
the adjoint fits, that each entry is there, and that vectors combined have one length. -/
def collect (g : Graph R) : Expr R → List R → Table (List R) → Option (Table (List R))
  | .parameter name, adjoint, grads => do
    g.checkShape (.parameter name) adjoint
    contributeExactly grads name adjoint
  | .constant values, adjoint, grads => do
    g.checkShape (.constant values) adjoint
    return grads
  | .pick vector index, adjoint, grads => do
    g.checkShape (.pick vector index) adjoint
    let values ← (g.evaluate vector).toOption
    let first ← adjoint.head?
    let adjoint ← setExactly (List.replicate values.length Scalar.zero) index first
    collect g vector adjoint grads
  | .logSoftmax vector, adjoint, grads => do
    g.checkShape (.logSoftmax vector) adjoint
    let output ← (g.evaluate (.logSoftmax vector)).toOption
    let total := Scalar.sum adjoint
    let adjoint ← zipExactly (fun out d => d - Scalar.exp out * total) output adjoint
    collect g vector adjoint grads
  | .add left right, adjoint, grads => do
    g.checkShape (.add left right) adjoint
    let grads ← collect g left adjoint grads
    collect g right adjoint grads
  | .neg vector, adjoint, grads => do
    g.checkShape (.neg vector) adjoint
    collect g vector (adjoint.map (-·)) grads
  | .logSumExp terms, adjoint, grads => do
    g.checkShape (.logSumExp terms) adjoint
    let values ← (g.scalars terms).toOption
    let first ← adjoint.head?
    let result := Scalar.logSumExp values
    collectTerms g terms (values.map fun value => first * logSumExpWeight result value) grads

/-- Collects the contributions of the terms of a log-sum-exp, of which there are as many as
weights. -/
def collectTerms (g : Graph R) :
    List (Expr R) → List R → Table (List R) → Option (Table (List R))
  | [], [], grads => some grads
  | term :: terms, weight :: weights, grads => do
    let grads ← collect g term [weight] grads
    collectTerms g terms weights grads
  | _, _, _ => none

end

theorem checkShape_eq_some_iff {g : Graph R} {e : Expr R} {us : List R} :
    g.checkShape e us = some () ↔ ∃ values, g.evaluate e = .ok values ∧ us.length = values.length := by
  unfold checkShape
  cases h : g.evaluate e with
  | error e => simp
  | ok values => simp

theorem contribute_of_contributeExactly {grads grads' : Table (List R)} {name : String}
    {us : List R} (h : contributeExactly grads name us = some grads') :
    contribute grads name us = grads' := by
  unfold contributeExactly at h
  obtain ⟨total, htotal, hinsert⟩ := Option.bind_eq_some_iff.mp h
  obtain ⟨hlen, rfl⟩ := zipExactly_eq_some_iff.mp htotal
  rw [← Option.some.inj hinsert, contribute, addOnto_eq_zipWith hlen]

/-! ### What succeeds with checks is what is collected -/

section Soundness

variable {g : Graph R}

theorem accumulateTerms_of_collectTerms {terms : List (Expr R)}
    (ih : ∀ term ∈ terms, ∀ us grads grads', g.collect term us grads = some grads' →
      g.accumulate term us grads = .ok grads')
    {ws : List R} {grads grads' : Table (List R)}
    (h : g.collectTerms terms ws grads = some grads') :
    g.accumulateTerms terms ws grads = .ok grads' := by
  induction terms generalizing ws grads with
  | nil =>
      cases ws with
      | nil =>
          rw [collectTerms] at h
          rw [← Option.some.inj h, accumulateTerms]
          intro _ _ _ _ heq
          cases heq
      | cons w ws => simp [collectTerms] at h
  | cons term terms ihterms =>
      cases ws with
      | nil => simp [collectTerms] at h
      | cons w ws =>
          rw [collectTerms] at h
          obtain ⟨grads₁, hterm, hrest⟩ := Option.bind_eq_some_iff.mp h
          obtain ⟨hfirst, hothers⟩ := List.forall_mem_cons.mp ih
          rw [accumulateTerms, hfirst _ _ _ hterm]
          exact ihterms hothers hrest

/-- What the checked collection returns is what is collected without checks. -/
theorem accumulate_of_collect : ∀ (e : Expr R) (us : List R) (grads grads' : Table (List R)),
    g.collect e us grads = some grads' → g.accumulate e us grads = .ok grads'
  | .parameter name, us, grads, grads', h => by
      rw [collect] at h
      obtain ⟨-, -, h⟩ := Option.bind_eq_some_iff.mp h
      rw [accumulate, contribute_of_contributeExactly h]
  | .constant values, us, grads, grads', h => by
      rw [collect] at h
      obtain ⟨-, -, h⟩ := Option.bind_eq_some_iff.mp h
      rw [accumulate, Option.some.inj h]
  | .pick vector index, us, grads, grads', h => by
      rw [collect] at h
      obtain ⟨-, -, h⟩ := Option.bind_eq_some_iff.mp h
      obtain ⟨values, hvalues, h⟩ := Option.bind_eq_some_iff.mp h
      obtain ⟨first, hfirst, h⟩ := Option.bind_eq_some_iff.mp h
      obtain ⟨adjoint, hadjoint, h⟩ := Option.bind_eq_some_iff.mp h
      obtain ⟨-, rfl⟩ := setExactly_eq_some_iff.mp hadjoint
      have hhead : us.headD Scalar.zero = first := by rw [List.headD_eq_head?_getD, hfirst]; rfl
      rw [accumulate, eq_ok_of_toOption hvalues, hhead]
      exact accumulate_of_collect vector _ grads grads' h
  | .logSoftmax vector, us, grads, grads', h => by
      rw [collect] at h
      obtain ⟨-, -, h⟩ := Option.bind_eq_some_iff.mp h
      obtain ⟨output, houtput, h⟩ := Option.bind_eq_some_iff.mp h
      obtain ⟨adjoint, hadjoint, h⟩ := Option.bind_eq_some_iff.mp h
      obtain ⟨-, rfl⟩ := zipExactly_eq_some_iff.mp hadjoint
      rw [accumulate, eq_ok_of_toOption houtput]
      exact accumulate_of_collect vector _ grads grads' h
  | .add left right, us, grads, grads', h => by
      rw [collect] at h
      obtain ⟨-, -, h⟩ := Option.bind_eq_some_iff.mp h
      obtain ⟨grads₁, hleft, h⟩ := Option.bind_eq_some_iff.mp h
      rw [accumulate, accumulate_of_collect left us grads grads₁ hleft]
      exact accumulate_of_collect right us grads₁ grads' h
  | .neg vector, us, grads, grads', h => by
      rw [collect] at h
      obtain ⟨-, -, h⟩ := Option.bind_eq_some_iff.mp h
      rw [accumulate]
      exact accumulate_of_collect vector _ grads grads' h
  | .logSumExp terms, us, grads, grads', h => by
      rw [collect] at h
      obtain ⟨-, -, h⟩ := Option.bind_eq_some_iff.mp h
      obtain ⟨values, hvalues, h⟩ := Option.bind_eq_some_iff.mp h
      obtain ⟨first, hfirst, h⟩ := Option.bind_eq_some_iff.mp h
      have hhead : us.headD Scalar.zero = first := by rw [List.headD_eq_head?_getD, hfirst]; rfl
      rw [accumulate, eq_ok_of_toOption hvalues]
      simp only [bind, Except.bind, hhead]
      exact accumulateTerms_of_collectTerms
        (fun term _ us grads grads' h => accumulate_of_collect term us grads grads' h) h

end Soundness

/-! ### Every expression with a value passes the checks -/

/-- Everything collected so far is for a parameter, and has its length. -/
def Fitting (g : Graph R) (grads : Table (List R)) : Prop :=
  ∀ name xs, grads.get? name = some xs →
    ∃ p, g.params.get? name = some p ∧ xs.length = p.value.length

section Completeness

variable {g : Graph R}

/-- A contribution of the length of its parameter is added without loss. -/
theorem Fitting.exists_contribute {grads : Table (List R)} (h : g.Fitting grads) {name : String}
    {p : Parameter R} (hp : g.params.get? name = some p) {us : List R}
    (hlen : us.length = p.value.length) :
    ∃ grads', contributeExactly grads name us = some grads' ∧ g.Fitting grads' := by
  have hcollected : ((grads.get? name).getD (List.replicate us.length Scalar.zero)).length =
      us.length := by
    cases hxs : grads.get? name with
    | none => exact List.length_replicate
    | some xs =>
        obtain ⟨q, hq, hxslen⟩ := h name xs hxs
        rw [hp] at hq
        cases hq
        exact hxslen.trans hlen.symm
  refine ⟨_, Option.bind_eq_some_iff.mpr ⟨_, zipExactly_eq_some_iff.mpr ⟨hcollected, rfl⟩, rfl⟩, ?_⟩
  intro other xs hxs
  rw [Table.get?_insert] at hxs
  by_cases hother : other = name
  · rw [if_pos hother] at hxs
    refine ⟨p, hother ▸ hp, ?_⟩
    rw [← Option.some.inj hxs, List.length_zipWith, hcollected, Nat.min_self, hlen]
  · rw [if_neg hother] at hxs
    exact h other xs hxs

/-- A vector with one entry has a first one. -/
theorem head?_of_length_eq_one {α : Type} {xs : List α} (h : xs.length = 1) :
    ∃ x, xs.head? = some x := by
  obtain ⟨x, rfl⟩ := List.length_eq_one_iff.mp h
  exact ⟨x, rfl⟩

theorem lt_of_evaluate_pick {vector : Expr R} {index : Nat} {xs values : List R}
    (hvector : g.evaluate vector = .ok xs) (h : g.evaluate (.pick vector index) = .ok values) :
    index < xs.length ∧ values.length = 1 := by
  rw [evaluate, hvector] at h
  simp only [bind, Except.bind] at h
  split at h
  · rename_i x hx
    exact ⟨(List.getElem?_eq_some_iff.mp hx).1, by rw [← Except.ok.inj h]; rfl⟩
  · cases h

theorem exists_collectTerms {terms : List (Expr R)} {xs : List R}
    (hvalues : List.Forall₂ (fun term x => g.evaluate term = .ok [x]) terms xs)
    (ih : ∀ term ∈ terms, ∀ x us grads, g.evaluate term = .ok [x] → us.length = 1 →
      g.Fitting grads → ∃ grads', g.collect term us grads = some grads' ∧ g.Fitting grads')
    (ws : List R) (hlen : ws.length = xs.length) {grads : Table (List R)} (h : g.Fitting grads) :
    ∃ grads', g.collectTerms terms ws grads = some grads' ∧ g.Fitting grads' := by
  induction hvalues generalizing ws grads with
  | nil =>
      rw [List.length_eq_zero_iff.mp hlen]
      exact ⟨grads, by rw [collectTerms], h⟩
  | @cons term x terms xs hterm _ ihterms =>
      cases ws with
      | nil => cases hlen
      | cons w ws =>
          obtain ⟨hfirst, hothers⟩ := List.forall_mem_cons.mp ih
          obtain ⟨grads₁, hrun, h₁⟩ := hfirst x [w] grads hterm rfl h
          obtain ⟨grads₂, hrest, h₂⟩ := ihterms hothers ws (Nat.succ.inj hlen) h₁
          exact ⟨grads₂, by rw [collectTerms, hrun]; exact hrest, h₂⟩

/-- **No check fails** where an expression with a value receives an adjoint of its length:
every part of it receives an adjoint of its own length in turn. -/
theorem exists_collect : ∀ (e : Expr R) {values : List R} (us : List R) {grads : Table (List R)},
    g.evaluate e = .ok values → us.length = values.length → g.Fitting grads →
    ∃ grads', g.collect e us grads = some grads' ∧ g.Fitting grads'
  | .parameter name, values, us, _, hvalue, hlen, h => by
      -- every part checks its own shape first, which is what the lengths are kept for
      have hshape := checkShape_eq_some_iff.mpr ⟨values, hvalue, hlen⟩
      cases hp : g.params.get? name with
      | none => simp [evaluate, hp] at hvalue
      | some p =>
          rw [evaluate_parameter hp] at hvalue
          cases hvalue
          obtain ⟨grads', hrun, h'⟩ := h.exists_contribute hp hlen
          exact ⟨grads', by rw [collect, hshape]; exact hrun, h'⟩
  | .constant xs, values, us, grads, hvalue, hlen, h => by
      have hshape := checkShape_eq_some_iff.mpr ⟨values, hvalue, hlen⟩
      exact ⟨grads, by rw [collect, hshape]; rfl, h⟩
  | .pick vector index, values, us, grads, hvalue, hlen, h => by
      have hshape := checkShape_eq_some_iff.mpr ⟨values, hvalue, hlen⟩
      obtain ⟨xs, hvector⟩ := exists_of_evaluate_pick hvalue
      obtain ⟨hindex, hone⟩ := lt_of_evaluate_pick hvector hvalue
      obtain ⟨first, hfirst⟩ := head?_of_length_eq_one (hlen.trans hone)
      have hset : setExactly (List.replicate xs.length Scalar.zero) index first =
          some ((List.replicate xs.length Scalar.zero).set index first) :=
        setExactly_eq_some_iff.mpr ⟨by rwa [List.length_replicate], rfl⟩
      obtain ⟨grads', hrun, h'⟩ := exists_collect vector
        ((List.replicate xs.length Scalar.zero).set index first) hvector (by simp) h
      refine ⟨grads', ?_, h'⟩
      rw [collect, hshape, hvector, hfirst]
      simp only [bind, Option.bind, Except.toOption, hset]
      exact hrun
  | .logSoftmax vector, values, us, grads, hvalue, hlen, h => by
      have hshape := checkShape_eq_some_iff.mpr ⟨values, hvalue, hlen⟩
      obtain ⟨xs, hvector, hvalues⟩ := exists_of_evaluate_logSoftmax hvalue
      have hxs : xs.length = values.length := by rw [hvalues]; simp [Scalar.logSoftmax]
      have hzip := zipExactly_eq_some_iff (f := fun out d : R => d - Scalar.exp out * Scalar.sum us)
        |>.mpr ⟨hlen.symm, rfl⟩
      obtain ⟨grads', hrun, h'⟩ := exists_collect vector
        (List.zipWith (fun out d : R => d - Scalar.exp out * Scalar.sum us) values us) hvector
        (by simp [hlen, hxs]) h
      refine ⟨grads', ?_, h'⟩
      rw [collect, hshape, hvalue]
      simp only [bind, Option.bind, Except.toOption, hzip]
      exact hrun
  | .add left right, values, us, grads, hvalue, hlen, h => by
      have hshape := checkShape_eq_some_iff.mpr ⟨values, hvalue, hlen⟩
      obtain ⟨xs, ys, hleft, hright, hsame, hvalues⟩ := exists_of_evaluate_add hvalue
      have hxs : values.length = xs.length := by rw [hvalues, List.length_zipWith, ← hsame, Nat.min_self]
      obtain ⟨grads₁, hfirst, h₁⟩ := exists_collect left us hleft (hlen.trans hxs) h
      obtain ⟨grads₂, hsecond, h₂⟩ :=
        exists_collect right us hright (hlen.trans (hxs.trans hsame)) h₁
      exact ⟨grads₂, by rw [collect, hshape]; simp only [bind, Option.bind, hfirst, hsecond], h₂⟩
  | .neg vector, values, us, grads, hvalue, hlen, h => by
      have hshape := checkShape_eq_some_iff.mpr ⟨values, hvalue, hlen⟩
      obtain ⟨xs, hvector, hvalues⟩ := exists_of_evaluate_neg hvalue
      have hxs : values.length = xs.length := by rw [hvalues, List.length_map]
      obtain ⟨grads', hrun, h'⟩ := exists_collect vector (us.map (-·)) hvector
        (by rw [List.length_map, hlen, hxs]) h
      exact ⟨grads', by rw [collect, hshape]; exact hrun, h'⟩
  | .logSumExp terms, values, us, grads, hvalue, hlen, h => by
      have hshape := checkShape_eq_some_iff.mpr ⟨values, hvalue, hlen⟩
      obtain ⟨xs, hterms⟩ := exists_of_evaluate_logSumExp hvalue
      rw [evaluate_logSumExp hterms] at hvalue
      cases hvalue
      obtain ⟨first, hfirst⟩ := head?_of_length_eq_one hlen
      obtain ⟨grads', hrun, h'⟩ := exists_collectTerms (scalars_eq_ok_iff.mp hterms)
        (fun term _ x us grads hx hone hgrads => exists_collect term us hx hone hgrads)
        (xs.map fun value => first * logSumExpWeight (Scalar.logSumExp xs) value)
        (List.length_map _) h
      refine ⟨grads', ?_, h'⟩
      rw [collect, hshape, hterms, hfirst]
      exact hrun

end Completeness

/-! ### Which gradients are touched -/

section Touched

variable {g : Graph R}

theorem accumulateTerms_induction {P : Table (List R) → Prop} {terms : List (Expr R)}
    (ih : ∀ term ∈ terms, ∀ us grads grads', g.accumulate term us grads = .ok grads' →
      P grads → P grads')
    {ws : List R} {grads grads' : Table (List R)}
    (hrun : g.accumulateTerms terms ws grads = .ok grads') (h : P grads) : P grads' := by
  induction terms generalizing ws grads with
  | nil =>
      rw [accumulateTerms] at hrun
      · rwa [← Except.ok.inj hrun]
      · intro _ _ _ _ heq
        cases heq
  | cons term terms ihterms =>
      cases ws with
      | nil =>
          rw [accumulateTerms] at hrun
          · rwa [← Except.ok.inj hrun]
          · intro _ _ _ _ _ heq
            cases heq
      | cons w ws =>
          rw [accumulateTerms] at hrun
          obtain ⟨grads₁, hterm, hrun⟩ := exists_of_bind_eq_ok hrun
          obtain ⟨hfirst, hothers⟩ := List.forall_mem_cons.mp ih
          exact ihterms hothers hrun (hfirst _ _ _ hterm h)

/-- A property of what is collected is kept by an expression if it is kept by contributions
to the parameters that occur in it. -/
theorem accumulate_induction {P : Table (List R) → Prop} : ∀ e : Expr R,
    (∀ name us grads, Expr.PartOf (.parameter name) e → P grads → P (contribute grads name us)) →
    ∀ us grads grads', g.accumulate e us grads = .ok grads' → P grads → P grads'
  | .parameter name, hcontribute, us, grads, grads', hrun, h => by
      rw [accumulate] at hrun
      rw [← Except.ok.inj hrun]
      exact hcontribute name us grads .self h
  | .constant _, _, us, grads, grads', hrun, h => by
      rw [accumulate] at hrun
      rwa [← Except.ok.inj hrun]
  | .pick vector _, hcontribute, us, grads, grads', hrun, h => by
      rw [accumulate] at hrun
      obtain ⟨values, -, hrun⟩ := exists_of_bind_eq_ok hrun
      exact accumulate_induction vector
        (fun name us grads hpart => hcontribute name us grads hpart.pick) _ _ _ hrun h
  | .logSoftmax vector, hcontribute, us, grads, grads', hrun, h => by
      rw [accumulate] at hrun
      obtain ⟨output, -, hrun⟩ := exists_of_bind_eq_ok hrun
      exact accumulate_induction vector
        (fun name us grads hpart => hcontribute name us grads hpart.logSoftmax) _ _ _ hrun h
  | .add left right, hcontribute, us, grads, grads', hrun, h => by
      rw [accumulate] at hrun
      obtain ⟨grads₁, hleft, hright⟩ := exists_of_bind_eq_ok hrun
      have h₁ := accumulate_induction left
        (fun name us grads hpart => hcontribute name us grads hpart.addLeft) _ _ _ hleft h
      exact accumulate_induction right
        (fun name us grads hpart => hcontribute name us grads hpart.addRight) _ _ _ hright h₁
  | .neg vector, hcontribute, us, grads, grads', hrun, h => by
      rw [accumulate] at hrun
      exact accumulate_induction vector
        (fun name us grads hpart => hcontribute name us grads hpart.neg) _ _ _ hrun h
  | .logSumExp terms, hcontribute, us, grads, grads', hrun, h => by
      rw [accumulate] at hrun
      obtain ⟨values, -, hrun⟩ := exists_of_bind_eq_ok hrun
      exact accumulateTerms_induction (fun term hterm us grads grads' hrun h =>
        accumulate_induction term
          (fun name us grads hpart => hcontribute name us grads (.term hterm hpart)) _ _ _ hrun h)
        hrun h

/-- Only parameters that occur in an expression receive contributions. -/
theorem partOf_of_accumulate {e : Expr R} {us : List R} {grads : Table (List R)}
    (hrun : g.accumulate e us .empty = .ok grads) :
    ∀ name xs, grads.get? name = some xs → Expr.PartOf (.parameter name) e := by
  refine accumulate_induction
    (P := fun grads => ∀ name xs, grads.get? name = some xs → Expr.PartOf (.parameter name) e)
    e ?_ us .empty grads hrun (fun name xs h => by cases h)
  intro name us grads hpart h other xs hxs
  rw [contribute, Table.get?_insert] at hxs
  by_cases hother : other = name
  · exact hother ▸ hpart
  · rw [if_neg hother] at hxs
    exact h other xs hxs

/-- What is collected has each name once. -/
theorem nodup_of_accumulate {e : Expr R} {us : List R} {grads : Table (List R)}
    (hrun : g.accumulate e us .empty = .ok grads) : grads.names.Nodup := by
  refine accumulate_induction (P := fun grads => grads.names.Nodup)
    e (fun name us grads _ h => ?_) us .empty grads hrun List.nodup_nil
  exact Table.nodup_insert h name _

end Touched

/-! ### Graphs whose gradients have the lengths of the values -/

/-- Every gradient has the length of its value. -/
def Shaped (g : Graph R) : Prop :=
  ∀ name p, g.params.get? name = some p → p.grad.length = p.value.length

/-- Graphs that are built from an empty one by adding parameters, differentiating, clearing
gradients, steps of descent and renewals. -/
inductive Built : Graph R → Prop
  | empty (locallyNormalized : Bool) (generation : Nat) : Built { locallyNormalized, generation }
  | addParameter {g : Graph R} (name : String) (value : List R) :
      Built g → Built (g.addParameter name value)
  | backward {g g' : Graph R} {loss : Expr R} : Built g → g.backward loss = .ok g' → Built g'
  | zeroGrad {g : Graph R} : Built g → Built g.zeroGrad
  | update {g : Graph R} (d : Descent R) : Built g → Built (d.update g)
  | renew {g : Graph R} : Built g → Built g.renew

theorem Shaped.addParameter {g : Graph R} (h : g.Shaped) (name : String) (value : List R) :
    (g.addParameter name value).Shaped := by
  intro other p hp
  rw [Graph.addParameter, Table.get?_insert] at hp
  by_cases hother : other = name
  · rw [if_pos hother] at hp
    rw [← Option.some.inj hp]
    exact List.length_replicate
  · rw [if_neg hother] at hp
    exact h other p hp

omit [Scalar R] in
/-- A change of every parameter that keeps lengths. -/
theorem Shaped.map {g : Graph R} (h : g.Shaped) (f : String → Parameter R → Parameter R)
    (hf : ∀ name p, p.grad.length = p.value.length →
      (f name p).grad.length = (f name p).value.length) :
    Shaped { g with params := g.params.map f } := by
  intro name p hp
  rw [Table.get?_map] at hp
  obtain ⟨q, hq, rfl⟩ := Option.map_eq_some_iff.mp hp
  exact hf name q (h name q hq)

theorem Shaped.addGradients {g : Graph R} (h : g.Shaped) (grads : Table (List R)) :
    (g.addGradients grads).Shaped := by
  refine h.map _ fun name p hp => ?_
  split
  · rw [length_addOnto]
    exact hp
  · exact hp

theorem exists_of_backward_eq_ok {g g' : Graph R} {loss : Expr R}
    (h : g.backward loss = .ok g') :
    ∃ grads, g.accumulate loss [Scalar.one] .empty = .ok grads ∧ g' = g.addGradients grads := by
  rw [Graph.backward] at h
  obtain ⟨value, -, h⟩ := exists_of_bind_eq_ok h
  split at h
  · obtain ⟨grads, hrun, h⟩ := exists_of_bind_eq_ok h
    exact ⟨grads, hrun, (Except.ok.inj h).symm⟩
  · cases h

theorem Built.shaped {g : Graph R} (h : Built g) : g.Shaped := by
  induction h with
  | empty locallyNormalized generation => intro name p hp; cases hp
  | addParameter name value _ ih => exact ih.addParameter name value
  | backward _ hrun ih =>
      obtain ⟨grads, -, rfl⟩ := exists_of_backward_eq_ok hrun
      exact ih.addGradients grads
  | zeroGrad _ ih => exact ih.map _ fun name p hp => by simpa using hp
  | update d _ ih =>
      refine ih.map _ fun name p hp => ?_
      dsimp only
      rw [Descent.cleared_eq_replicate hp, Descent.descend_eq_zipWith d.rate hp]
      simp [hp]
  | renew _ ih => exact ih

/-! ### Differentiating in place -/

/-- Adds a collected contribution to the gradient of its parameter, if there is one. -/
def addGradient (name : String) (grad : List R) (g : Graph R) : Graph R :=
  { g with params := g.params.map fun other p =>
      if other = name then { p with grad := addOnto p.grad grad } else p }

/-- Differentiates a loss in a graph that is changed in place, one parameter at a time. -/
def differentiate (loss : Expr R) : ExceptT (Error R) (StateM (Graph R)) Unit := do
  let g ← get
  let value ← ExceptT.mk (pure (g.evaluate loss))
  if value.length == 1 then
    let grads ← ExceptT.mk (pure (g.accumulate loss [Scalar.one] .empty))
    grads.entries.forM fun entry => modify (addGradient entry.1 entry.2)
  else throw (.shapeMismatch 1 value.length)

/-- Adding to one parameter after the other is adding to all at once. -/
theorem run_forM_addGradient {entries : List (String × List R)}
    (h : (entries.map (·.1)).Nodup) (g : Graph R) :
    (entries.forM fun entry => (modify (addGradient entry.1 entry.2) :
      ExceptT (Error R) (StateM (Graph R)) Unit)).run.run g = (.ok (), g.addGradients ⟨entries⟩) := by
  induction entries generalizing g with
  | nil =>
      have hsame : g.addGradients ⟨[]⟩ = g := by
        show { g with params := g.params.map fun _ p => p } = g
        rw [Table.map_id]
      rw [hsame]
      rfl
  | cons entry rest ih =>
      obtain ⟨hnot, hrest⟩ := List.nodup_cons.mp h
      have hstep : g.addGradients ⟨entry :: rest⟩ =
          (addGradient entry.1 entry.2 g).addGradients ⟨rest⟩ := by
        unfold addGradients addGradient
        dsimp only
        rw [Table.map_map]
        congr 2
        funext name p
        rw [Table.get?, Table.lookup_cons_eq_ite]
        by_cases hname : name = entry.1
        · have hnone : rest.lookup name = none := by
            rw [List.lookup_eq_none_iff]
            intro other hother
            rw [hname, bne_iff_ne]
            exact fun heq => hnot (List.mem_map.mpr ⟨other, hother, heq.symm⟩)
          simp [Table.get?, hname, hname ▸ hnone]
        · simp [Table.get?, hname]
      rw [hstep, ← ih hrest]
      rfl

omit [Scalar R] in
/-- One computation after the other, from the graph that the first one leaves. -/
theorem run_bind {α β : Type} (x : ExceptT (Error R) (StateM (Graph R)) α)
    (f : α → ExceptT (Error R) (StateM (Graph R)) β) (g : Graph R) :
    (x >>= f).run.run g =
      match x.run.run g with
      | (.ok a, g') => (f a).run.run g'
      | (.error e, g') => (.error e, g') := by
  rw [ExceptT.run_bind, StateT.run_bind]
  cases x.run.run g with
  | mk result g' => cases result <;> rfl

/-- A graph that is changed in place becomes the result, and stays as it is on an error. -/
theorem run_differentiate (g : Graph R) (loss : Expr R) :
    (differentiate loss).run.run g =
      match g.backward loss with
      | .ok g' => (.ok (), g')
      | .error e => (.error e, g) := by
  have hget : (get : ExceptT (Error R) (StateM (Graph R)) (Graph R)).run.run g =
    (.ok g, g) := rfl
  have hpure {α : Type} (result : Except (Error R) α) :
    (ExceptT.mk (pure result) : ExceptT (Error R) (StateM (Graph R)) α).run.run g =
      (result, g) := rfl
  unfold differentiate backward
  rw [run_bind, hget]
  dsimp only
  rw [run_bind, hpure]
  cases g.evaluate loss with
  | error e => rfl
  | ok value =>
      dsimp only
      by_cases hone : (value.length == 1) = true
      · rw [if_pos hone, run_bind, hpure]
        simp only [bind, Except.bind, if_pos hone]
        cases hcollected : g.accumulate loss [Scalar.one] .empty with
        | error e => rfl
        | ok grads => exact run_forM_addGradient (nodup_of_accumulate hcollected) g
      · rw [if_neg hone]
        simp only [bind, Except.bind, if_neg hone]
        rfl

/-! ### What differentiating a loss does -/

/-- What is known when a loss that is a scalar was differentiated in place: all checks
succeeded with the collected gradients, and they were added to the graph. -/
structure Differentiated (g : Graph R) (loss : Expr R) (g' : Graph R) (collected : Table (List R)) :
    Prop where
  /-- No entry was read that is not there, every adjoint had the length of its part, and no
  vectors of different lengths were combined. -/
  checked : g.collect loss [Scalar.one] .empty = some collected
  /-- This is what the unchecked collection returns. -/
  unchecked : g.accumulate loss [Scalar.one] .empty = .ok collected
  /-- What was collected belongs to parameters that occur in the loss, and has the length of
  their values and of their gradients. -/
  fits : ∀ name xs, collected.get? name = some xs → Expr.PartOf (.parameter name) loss ∧
    ∃ p, g.params.get? name = some p ∧ xs.length = p.value.length ∧ xs.length = p.grad.length
  /-- The parameters keep their names, their order and their values, and each gradient has
  been added to entry by entry what was collected for it. -/
  params : g'.params.names = g.params.names ∧
    ∀ name, g'.params.get? name = (g.params.get? name).map fun p =>
      { p with grad :=
          match collected.get? name with
          | some xs => List.zipWith (· + ·) p.grad xs
          | none => p.grad }
  /-- A parameter that does not occur in the loss stays as it is. -/
  untouched : ∀ name, ¬ Expr.PartOf (.parameter name) loss →
    g'.params.get? name = g.params.get? name
  /-- Nothing else changes. -/
  frame : g'.generation = g.generation ∧ g'.locallyNormalized = g.locallyNormalized
  /-- Every gradient has the length of its value again. -/
  shaped : g'.Shaped

/-- Gradients of matching lengths are added to in full. -/
theorem get?_addGradients {g : Graph R} {collected : Table (List R)}
    (hlen : ∀ name xs p, collected.get? name = some xs → g.params.get? name = some p →
      xs.length = p.grad.length) (name : String) :
    (g.addGradients collected).params.get? name = (g.params.get? name).map fun p =>
      { p with grad :=
          match collected.get? name with
          | some xs => List.zipWith (· + ·) p.grad xs
          | none => p.grad } := by
  rw [addGradients, Table.get?_map]
  refine Option.map_congr fun p hp => ?_
  cases hxs : collected.get? name with
  | none => rfl
  | some xs =>
      dsimp only
      rw [addOnto_eq_zipWith (hlen name xs p hxs hp).symm]

/-- A loss with a scalar value is differentiated, and all shapes match. -/
theorem exists_differentiated {g : Graph R} (h : g.Shaped) {loss : Expr R} {values : List R}
    (hvalue : g.evaluate loss = .ok values) (hone : values.length = 1) :
    ∃ g' collected, g.backward loss = .ok g' ∧ g.Differentiated loss g' collected := by
  have hempty : g.Fitting .empty := fun name xs hxs => by cases hxs
  obtain ⟨collected, hchecked, hfitting⟩ := exists_collect loss [Scalar.one] hvalue hone.symm hempty
  have hrun := accumulate_of_collect loss _ _ _ hchecked
  have hpart := partOf_of_accumulate hrun
  have hlen : ∀ name xs p, collected.get? name = some xs → g.params.get? name = some p →
      xs.length = p.grad.length := by
    intro name xs p hxs hp
    obtain ⟨q, hq, hxslen⟩ := hfitting name xs hxs
    rw [hp] at hq
    cases hq
    rw [hxslen, h name p hp]
  have hparams := get?_addGradients hlen
  refine ⟨g.addGradients collected, collected, ?_, hchecked, hrun, ?_, ⟨?_, hparams⟩, ?_, ⟨rfl, rfl⟩,
    h.addGradients collected⟩
  · rw [backward, hvalue]
    simp only [bind, Except.bind, hone, BEq.rfl, if_true, hrun]
    rfl
  · intro name xs hxs
    obtain ⟨p, hp, hxslen⟩ := hfitting name xs hxs
    exact ⟨hpart name xs hxs, p, hp, hxslen, hlen name xs p hxs hp⟩
  · rw [addGradients, Table.names_map]
  · intro name hname
    have hnone : collected.get? name = none := by
      cases hxs : collected.get? name with
      | none => rfl
      | some xs => exact absurd (hpart name xs hxs) hname
    rw [hparams, hnone]
    exact Option.map_id'

/-- **Shapes are safe.** Every graph that is built up has gradients of the lengths of its
values. Differentiating a loss in such a graph fails if and only if the loss has no value or
is no scalar, with the error of the evaluation in the first case, and then the graph is
unchanged. Otherwise no check fails, and only gradients of parameters in the loss change,
each by a vector of its own length. -/
theorem shapes_of_backward :
    (∀ g : Graph R, Built g → g.Shaped) ∧
      ∀ g : Graph R, g.Shaped → ∀ loss : Expr R,
        (∀ e, g.evaluate loss = .error e →
          g.backward loss = .error e ∧ (differentiate loss).run.run g = (.error e, g)) ∧
        (∀ values, g.evaluate loss = .ok values → values.length ≠ 1 →
          g.backward loss = .error (.shapeMismatch 1 values.length) ∧
          (differentiate loss).run.run g = (.error (.shapeMismatch 1 values.length), g)) ∧
        (∀ values, g.evaluate loss = .ok values → values.length = 1 →
          ∃ g' collected, g.backward loss = .ok g' ∧
            (differentiate loss).run.run g = (.ok (), g') ∧
            g.Differentiated loss g' collected) := by
  refine ⟨fun g h => h.shaped, fun g h loss => ⟨fun e hvalue => ?_, fun values hvalue hmany => ?_,
    fun values hvalue hone => ?_⟩⟩
  · have hback : g.backward loss = .error e := by
      rw [backward, hvalue]
      rfl
    rw [run_differentiate, hback]
    exact ⟨rfl, rfl⟩
  · have hback : g.backward loss = .error (.shapeMismatch 1 values.length) := by
      rw [backward, hvalue]
      simp only [bind, Except.bind, beq_iff_eq, if_neg hmany]
    rw [run_differentiate, hback]
    exact ⟨rfl, rfl⟩
  · obtain ⟨g', collected, hback, hdone⟩ := exists_differentiated h hvalue hone
    refine ⟨g', collected, hback, ?_, hdone⟩
    rw [run_differentiate, hback]

/-! ### Two weights -/

/-- A graph with a parameter of two entries and another one of one entry. -/
def weighted : Graph Float :=
  (addParameter {} "weight" [0.5, 1.5]).addParameter "bias" [0.25]

theorem built_weighted : Built weighted :=
  ((Built.empty true 0).addParameter "weight" [0.5, 1.5]).addParameter "bias" [0.25]

/-- One entry of a parameter is a loss; the whole parameter is none, and neither is one that
is not there. -/
theorem shapes_weighted :
    weighted.Shaped ∧
      (weighted.backward (.parameter "scale") = .error (.unknownParameter "scale") ∧
        (differentiate (.parameter "scale")).run.run weighted =
          (.error (.unknownParameter "scale"), weighted)) ∧
      (weighted.backward (.parameter "weight") = .error (.shapeMismatch 1 2) ∧
        (differentiate (.parameter "weight")).run.run weighted =
          (.error (.shapeMismatch 1 2), weighted)) ∧
      ∃ g' collected, weighted.backward (.neg (.pick (.parameter "weight") 1)) = .ok g' ∧
        (differentiate (.neg (.pick (.parameter "weight") 1))).run.run weighted = (.ok (), g') ∧
        weighted.Differentiated (.neg (.pick (.parameter "weight") 1)) g' collected := by
  have hshaped := (shapes_of_backward (R := Float)).1 weighted built_weighted
  have hsafe := (shapes_of_backward (R := Float)).2 weighted hshaped
  exact ⟨hshaped, (hsafe (.parameter "scale")).1 _ rfl,
    (hsafe (.parameter "weight")).2.1 [0.5, 1.5] rfl (by decide),
    (hsafe (.neg (.pick (.parameter "weight") 1))).2.2 [-1.5] rfl rfl⟩

end Graph

end ChoiceSearch
