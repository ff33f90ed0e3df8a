import ChoiceSearch.Graph.Gradient
import ChoiceSearch.Proofs.Graph.Evaluate
import ChoiceSearch.Proofs.Graph.Tangent
import ChoiceSearch.Proofs.Scalar.LogSumExp
import ChoiceSearch.Proofs.Table

/-!
# Reverse mode is the transpose of forward mode

`Graph.accumulate` pushes an adjoint down an expression and collects contributions by the
names of parameters. What it adds to the collected gradients, as a linear form of a
direction, is the inner product of the adjoint and the tangent of the expression in that
direction (`Graph.Transposes`).

Each constructor keeps this property: its rule for adjoints is the transpose of its rule
for tangents. The collected gradients are generalized over, since the second summand of a
sum finds those of the first in the table and adds to them. An induction on the expression
then gives the property for all expressions with real parts, and with the adjoint one the
gradient of a loss.
-/

namespace ChoiceSearch

open RealScalar

namespace Graph

variable {R : Type} [Scalar R] [RealScalar R]

/-! ## Collected gradients -/

/-- A table of collected gradients holds the given vectors, one for each parameter and of
its length; a parameter that nothing was collected for has a vector of zeros. -/
structure Collects (g : Graph R) (grads : Table (List R)) (sums : String → List ℝ) : Prop where
  length : ∀ name p, g.params.get? name = some p → (sums name).length = p.value.length
  held : ∀ name xs, grads.get? name = some xs → xs = (sums name).map real
  absent : ∀ name, grads.get? name = none →
    sums name = List.replicate (sums name).length 0

/-- The derivative that gradients give in a direction: the inner product with it, over the
entries of all parameters. -/
noncomputable def pairing (g : Graph R) (sums : String → List ℝ)
    (direction : String → ℕ → ℝ) : ℝ :=
  ∑ name ∈ g.params.names.toFinset, along (sums name) (direction name)

/-- The vector of zeros for each parameter. -/
noncomputable def zeroSums (g : Graph R) (name : String) : List ℝ :=
  match g.params.get? name with
  | some p => List.replicate p.value.length 0
  | none => []

theorem collects_empty (g : Graph R) : g.Collects .empty g.zeroSums where
  length name p hp := by simp [zeroSums, hp]
  held name xs h := by cases h
  absent name _ := by
    cases hp : g.params.get? name with
    | none => simp [zeroSums, hp]
    | some p => simp [zeroSums, hp]

omit [Scalar R] [RealScalar R] in
theorem pairing_zeroSums (g : Graph R) (direction : String → ℕ → ℝ) :
    g.pairing g.zeroSums direction = 0 := by
  refine Finset.sum_eq_zero fun name _ => ?_
  cases hp : g.params.get? name with
  | none => simp [zeroSums, hp, along_nil]
  | some p => simp [zeroSums, hp, along_replicate_zero]

theorem addOnto_real {us vs : List ℝ} (h : us.length = vs.length) :
    addOnto (us.map (real : ℝ → R)) (vs.map real) =
      (List.zipWith (· + ·) us vs).map real := by
  induction us generalizing vs with
  | nil => cases vs <;> rfl
  | cons u us ih =>
      cases vs with
      | nil => cases h
      | cons v vs => simp [addOnto, ih (Nat.succ.inj h)]

/-- A contribution is added to the vector of its parameter. -/
theorem Collects.contribute {g : Graph R} {grads : Table (List R)} {sums : String → List ℝ}
    (h : g.Collects grads sums) {name : String} {us : List ℝ}
    (hlen : us.length = (sums name).length) :
    g.Collects (contribute grads name (us.map real))
      (Function.update sums name (List.zipWith (· + ·) (sums name) us)) := by
  have hbefore : (grads.get? name).getD (List.replicate (us.map (real : ℝ → R)).length
      Scalar.zero) = (sums name).map real := by
    cases hxs : grads.get? name with
    | some xs => exact h.held name xs hxs
    | none =>
        rw [Option.getD_none, List.length_map, hlen, h.absent name hxs, List.length_replicate,
          List.map_replicate, zero_eq]
  have hget : ∀ other, (Graph.contribute grads name (us.map real)).get? other =
      if other = name then some ((List.zipWith (· + ·) (sums name) us).map real)
      else grads.get? other := by
    intro other
    rw [Graph.contribute, Table.get?_insert, hbefore, addOnto_real hlen.symm]
  constructor
  · intro other p hp
    by_cases hother : other = name
    · subst hother
      simpa [hlen] using h.length other p hp
    · simpa [hother] using h.length other p hp
  · intro other xs hxs
    rw [hget] at hxs
    by_cases hother : other = name
    · subst hother
      simpa using hxs.symm
    · rw [if_neg hother] at hxs
      simpa [hother] using h.held other xs hxs
  · intro other hxs
    rw [hget] at hxs
    by_cases hother : other = name
    · rw [if_pos hother] at hxs
      cases hxs
    · rw [if_neg hother] at hxs
      simpa [hother] using h.absent other hxs

omit [Scalar R] [RealScalar R] in
theorem pairing_update (g : Graph R) {sums : String → List ℝ} {name : String}
    (hname : name ∈ g.params.names) {us : List ℝ} (hlen : us.length = (sums name).length)
    (direction : String → ℕ → ℝ) :
    g.pairing (Function.update sums name (List.zipWith (· + ·) (sums name) us)) direction =
      g.pairing sums direction + along us (direction name) := by
  have hmem : name ∈ g.params.names.toFinset := List.mem_toFinset.mpr hname
  have hrest : ∀ other ∈ g.params.names.toFinset.erase name,
      along (Function.update sums name (List.zipWith (· + ·) (sums name) us) other)
        (direction other) = along (sums other) (direction other) := fun other hother => by
    rw [Function.update_of_ne (Finset.ne_of_mem_erase hother)]
  rw [pairing, pairing, ← Finset.add_sum_erase _ _ hmem, ← Finset.add_sum_erase _ _ hmem,
    Finset.sum_congr rfl hrest, Function.update_self, along_zipWith_add hlen.symm]
  ring

/-! ## One rule per constructor -/

/-- Pushing down an adjoint collects the transpose of the tangent: whatever was collected
before, the derivative in every direction grows by the inner product of the adjoint and the
tangent. -/
def Transposes (g : Graph R) (e : Expr R) : Prop :=
  ∀ (us : List ℝ) (grads : Table (List R)) (sums : String → List ℝ),
    us.length = (g.reals e).length → g.Collects grads sums →
      ∃ grads' sums', g.accumulate e (us.map real) grads = .ok grads' ∧
        g.Collects grads' sums' ∧ ∀ direction, g.pairing sums' direction =
          g.pairing sums direction + along us (g.tangent direction e)

namespace HasReals

variable {g : Graph R}

theorem of_pick {vector : Expr R} {index : ℕ} (h : g.HasReals (.pick vector index)) :
    g.HasReals vector := fun part hp => h part (.pick hp)

theorem of_logSoftmax {vector : Expr R} (h : g.HasReals (.logSoftmax vector)) :
    g.HasReals vector := fun part hp => h part (.logSoftmax hp)

theorem of_add_left {left right : Expr R} (h : g.HasReals (.add left right)) :
    g.HasReals left := fun part hp => h part (.addLeft hp)

theorem of_add_right {left right : Expr R} (h : g.HasReals (.add left right)) :
    g.HasReals right := fun part hp => h part (.addRight hp)

theorem of_neg {vector : Expr R} (h : g.HasReals (.neg vector)) : g.HasReals vector :=
  fun part hp => h part (.neg hp)

theorem of_term {terms : List (Expr R)} (h : g.HasReals (.logSumExp terms)) {term : Expr R}
    (hmem : term ∈ terms) : g.HasReals term := fun part hp => h part (.term hmem hp)

end HasReals

theorem transposes_parameter {g : Graph R} {name : String}
    (h : g.HasReals (.parameter name)) : g.Transposes (.parameter name) := by
  intro us grads sums hlen hc
  cases hp : g.params.get? name with
  | none => simpa [Graph.evaluate, hp] using h.evaluate
  | some p =>
      have hlen' : us.length = (sums name).length := by
        rw [hlen, length_reals (evaluate_parameter hp), hc.length name p hp]
      exact ⟨_, _, rfl, hc.contribute hlen',
        fun direction => g.pairing_update (Table.mem_names.mpr ⟨p, hp⟩) hlen' direction⟩

theorem transposes_constant (g : Graph R) (values : List R) :
    g.Transposes (.constant values) := fun us grads sums _ hc =>
  ⟨grads, sums, rfl, hc, fun _ => by rw [tangent, along_fun_zero, add_zero]⟩

theorem pickAdjoint_real (n index : ℕ) (u : ℝ) :
    pickAdjoint n index (real u : R) = ((List.replicate n 0).set index u).map real := by
  rw [pickAdjoint, zero_eq, List.map_set, List.map_replicate]

theorem transposes_pick {g : Graph R} {vector : Expr R} {index : ℕ}
    (h : g.HasReals (.pick vector index)) (ih : g.Transposes vector) :
    g.Transposes (.pick vector index) := by
  intro us grads sums hlen hc
  have hvector := h.of_pick.evaluate
  have hpick := h.evaluate
  simp only [Graph.evaluate, hvector, bind, Except.bind, List.getElem?_map] at hpick
  cases hx : (g.reals vector)[index]? with
  | none => simp [hx] at hpick
  | some x =>
      obtain ⟨hindex, -⟩ := List.getElem?_eq_some_iff.mp hx
      have hentry : ((g.reals vector).map (real : ℝ → R))[index]? = some (real x) := by
        rw [List.getElem?_map, hx, Option.map_some]
      have hone : (g.reals (.pick vector index)).length = 1 :=
        length_reals (evaluate_pick hvector hentry)
      obtain ⟨u, rfl⟩ := List.length_eq_one_iff.mp (hlen.trans hone)
      obtain ⟨grads', sums', hrun, hc', hpair⟩ :=
        ih ((List.replicate (g.reals vector).length 0).set index u) grads sums (by simp) hc
      refine ⟨grads', sums', ?_, hc', fun direction => ?_⟩
      · simpa [Graph.accumulate, hvector, bind, Except.bind, pickAdjoint_real] using hrun
      · rw [hpair, along_set hindex, tangent, along_singleton]

theorem logSoftmaxAdjoint_real (out us : List ℝ) :
    logSoftmaxAdjoint (out.map (real : ℝ → R)) (us.map real) =
      (List.zipWith (fun o u => u - realExp R o * us.sum) out us).map real := by
  simp [logSoftmaxAdjoint, sum_real, List.zipWith_map, List.map_zipWith]

theorem along_logSoftmaxAdjoint {out us : List ℝ} (h : us.length = out.length) (c : ℝ)
    (f : ℕ → ℝ) :
    along (List.zipWith (fun o u => u - realExp R o * c) out us) f =
      along us f - c * along (out.map (realExp R)) f := by
  induction us generalizing out f with
  | nil =>
      obtain rfl := List.eq_nil_of_length_eq_zero h.symm
      simp [along_nil]
  | cons u us ih =>
      cases out with
      | nil => cases h
      | cons o out =>
          rw [List.zipWith_cons_cons, List.map_cons, along_cons, along_cons, along_cons,
            ih (Nat.succ.inj h)]
          ring

theorem transposes_logSoftmax {g : Graph R} {vector : Expr R}
    (h : g.HasReals (.logSoftmax vector)) (ih : g.Transposes vector) :
    g.Transposes (.logSoftmax vector) := by
  intro us grads sums hlen hc
  have hout := h.evaluate
  have hvector := h.of_logSoftmax.evaluate
  have hsame : (g.reals (.logSoftmax vector)).length = (g.reals vector).length := by
    simpa [Scalar.logSoftmax] using length_reals (evaluate_logSoftmax hvector)
  obtain ⟨grads', sums', hrun, hc', hpair⟩ :=
    ih (List.zipWith (fun o u => u - realExp R o * us.sum) (g.reals (.logSoftmax vector)) us)
      grads sums (by simp [hlen, hsame]) hc
  refine ⟨grads', sums', ?_, hc', fun direction => ?_⟩
  · rw [← logSoftmaxAdjoint_real] at hrun
    rw [Graph.accumulate, hout]
    exact hrun
  · rw [hpair, along_logSoftmaxAdjoint hlen, tangent]
    simp only [sub_eq_add_neg, along_fun_add, along_fun_const, mul_neg]

theorem transposes_add {g : Graph R} {left right : Expr R} (h : g.HasReals (.add left right))
    (ihl : g.Transposes left) (ihr : g.Transposes right) : g.Transposes (.add left right) := by
  intro us grads sums hlen hc
  have hsum := h.evaluate
  simp only [Graph.evaluate, h.of_add_left.evaluate, h.of_add_right.evaluate, bind, Except.bind,
    List.length_map] at hsum
  split at hsum
  · rename_i heq
    have heq : (g.reals left).length = (g.reals right).length := by simpa using heq
    have hleft : (g.reals (.add left right)).length = (g.reals left).length := by
      simpa [heq] using (congrArg List.length (Except.ok.inj hsum)).symm
    obtain ⟨grads', sums', hrun, hc', hpair⟩ := ihl us grads sums (hlen.trans hleft) hc
    -- the right summand finds what the left one has collected
    obtain ⟨grads'', sums'', hrun', hc'', hpair'⟩ :=
      ihr us grads' sums' ((hlen.trans hleft).trans heq) hc'
    refine ⟨grads'', sums'', ?_, hc'', fun direction => ?_⟩
    · simpa [Graph.accumulate, hrun, bind, Except.bind] using hrun'
    · rw [hpair', hpair, tangent, along_fun_add, add_assoc]
  · cases hsum

theorem transposes_neg {g : Graph R} {vector : Expr R} (h : g.HasReals (.neg vector))
    (ih : g.Transposes vector) : g.Transposes (.neg vector) := by
  intro us grads sums hlen hc
  have hsame : (g.reals (.neg vector)).length = (g.reals vector).length := by
    simpa using length_reals (evaluate_neg h.of_neg.evaluate)
  obtain ⟨grads', sums', hrun, hc', hpair⟩ := ih (us.map (-·)) grads sums (by simp [hlen, hsame]) hc
  refine ⟨grads', sums', ?_, hc', fun direction => ?_⟩
  · simpa [Graph.accumulate, Function.comp_def] using hrun
  · rw [hpair, tangent, along_map_neg, along_fun_neg]

/-! ## The terms of a log-sum-exp -/

/-- The terms of a log-sum-exp are scalars. -/
theorem HasReals.scalars {g : Graph R} {terms : List (Expr R)} {values : List R}
    (h : ∀ term ∈ terms, g.HasReals term) (hvalues : g.scalars terms = .ok values) :
    values = (terms.map g.realValue).map real ∧
      ∀ term ∈ terms, (g.reals term).length = 1 := by
  have hterms := Graph.scalars_eq_ok_iff.mp hvalues
  clear hvalues
  induction hterms with
  | nil => simp
  | @cons term x terms values hx _ ih =>
      obtain ⟨hvals, hlens⟩ := ih fun t ht => h t (List.mem_cons_of_mem _ ht)
      have hterm : x = real (g.realValue term) := (h term List.mem_cons_self).eq_realValue hx
      refine ⟨by rw [hterm, hvals, List.map_cons, List.map_cons], fun t ht => ?_⟩
      rcases List.mem_cons.mp ht with rfl | ht
      · exact length_reals hx
      · exact hlens t ht

/-- The terms of a log-sum-exp receive their adjoints one after the other. -/
theorem exists_accumulateTerms {g : Graph R} {terms : List (Expr R)} {ws : List ℝ}
    {grads : Table (List R)} {sums : String → List ℝ}
    (h : ∀ term ∈ terms, g.Transposes term ∧ (g.reals term).length = 1)
    (hlen : ws.length = terms.length) (hc : g.Collects grads sums) :
    ∃ grads' sums', g.accumulateTerms terms (ws.map real) grads = .ok grads' ∧
      g.Collects grads' sums' ∧ ∀ direction, g.pairing sums' direction =
        g.pairing sums direction + along ws (g.tangents direction terms) := by
  induction terms generalizing ws grads sums with
  | nil =>
      obtain rfl := List.eq_nil_of_length_eq_zero hlen
      exact ⟨grads, sums, rfl, hc, fun _ => by rw [along_nil, add_zero]⟩
  | cons term terms ih =>
      cases ws with
      | nil => cases hlen
      | cons w ws =>
          obtain ⟨hterm, hone⟩ := h term List.mem_cons_self
          obtain ⟨grads', sums', hrun, hc', hpair⟩ := hterm [w] grads sums hone.symm hc
          obtain ⟨grads'', sums'', hrun', hc'', hpair'⟩ :=
            ih (fun t ht => h t (List.mem_cons_of_mem _ ht)) (Nat.succ.inj hlen) hc'
          refine ⟨grads'', sums'', ?_, hc'', fun direction => ?_⟩
          · rw [List.map_cons, List.map_nil] at hrun
            rw [List.map_cons, accumulateTerms, hrun]
            exact hrun'
          · rw [hpair', hpair, along_singleton, along_cons, tangents]
            ring

/-- The adjoint of each term of a log-sum-exp is a share of the adjoint of the whole. -/
theorem map_logSumExpWeight (g : Graph R) {terms : List (Expr R)} (u : ℝ) :
    ((terms.map g.realValue).map (real : ℝ → R)).map
        (fun value => real u * logSumExpWeight (real (g.realValue (.logSumExp terms))) value) =
      ((g.termWeights terms).map (u * ·)).map real := by
  simp [logSumExpWeight, termWeights, Function.comp_def]

theorem transposes_logSumExp {g : Graph R} {terms : List (Expr R)}
    (h : g.HasReals (.logSumExp terms)) (ih : ∀ term ∈ terms, g.Transposes term) :
    g.Transposes (.logSumExp terms) := by
  intro us grads sums hlen hc
  have hresult := h.evaluate
  cases hvalues : g.scalars terms with
  | error e => simp [Graph.evaluate, hvalues, bind, Except.bind] at hresult
  | ok values =>
      obtain ⟨rfl, hone⟩ := HasReals.scalars (fun t ht => h.of_term ht) hvalues
      have hlse := h.eq_realValue (evaluate_logSumExp hvalues)
      obtain ⟨u, rfl⟩ :=
        List.length_eq_one_iff.mp (hlen.trans (length_reals (evaluate_logSumExp hvalues)))
      have hweights : ((g.termWeights terms).map (u * ·)).length = terms.length := by
        simp [termWeights]
      obtain ⟨grads', sums', hrun, hc', hpair⟩ :=
        exists_accumulateTerms (fun t ht => ⟨ih t ht, hone t ht⟩) hweights hc
      refine ⟨grads', sums', ?_, hc', fun direction => ?_⟩
      · rw [← map_logSumExpWeight, ← hlse] at hrun
        rw [Graph.accumulate, hvalues]
        exact hrun
      · rw [hpair, along_map_mul, tangent, along_singleton]

/-- Reverse mode is the transpose of forward mode on every expression with real parts. -/
theorem transposes (g : Graph R) : ∀ e : Expr R, g.HasReals e → g.Transposes e
  | .parameter _, h => transposes_parameter h
  | .constant values, _ => transposes_constant g values
  | .pick vector _, h => transposes_pick h (transposes g vector h.of_pick)
  | .logSoftmax vector, h => transposes_logSoftmax h (transposes g vector h.of_logSoftmax)
  | .add left right, h =>
      transposes_add h (transposes g left h.of_add_left) (transposes g right h.of_add_right)
  | .neg vector, h => transposes_neg h (transposes g vector h.of_neg)
  | .logSumExp _, h => transposes_logSumExp h fun term hmem => transposes g term (h.of_term hmem)

/-! ## The gradient of a loss -/

/-- One graph is another one with vectors added to the gradients of its parameters, entry
by entry; nothing else has changed. -/
structure Gains (g g' : Graph R) (added : String → List ℝ) : Prop where
  names : g'.params.names = g.params.names
  locallyNormalized : g'.locallyNormalized = g.locallyNormalized
  generation : g'.generation = g.generation
  gradient : ∀ name p, g.params.get? name = some p →
    (added name).length = p.value.length ∧ g'.params.get? name =
      some { p with grad := List.zipWith (· + ·) p.grad ((added name).map real) }

theorem zipWith_add_zeros (xs : List R) :
    List.zipWith (· + ·) xs ((List.replicate xs.length (0 : ℝ)).map real) = xs := by
  induction xs with
  | nil => rfl
  | cons x xs ih =>
      rw [List.length_cons, List.replicate_succ, List.map_cons, List.zipWith_cons_cons, ih,
        add_real_zero]

/-- Collected gradients are added to those of the parameters. -/
theorem Collects.gains {g : Graph R} {grads : Table (List R)} {sums : String → List ℝ}
    (h : g.Collects grads sums)
    (hgrads : ∀ name p, g.params.get? name = some p → p.grad.length = p.value.length) :
    g.Gains (g.addGradients grads) sums := by
  refine ⟨Table.names_map .., rfl, rfl, fun name p hp => ?_⟩
  have hlen : p.grad.length = (sums name).length := by rw [hgrads name p hp, h.length name p hp]
  refine ⟨h.length name p hp, ?_⟩
  rw [addGradients, Table.get?_map, hp, Option.map_some]
  cases hxs : grads.get? name with
  | some xs =>
      obtain rfl := h.held name xs hxs
      simp only [addOnto_eq_zipWith (hlen.trans (List.length_map _).symm)]
  | none =>
      -- nothing was collected, and zeros are added
      rw [h.absent name hxs, ← hlen, zipWith_add_zeros]

/-- The gradients that `backward` adds are those of forward mode. For a scalar loss with
real parts it succeeds, changes nothing but gradients, and in every direction the inner
product of what it adds to the gradients and the direction is the tangent of the loss. -/
theorem exists_backward_eq (g : Graph R) (loss : Expr R)
    (hgrads : ∀ name p, g.params.get? name = some p → p.grad.length = p.value.length)
    (hreals : g.HasReals loss) (hscalar : ∃ x, g.evaluate loss = .ok [x]) :
    ∃ g' added, g.backward loss = .ok g' ∧ g.Gains g' added ∧
      ∀ direction, g.pairing added direction = g.tangent direction loss 0 := by
  obtain ⟨x, hx⟩ := hscalar
  have hone : ([1] : List ℝ).length = (g.reals loss).length := (length_reals hx).symm
  obtain ⟨grads, sums, hrun, hc, hpair⟩ :=
    g.transposes loss hreals [1] .empty g.zeroSums hone g.collects_empty
  refine ⟨g.addGradients grads, sums, ?_, hc.gains hgrads, fun direction => ?_⟩
  · rw [List.map_singleton, ← one_eq] at hrun
    simp [backward, hx, hrun, bind, Except.bind, pure, Except.pure]
  · rw [hpair, pairing_zeroSums, zero_add, along_singleton, one_mul]

end Graph

section Example

open Exact (logTotal)

/-- A graph with one parameter of two entries. -/
noncomputable def oneParameter : Graph Exact :=
  Graph.addParameter {} "w" [.real 0, .real 1]

/-- A loss in which the parameter occurs three times: the log-probability of its first
entry, and the log-sum-exp of both entries. Together they are the first entry. -/
def cancelling : Expr Exact :=
  .add (.pick (.logSoftmax (.parameter "w")) 0)
    (.logSumExp [.pick (.parameter "w") 0, .pick (.parameter "w") 1])

theorem get?_oneParameter {name : String} {p : Parameter Exact}
    (h : oneParameter.params.get? name = some p) :
    name = "w" ∧ p = .ofValue ([0, 1].map Exact.real) := by
  rw [oneParameter, Graph.addParameter, Table.get?_insert] at h
  split at h
  · rename_i hname
    exact ⟨hname, (Option.some.inj h).symm⟩
  · cases h

theorem evaluate_oneParameter :
    oneParameter.evaluate (.parameter "w") = .ok ([0, 1].map .real) :=
  Graph.evaluate_parameter (p := .ofValue ([0, 1].map Exact.real)) (Table.get?_insert ..)

theorem evaluate_logSoftmax_oneParameter :
    oneParameter.evaluate (.logSoftmax (.parameter "w")) =
      .ok ([0 - logTotal [0, 1], 1 - logTotal [0, 1]].map .real) := by
  rw [Graph.evaluate_logSoftmax evaluate_oneParameter]
  exact congrArg Except.ok (Exact.logSoftmax_real [0, 1])

theorem evaluate_logSumExp_oneParameter :
    oneParameter.evaluate (.logSumExp [.pick (.parameter "w") 0, .pick (.parameter "w") 1]) =
      .ok [.real (logTotal [0, 1])] := by
  have hscalars : oneParameter.scalars [.pick (.parameter "w") 0, .pick (.parameter "w") 1] =
      .ok ([0, 1].map .real) :=
    Graph.scalars_eq_ok_iff.mpr (.cons (Graph.evaluate_pick evaluate_oneParameter rfl)
      (.cons (Graph.evaluate_pick evaluate_oneParameter rfl) .nil))
  rw [Graph.evaluate_logSumExp hscalars, Exact.logSumExp_real (by simp)]

theorem hasReals_cancelling : oneParameter.HasReals cancelling := by
  have hw := evaluate_oneParameter
  have hout := evaluate_logSoftmax_oneParameter
  have hlse := evaluate_logSumExp_oneParameter
  have hfirst : oneParameter.evaluate (.pick (.logSoftmax (.parameter "w")) 0) =
      .ok [.real (0 - logTotal [0, 1])] := Graph.evaluate_pick hout rfl
  have hpick : ∀ index x, ([0, 1] : List ℝ)[index]? = some x → ∀ part : Expr Exact,
      part.PartOf (.pick (.parameter "w") index) →
        ∃ xs : List ℝ, oneParameter.evaluate part = .ok (xs.map real) := by
    intro index x hx part h
    cases h with
    | self =>
        refine ⟨[x], Graph.evaluate_pick hw ?_⟩
        rw [List.getElem?_map, hx]
        rfl
    | pick h =>
        cases h with
        | self => exact ⟨_, hw⟩
  intro part h
  cases h with
  | self => exact ⟨[_], Graph.evaluate_add_scalars hfirst hlse⟩
  | addLeft h =>
      cases h with
      | self => exact ⟨[_], hfirst⟩
      | pick h =>
          cases h with
          | self => exact ⟨_, hout⟩
          | logSoftmax h =>
              cases h with
              | self => exact ⟨_, hw⟩
  | addRight h =>
      cases h with
      | self => exact ⟨[_], hlse⟩
      | term hmem h =>
          rcases List.mem_pair.mp hmem with rfl | rfl
          · exact hpick 0 0 rfl part h
          · exact hpick 1 1 rfl part h

/-- In every direction the loss moves as the first entry of its parameter does. -/
theorem tangent_cancelling (direction : String → ℕ → ℝ) :
    oneParameter.tangent direction cancelling 0 = direction "w" 0 := by
  have hout := Graph.reals_of_evaluate evaluate_logSoftmax_oneParameter
  have hlse := Graph.realValue_of_evaluate evaluate_logSumExp_oneParameter
  have hpick : ∀ index x, ([0, 1] : List ℝ)[index]? = some x →
      oneParameter.realValue (.pick (.parameter "w") index) = x := fun index x hx =>
    Graph.realValue_of_evaluate
      (Graph.evaluate_pick evaluate_oneParameter (by rw [List.getElem?_map, hx]; rfl))
  simp [cancelling, Graph.tangent, Graph.tangents, Graph.termWeights, hout, hlse,
    hpick 0 0 rfl, hpick 1 1 rfl, along_cons, along_nil]

theorem exists_backward_cancelling :
    (∀ name p, oneParameter.params.get? name = some p → p.grad.length = p.value.length) ∧
      oneParameter.HasReals cancelling ∧ (∃ x, oneParameter.evaluate cancelling = .ok [x]) ∧
      ∃ g' added, oneParameter.backward cancelling = .ok g' ∧ oneParameter.Gains g' added ∧
        ∀ direction, oneParameter.pairing added direction = direction "w" 0 := by
  have hgrads : ∀ name p, oneParameter.params.get? name = some p →
      p.grad.length = p.value.length := by
    intro name p hp
    obtain ⟨-, rfl⟩ := get?_oneParameter hp
    simp [Parameter.ofValue]
  have hscalar : ∃ x, oneParameter.evaluate cancelling = .ok [x] :=
    ⟨_, Graph.evaluate_add_scalars
      (Graph.evaluate_pick evaluate_logSoftmax_oneParameter rfl)
      evaluate_logSumExp_oneParameter⟩
  obtain ⟨g', added, hrun, hgains, hpair⟩ :=
    oneParameter.exists_backward_eq cancelling hgrads hasReals_cancelling hscalar
  exact ⟨hgrads, hasReals_cancelling, hscalar, g', added, hrun, hgains,
    fun direction => (hpair direction).trans (tangent_cancelling direction)⟩

end Example

end ChoiceSearch
