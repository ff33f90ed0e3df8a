import ChoiceSearch.Marginals
import ChoiceSearch.Proofs.Scalar.LogSumExp

/-!
# Marginal distributions

The marginal distribution of executions lists their values, each with its share of the summed
weights. Values are compared by any equality that is an equivalence, so the listed ones are the
first of their classes (`List.eraseDups`), and which of them stands for a class makes no
difference to the shares.

The list grows while the executions are read, and what is listed after some of them are the
distinct values among those with their shares so far (`foldl_addMass`). The shares of all
executions are normalised by a log-sum-exp, whose exponential is the partition function, so they
sum up to one, and executions that pass a test have the conditional distribution
(`Marginals.distribution_normalised_conditioned`).
-/

namespace ChoiceSearch

/-! ## Distinct values -/

section Distinct

variable {α : Type} [BEq α] [EquivBEq α]

/-- A value joins the distinct ones if it is equal to none of them. -/
theorem eraseDups_concat (vs : List α) (v : α) : (vs ++ [v]).eraseDups =
    if vs.any (· == v) then vs.eraseDups else vs.eraseDups ++ [v] := by
  induction hn : vs.length using Nat.strong_induction_on generalizing vs with
  | _ n ih =>
      cases vs with
      | nil => rfl
      | cons w vs =>
          rw [List.cons_append, List.eraseDups_cons, List.eraseDups_cons, List.filter_append,
            List.any_cons]
          cases hw : v == w with
          | true =>
              rw [List.filter_cons_of_neg (by simp [hw]), List.filter_nil, List.append_nil,
                BEq.symm hw, Bool.true_or, if_pos rfl]
          | false =>
              -- what is equal to `w` is not equal to `v`
              have hany : (vs.filter fun x => !x == w).any (· == v) = vs.any (· == v) := by
                rw [List.any_filter]
                congr 1
                funext x
                cases hx : x == v with
                | true => rw [BEq.congr_left hx, hw]; rfl
                | false => exact Bool.and_false _
              have hlen : (vs.filter fun x => !x == w).length < n :=
                hn ▸ Nat.lt_succ_of_le (List.length_filter_le _ _)
              rw [List.filter_cons_of_pos (by simp [hw]), List.filter_nil,
                ih _ hlen _ rfl, hany, BEq.symm_false hw, Bool.false_or]
              split <;> rfl

theorem any_eraseDups (vs : List α) (v : α) : vs.eraseDups.any (· == v) = vs.any (· == v) := by
  induction vs using List.reverseRecOn with
  | nil => rfl
  | append_singleton vs w ih =>
      rw [eraseDups_concat, List.any_append]
      split
      · rename_i hw
        obtain ⟨x, hx, hxw⟩ := List.any_eq_true.mp hw
        rw [ih]
        cases hwv : w == v with
        | false => simp [hwv]
        | true =>
            have hany : vs.any (· == v) = true :=
              List.any_eq_true.mpr ⟨x, hx, BEq.trans hxw hwv⟩
            rw [hany, Bool.true_or]
      · rw [List.any_append, ih]

/-- The distinct values are distinct. -/
theorem pairwise_eraseDups (vs : List α) :
    vs.eraseDups.Pairwise fun v w => (v == w) = false := by
  induction vs using List.reverseRecOn with
  | nil => exact .nil
  | append_singleton vs v ih =>
      rw [eraseDups_concat]
      split
      · exact ih
      · rename_i hv
        rw [← any_eraseDups, List.any_eq_true] at hv
        refine List.pairwise_append.mpr ⟨ih, List.pairwise_singleton _ _, fun w hw x hx => ?_⟩
        obtain rfl := List.mem_singleton.mp hx
        exact (Bool.not_eq_true _).mp fun heq => hv ⟨w, hw, heq⟩

end Distinct

namespace Marginals

/-! ## Collecting the shares -/

section Collecting

variable {α D : Type} [BEq α]

/-- The sum over the executions with a value. -/
def sumAt (f : Execution α D Exact → ℝ) (es : List (Execution α D Exact)) (v : α) : ℝ :=
  ((es.filter (·.value == v)).map f).sum

theorem sumAt_concat (f : Execution α D Exact → ℝ) (es : List (Execution α D Exact))
    (e : Execution α D Exact) (v : α) : sumAt f (es ++ [e]) v =
      if e.value == v then sumAt f es v + f e else sumAt f es v := by
  unfold sumAt
  rw [List.filter_append, List.map_append, List.sum_append]
  cases hv : e.value == v with
  | true => simp [hv]
  | false => simp [hv]

theorem sumAt_of_absent {f : Execution α D Exact → ℝ} {es : List (Execution α D Exact)} {v : α}
    (h : ∀ e ∈ es, (e.value == v) = false) : sumAt f es v = 0 := by
  have hnil : es.filter (·.value == v) = [] :=
    List.filter_eq_nil_iff.mpr fun e he => (Bool.not_eq_true _).mpr (h e he)
  unfold sumAt
  rw [hnil]
  rfl

/-- Adding to an entry leaves the others as they are; a value without an entry gets one. -/
theorem addMass_map [EquivBEq α] {vs : List α} (hvs : vs.Pairwise fun v w => (v == w) = false)
    {f : α → ℝ} {v : α} (hf : vs.any (· == v) = false → f v = 0) (p : ℝ) :
    addMass v (.real p) (vs.map fun w => (w, Exact.real (f w))) =
      (if vs.any (· == v) then vs else vs ++ [v]).map
        fun w => (w, Exact.real (if v == w then f w + p else f w)) := by
  induction vs with
  | nil =>
      show [(v, Exact.real p)] = [(v, Exact.real (if v == v then f v + p else f v))]
      rw [if_pos BEq.rfl, hf rfl, zero_add]
  | cons w vs ih =>
      obtain ⟨hw, hrest⟩ := List.pairwise_cons.mp hvs
      rw [List.map_cons, addMass]
      rw [List.any_cons] at hf ⊢
      cases hwv : w == v with
      | true =>
          -- the entries behind have other values
          have hother : (vs.map fun x => (x, Exact.real (f x))) =
              vs.map fun x => (x, Exact.real (if v == x then f x + p else f x)) := by
            refine List.map_congr_left fun x hx => ?_
            rw [← BEq.congr_left hwv, hw x hx, if_neg Bool.false_ne_true]
          rw [if_pos rfl, Bool.true_or, if_pos rfl, List.map_cons, BEq.symm hwv, if_pos rfl,
            ← hother]
          rfl
      | false =>
          rw [hwv, Bool.false_or] at hf
          rw [if_neg Bool.false_ne_true, ih hrest hf, Bool.false_or]
          have hhead : (if vs.any (· == v) then w :: vs else w :: vs ++ [v]) =
              w :: if vs.any (· == v) then vs else vs ++ [v] := by
            split <;> rfl
          rw [hhead, List.map_cons, BEq.symm_false hwv, if_neg Bool.false_ne_true]

/-- **What is listed after some executions** are the distinct values among those, each with the
sum over its executions. -/
theorem foldl_addMass [EquivBEq α] (f : Execution α D Exact → ℝ)
    (es : List (Execution α D Exact)) :
    es.foldl (fun out e => addMass e.value (Exact.real (f e)) out) [] =
      (es.map (·.value)).eraseDups.map fun v => (v, Exact.real (sumAt f es v)) := by
  induction es using List.reverseRecOn with
  | nil => rfl
  | append_singleton es e ih =>
      have hnew : (es.map (·.value)).eraseDups.any (· == e.value) = false →
          sumAt f es e.value = 0 := by
        intro hnone
        rw [any_eraseDups, List.any_map] at hnone
        exact sumAt_of_absent fun x hx => (Bool.not_eq_true _).mp (List.any_eq_false.mp hnone x hx)
      rw [List.foldl_append, List.foldl_cons, List.foldl_nil, ih,
        addMass_map (pairwise_eraseDups _) hnew, any_eraseDups, List.map_append,
        List.map_singleton, eraseDups_concat]
      simp only [sumAt_concat]

/-- What is added to an entry is added to the sum of all entries. -/
theorem sum_addMass (v : α) (p : Exact) (out : List (α × Exact)) :
    Scalar.sum ((addMass v p out).map (·.2)) = Scalar.sum (out.map (·.2)) + p := by
  have hshift : ∀ (xs : List Exact) (x y : Exact),
      xs.foldl (· + ·) (x + y) = xs.foldl (· + ·) x + y := by
    intro xs
    induction xs with
    | nil => exact fun _ _ => rfl
    | cons z xs ih =>
        intro x y
        rw [List.foldl_cons, List.foldl_cons, ← ih, Exact.sum_assoc, Exact.sum_comm y,
          ← Exact.sum_assoc]
  unfold Scalar.sum
  generalize (-Scalar.zero : Exact) = start
  induction out generalizing start with
  | nil => rfl
  | cons entry out ih =>
      obtain ⟨w, q⟩ := entry
      rw [addMass]
      split
      · rw [List.map_cons, List.foldl_cons, List.map_cons, List.foldl_cons, ← Exact.sum_assoc,
          hshift]
      · rw [List.map_cons, List.foldl_cons, List.map_cons, List.foldl_cons, ih]

/-- All entries together have the sum over all executions. -/
theorem sum_foldl_addMass (f : Execution α D Exact → ℝ) (es : List (Execution α D Exact)) :
    Scalar.sum ((es.foldl (fun out e => addMass e.value (Exact.real (f e)) out) []).map (·.2)) =
      .real (es.map f).sum := by
  induction es using List.reverseRecOn with
  | nil => exact congrArg Exact.real neg_zero
  | append_singleton es e ih =>
      rw [List.foldl_append, List.foldl_cons, List.foldl_nil, sum_addMass, ih, List.map_append,
        List.sum_append, List.map_singleton, List.sum_singleton, Exact.real_add]

end Collecting

/-! ## Real log-weights -/

variable {α D : Type} {m : Marginals α D Exact}

/-- The executions have real log-weights. -/
def Finite (m : Marginals α D Exact) : Prop := ∀ e ∈ m.executions, ∃ x : ℝ, e.logProb = .real x

/-- The summed weights of the executions. -/
noncomputable def mass (m : Marginals α D Exact) : ℝ :=
  (m.executions.map (·.logProb.weight)).sum

theorem Finite.filter (h : m.Finite) (p : Execution α D Exact → Bool) : (m.filter p).Finite :=
  fun e he => h e (List.mem_of_mem_filter he)

theorem Finite.exists_reals (h : m.Finite) :
    ∃ xs : List ℝ, m.executions.map (·.logProb) = xs.map .real := by
  refine ⟨m.executions.map (·.logProb.toReal), ?_⟩
  rw [List.map_map]
  refine List.map_congr_left fun e he => ?_
  obtain ⟨x, hx⟩ := h e he
  rw [Function.comp_apply, hx, Exact.toReal_real]

theorem Finite.mass_pos (h : m.Finite) (hne : m.executions ≠ []) : 0 < m.mass := by
  refine List.sum_pos _ (fun x hx => ?_) (by simpa using hne)
  obtain ⟨e, he, rfl⟩ := List.mem_map.mp hx
  obtain ⟨y, hy⟩ := h e he
  rw [hy]
  exact Real.exp_pos y

theorem Finite.partition_eq (h : m.Finite) : m.partition = .real m.mass := by
  have hprobs : m.executions.map (·.prob) = m.executions.map fun e => .real e.logProb.weight := by
    refine List.map_congr_left fun e he => ?_
    obtain ⟨x, hx⟩ := h e he
    exact Exact.exp_eq_weight (by rw [hx]; exact Exact.admissible_real x)
  rw [partition, hprobs, Exact.sum_map_real]
  rfl

theorem Finite.logPartition_eq (h : m.Finite) (hne : m.executions ≠ []) :
    m.logPartition = .real (Real.log m.mass) := by
  obtain ⟨xs, hxs⟩ := h.exists_reals
  have hxne : xs ≠ [] := by
    rintro rfl
    exact hne (by simpa using hxs)
  have hweights : m.executions.map (·.logProb.weight) = xs.map Real.exp := by
    calc m.executions.map (·.logProb.weight)
        = (m.executions.map (·.logProb)).map Exact.weight := by
          rw [List.map_map]
          rfl
      _ = xs.map Real.exp := by
          rw [hxs, List.map_map]
          rfl
  rw [logPartition, hxs, Exact.logSumExp_real hxne, mass, hweights]
  rfl

/-! ## Shares -/

/-- The share of the executions that pass a test in the summed weights. -/
noncomputable def share (m : Marginals α D Exact) (p : Execution α D Exact → Bool) : ℝ :=
  (m.filter p).mass / m.mass

/-- The share of an execution. -/
noncomputable def shareOf (m : Marginals α D Exact) (e : Execution α D Exact) : ℝ :=
  e.logProb.weight / m.mass

/-- Executions are normalised to their shares. -/
theorem Finite.exp_sub_logPartition (h : m.Finite) {e : Execution α D Exact}
    (he : e ∈ m.executions) :
    Scalar.exp (e.logProb - m.logPartition) = .real (m.shareOf e) := by
  have hne := List.ne_nil_of_mem he
  obtain ⟨x, hx⟩ := h e he
  rw [h.logPartition_eq hne, shareOf, hx]
  show Exact.real (Real.exp (x - Real.log m.mass)) = .real (Real.exp x / m.mass)
  rw [Real.exp_sub, Real.exp_log (h.mass_pos hne)]

theorem sum_shareOf (m : Marginals α D Exact) (p : Execution α D Exact → Bool) :
    ((m.executions.filter p).map m.shareOf).sum = m.share p := by
  unfold share shareOf mass filter
  simp only [div_eq_mul_inv, List.sum_map_mul_right]

/-- The share among the executions that pass a test is the conditional one. -/
theorem share_filter (m : Marginals α D Exact) (p q : Execution α D Exact → Bool)
    (hmass : m.mass ≠ 0) : (m.filter p).share q = m.share (fun e => q e && p e) / m.share p := by
  unfold share
  rw [div_div_div_cancel_right₀ hmass]
  unfold filter
  rw [List.filter_filter]

section Values

variable [BEq α]

theorem Finite.distribution_eq_foldl (h : m.Finite) :
    m.distribution = m.executions.foldl
      (fun out e => addMass e.value (Exact.real (m.shareOf e)) out) [] := by
  unfold distribution
  refine List.foldl_ext _ _ _ fun out e he => ?_
  rw [h.exp_sub_logPartition he]

/-- The probabilities sum up to one. -/
theorem Finite.sum_distribution (h : m.Finite) (hne : m.executions ≠ []) :
    Scalar.sum (m.distribution.map (·.2)) = Scalar.one := by
  have hall : (m.executions.map m.shareOf).sum = 1 := by
    unfold shareOf
    simp only [div_eq_mul_inv, List.sum_map_mul_right]
    exact mul_inv_cancel₀ (h.mass_pos hne).ne'
  rw [h.distribution_eq_foldl, sum_foldl_addMass, hall]
  rfl

/-- A value that does not occur has no share. -/
theorem share_of_absent {v : α} (h : ∀ e ∈ m.executions, (e.value == v) = false) :
    m.share (·.value == v) = 0 := by
  rw [← sum_shareOf]
  exact sumAt_of_absent h

variable [EquivBEq α]

/-- The marginal distribution lists the distinct values with their shares. -/
theorem Finite.distribution_eq (h : m.Finite) :
    m.distribution = (m.executions.map (·.value)).eraseDups.map
      fun v => (v, Exact.real (m.share (·.value == v))) := by
  rw [h.distribution_eq_foldl, foldl_addMass]
  simp only [sumAt, sum_shareOf]

/-- The probability of a value is its share. -/
theorem Finite.probability_eq (h : m.Finite) (v : α) :
    m.probability v = .real (m.share (·.value == v)) := by
  unfold probability
  rw [h.distribution_eq, List.find?_map]
  cases hfind : (m.executions.map (·.value)).eraseDups.find?
      ((fun x => x.1 == v) ∘ fun v => (v, Exact.real (m.share (·.value == v)))) with
  | some w =>
      -- the listed value is equal to the given one
      have hw := List.find?_some hfind
      have hsame : (fun e : Execution α D Exact => e.value == w) = fun e => e.value == v :=
        funext fun e => BEq.congr_right (show (w == v) = true from hw)
      show Exact.real (m.share (·.value == w)) = _
      rw [hsame]
  | none =>
      have hnone : (m.executions.map (·.value)).any (· == v) = false := by
        rw [← any_eraseDups, List.any_eq_false]
        exact List.find?_eq_none.mp hfind
      rw [List.any_map, List.any_eq_false] at hnone
      rw [share_of_absent fun e he => (Bool.not_eq_true _).mp (hnone e he)]
      rfl

end Values

/-! ## The marginal distribution -/

/-- The marginal distribution of executions is the normalised distribution of their values. -/
structure Normalised [BEq α] (m : Marginals α D Exact) : Prop where
  /-- The two partition functions agree: one is the summed weight of the executions, the other
  its logarithm. -/
  partition : Scalar.exp m.logPartition = m.partition ∧ m.partition = .real m.mass
  /-- The values are listed in the order of first appearance. -/
  values : m.distribution.map (·.1) = (m.executions.map (·.value)).eraseDups
  /-- No two of them are equal. -/
  distinct : (m.distribution.map (·.1)).Pairwise fun v w => (v == w) = false
  /-- The value of every execution is listed. -/
  listed : ∀ e ∈ m.executions, ∃ entry ∈ m.distribution, (entry.1 == e.value) = true
  /-- Each has the summed weight of the executions with it, divided by the partition function. -/
  entry : ∀ entry ∈ m.distribution, entry.2 = .real (m.share (·.value == entry.1))
  /-- The probabilities sum up to one. -/
  total : Scalar.sum (m.distribution.map (·.2)) = Scalar.one
  /-- The probability of a value is the one listed. -/
  probability : ∀ v, m.probability v = .real (m.share (·.value == v))
  /-- A value that does not occur has probability zero. -/
  absent : ∀ v, (∀ e ∈ m.executions, (e.value == v) = false) → m.probability v = Scalar.zero

theorem Finite.isNormalised [BEq α] [EquivBEq α] (h : m.Finite) (hne : m.executions ≠ []) :
    m.Normalised where
  partition := by
    rw [h.logPartition_eq hne, h.partition_eq, Exact.exp_real, Real.exp_log (h.mass_pos hne)]
    exact ⟨rfl, rfl⟩
  values := by
    rw [h.distribution_eq, List.map_map]
    exact List.map_id _
  distinct := by
    rw [h.distribution_eq, List.map_map]
    exact (List.map_id _).symm ▸ pairwise_eraseDups _
  listed e he := by
    have hany : (m.executions.map (·.value)).eraseDups.any (· == e.value) = true := by
      rw [any_eraseDups]
      exact List.any_eq_true.mpr ⟨e.value, List.mem_map_of_mem he, BEq.rfl⟩
    obtain ⟨v, hv, heq⟩ := List.any_eq_true.mp hany
    rw [h.distribution_eq]
    exact ⟨_, List.mem_map_of_mem hv, heq⟩
  entry entry hentry := by
    rw [h.distribution_eq] at hentry
    obtain ⟨v, -, rfl⟩ := List.mem_map.mp hentry
    rfl
  total := h.sum_distribution hne
  probability := h.probability_eq
  absent v hv := by
    rw [h.probability_eq, share_of_absent hv]
    rfl

/-- The executions that pass a test keep their order and have the conditional distribution, if
there are any. -/
structure Conditioned [BEq α] (m : Marginals α D Exact) (p : Execution α D Exact → Bool) :
    Prop where
  /-- The executions are kept in order. -/
  executions : (m.filter p).executions = m.executions.filter p
  /-- What passes is normalised again. -/
  restricted : (∃ e ∈ m.executions, p e = true) → (m.filter p).Normalised
  /-- A value is listed with its conditional probability. -/
  entry : (∃ e ∈ m.executions, p e = true) → ∀ entry ∈ (m.filter p).distribution,
    entry.2 = .real (m.share (fun e => e.value == entry.1 && p e) / m.share p)
  /-- The probability of a value is the conditional one. -/
  probability : (∃ e ∈ m.executions, p e = true) → ∀ v,
    (m.filter p).probability v = .real (m.share (fun e => e.value == v && p e) / m.share p)

/-- **The marginal distribution of executions with real log-weights** is normalised, and tests
condition it. -/
theorem distribution_normalised_conditioned [BEq α] [EquivBEq α] (hne : m.executions ≠ [])
    (h : m.Finite) : m.Normalised ∧ ∀ p, m.Conditioned p := by
  refine ⟨h.isNormalised hne, fun p => ?_⟩
  have hmass := (h.mass_pos hne).ne'
  have hrest : (∃ e ∈ m.executions, p e = true) → (m.filter p).Normalised := by
    rintro ⟨e, he, hp⟩
    exact (h.filter p).isNormalised (List.ne_nil_of_mem (List.mem_filter.mpr ⟨he, hp⟩))
  refine ⟨rfl, hrest, fun hsome entry hentry => ?_, fun hsome v => ?_⟩
  · rw [(hrest hsome).entry entry hentry, share_filter m p _ hmass]
  · rw [(hrest hsome).probability v, share_filter m p _ hmass]

end Marginals

/-- Three executions of the same weight, with two values. -/
noncomputable def letters : Marginals Char Unit Exact where
  executions := ['a', 'b', 'a'].map fun c => { value := c, env := .init, logProb := .real 0 }
  iterations := 1

/-- One of the letters has two thirds of the weight. -/
theorem distribution_letters : (letters.executions ≠ [] ∧ letters.Finite) ∧
    (letters.Normalised ∧ ∀ p, letters.Conditioned p) ∧
    letters.probability 'a' = .real (2 / 3) := by
  have hne : letters.executions ≠ [] := List.cons_ne_nil _ _
  have hfinite : letters.Finite := by
    simp [Marginals.Finite, letters]
  have hboth := Marginals.distribution_normalised_conditioned hne hfinite
  refine ⟨⟨hne, hfinite⟩, hboth, ?_⟩
  rw [hboth.1.probability]
  simp [Marginals.share, Marginals.mass, Marginals.filter, letters, Exact.weight]
  norm_num

end ChoiceSearch
