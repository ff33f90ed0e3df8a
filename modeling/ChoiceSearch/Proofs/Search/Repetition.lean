import ChoiceSearch.Proofs.Log.Statistics
import ChoiceSearch.Proofs.Frontier.KBest
import ChoiceSearch.Proofs.Search.Sampling

/-!
# Repeated sampling

Drawing several executions is drawing them one after the other, each with the generator that the
one before has left (`Setting.outcomes`), and sorting what comes out. A rejected path yields no
execution and takes its numbers from the generator all the same; any other error ends the
sampling (`GoesOn`). Samples are drawn in the same order whatever their number, so fewer samples
find a part of what more of them find.

`Setting.sampleMany_composes_sample` holds for every generator and for all scalars that the
sorting order tells apart or ties as machine numbers are (`LawfulScalar`).
-/

namespace ChoiceSearch

open Scalar

variable {α D κ R : Type}

/-! ## Stable sorting -/

section Sorting

variable [Scalar R]

/-- Whether the sorting order ties two executions. -/
def tied (x y : Execution α D R) : Bool :=
  !below x.logProb y.logProb && !below y.logProb x.logProb

/-- The one list has the executions of the other one, best first, and those that are tied in the
order that they had. -/
structure SortedFrom (executions sorted : List (Execution α D R)) : Prop where
  perm : sorted.Perm executions
  descending : sorted.Pairwise fun x y => below x.logProb y.logProb = false
  stable : ∀ e, sorted.filter (tied e) = executions.filter (tied e)

/-- Sorting executions by log-weight is stable. -/
theorem sortedFrom_mergeSort [LawfulScalar R] (executions : List (Execution α D R)) :
    SortedFrom executions
      (executions.mergeSort fun x y => !below x.logProb y.logProb) := by
  have htrans := fun x y z : Execution α D R =>
    bestFirst_trans (x.logProb, ()) (y.logProb, ()) (z.logProb, ())
  have htotal := fun x y : Execution α D R => bestFirst_total (x.logProb, ()) (y.logProb, ())
  have hperm := List.mergeSort_perm executions fun x y => !below x.logProb y.logProb
  refine ⟨hperm, ?_, fun e => ?_⟩
  · refine (List.pairwise_mergeSort htrans htotal executions).imp ?_
    intro x y h
    rwa [Bool.not_eq_true'] at h
  · -- what is tied with `e` is tied with each other, so it keeps its order
    have hties : (executions.filter (tied e)).Pairwise
        fun x y => (!below x.logProb y.logProb) = true := by
      refine List.pairwise_of_forall_mem_list ?_
      intro x hx y hy
      obtain ⟨-, hxe⟩ := (Bool.and_eq_true _ _).mp (List.mem_filter.mp hx).2
      obtain ⟨hey, -⟩ := (Bool.and_eq_true _ _).mp (List.mem_filter.mp hy).2
      exact htrans x e y hxe hey
    have hsub := (List.sublist_mergeSort htrans htotal hties List.filter_sublist).filter (tied e)
    rw [List.filter_filter] at hsub
    simp only [Bool.and_self] at hsub
    exact (hsub.eq_of_length (hperm.filter _).length_eq.symm).symm

end Sorting

/-! ## Outcomes -/

/-- Sampling goes on after an execution and after a rejected path. -/
def GoesOn (outcome : Result R α) : Prop :=
  (∃ e, outcome = .ok e) ∨ outcome = .error (.failed .sampleFailed)

/-- Either sampling goes on after all outcomes, or there is a first one that ends it. -/
theorem goesOn_or_exists_first (outcomes : List (Result R α)) :
    (∀ o ∈ outcomes, GoesOn o) ∨ ∃ before halt after,
      outcomes = before ++ .error halt :: after ∧ (∀ o ∈ before, GoesOn o) ∧
        halt ≠ .failed .sampleFailed := by
  induction outcomes with
  | nil => exact .inl nofun
  | cons o outcomes ih =>
      by_cases ho : GoesOn o
      · rcases ih with hall | ⟨before, halt, after, rfl, hbefore, hhalt⟩
        · exact .inl (List.forall_mem_cons.mpr ⟨ho, hall⟩)
        · exact .inr ⟨o :: before, halt, after, rfl, List.forall_mem_cons.mpr ⟨ho, hbefore⟩, hhalt⟩
      · cases o with
        | ok e => exact absurd (.inl ⟨e, rfl⟩) ho
        | error halt =>
            refine .inr ⟨[], halt, outcomes, rfl, nofun, ?_⟩
            rintro rfl
            exact ho (.inr rfl)

/-- The executions among some outcomes, in order. -/
def executionsOf (outcomes : List (Result R α)) : List α := outcomes.filterMap Except.toOption

theorem executionsOf_ok (e : α) (outcomes : List (Result R α)) :
    executionsOf (.ok e :: outcomes) = e :: executionsOf outcomes := rfl

theorem executionsOf_error (halt : Halt R) (outcomes : List (Result R α)) :
    executionsOf (.error halt :: outcomes) = executionsOf outcomes := rfl

namespace Setting

variable [Scalar R] {G : Type} [Generator G R] (S : Setting D κ R) (program : Program D κ R)
  (env : Env D R)

/-- The outcomes of samples that are drawn one after the other, each with the generator that the
one before has left. -/
def outcomes : Nat → G → List (Result R (Execution (Value D R) D R))
  | 0, _ => []
  | count + 1, g =>
    let (outcome, g) := (S.sample program env g).value
    outcome :: outcomes count g

theorem length_outcomes (count : Nat) (g : G) :
    (S.outcomes program env count g).length = count := by
  induction count generalizing g with
  | zero => rfl
  | succ count ih => exact congrArg (· + 1) (ih _)

/-- Fewer samples have the first outcomes of more samples. -/
theorem outcomes_eq_take {n m : Nat} (h : n ≤ m) (g : G) :
    S.outcomes program env n g = (S.outcomes program env m g).take n := by
  induction n generalizing m g with
  | zero => rfl
  | succ n ih =>
      obtain ⟨m, rfl⟩ : ∃ k, m = k + 1 := ⟨m - 1, by omega⟩
      exact congrArg (_ :: ·) (ih (by omega) _)

section Runs

variable {S program env} {count i : Nat} {samples : Samples D R} {g : G}

/-- If sampling goes on after every outcome, the executions are collected and the rejected
paths are counted. -/
theorem value_sampleFrom (i : Nat) (samples : Samples D R)
    (h : ∀ o ∈ S.outcomes program env count g, GoesOn o) :
    ∃ rejected, (S.sampleFrom program env count i samples g).value = .ok {
        executions := (executionsOf (S.outcomes program env count g)).reverse ++ samples.executions
        rejected := samples.rejected + rejected } ∧
      rejected + (executionsOf (S.outcomes program env count g)).length = count := by
  induction count generalizing i samples g with
  | zero => exact ⟨0, rfl, rfl⟩
  | succ count ih =>
      rw [sampleFrom]
      simp only [bind, Logged.andThen, Logged.emit]
      unfold outcomes at h ⊢
      rcases hrun : (S.sample program env g).value with ⟨o, g'⟩
      rw [hrun] at h
      obtain ⟨ho, hrest⟩ := List.forall_mem_cons.mp h
      -- both ways the other samples go on with the generator of this one
      rcases ho with ⟨e, rfl⟩ | rfl
      · obtain ⟨rejected, hvalue, hcount⟩ := ih (i + 1)
          { samples with executions := e :: samples.executions } hrest
        dsimp only
        rw [executionsOf_ok, List.reverse_cons, List.append_assoc, List.length_cons]
        exact ⟨rejected, hvalue, by omega⟩
      · obtain ⟨rejected, hvalue, hcount⟩ := ih (i + 1)
          { samples with rejected := samples.rejected + 1 } hrest
        dsimp only
        rw [executionsOf_error]
        refine ⟨rejected + 1, hvalue.trans ?_, by omega⟩
        rw [Nat.add_assoc, Nat.add_comm 1]

/-- The first other error ends the sampling. -/
theorem value_sampleFrom_of_stops {before after : List (Result R (Execution (Value D R) D R))}
    {halt : Halt R} (h : S.outcomes program env count g = before ++ .error halt :: after)
    (hbefore : ∀ o ∈ before, GoesOn o) (hhalt : halt ≠ .failed .sampleFailed) :
    (S.sampleFrom program env count i samples g).value = .error halt := by
  induction count generalizing i samples g before with
  | zero =>
      unfold outcomes at h
      exact absurd h.symm (List.append_ne_nil_of_right_ne_nil _ (List.cons_ne_nil _ _))
  | succ count ih =>
      rw [sampleFrom]
      simp only [bind, Logged.andThen, Logged.emit]
      unfold outcomes at h
      rcases hrun : (S.sample program env g).value with ⟨o, g'⟩
      rw [hrun] at h
      cases before with
      | nil =>
          obtain ⟨rfl, -⟩ := List.cons.inj h
          -- only a rejected path is treated apart
          cases halt with
          | outOfFuel => rfl
          | failed e =>
              cases e with
              | sampleFailed => exact absurd rfl hhalt
              | _ => rfl
      | cons first before =>
          obtain ⟨rfl, hrest⟩ := List.cons.inj h
          obtain ⟨ho, hlater⟩ := List.forall_mem_cons.mp hbefore
          rcases ho with ⟨e, rfl⟩ | rfl
          · exact ih hrest hlater
          · exact ih hrest hlater

/-- If an outcome ends the sampling, repeated sampling ends with its error. -/
theorem value_sampleMany_of_stops {before after : List (Result R (Execution (Value D R) D R))}
    {halt : Halt R} (h : S.outcomes program env count g = before ++ .error halt :: after)
    (hbefore : ∀ o ∈ before, GoesOn o) (hhalt : halt ≠ .failed .sampleFailed) :
    (S.sampleMany count program env g).value = .error halt := by
  unfold sampleMany
  simp only [bind, Logged.andThen]
  rw [value_sampleFrom_of_stops h hbefore hhalt]
  rfl

/-- Sampling has gone on after every outcome if it has a result. -/
theorem goesOn_of_value_sampleMany {m : Marginals (Value D R) D R}
    (h : (S.sampleMany count program env g).value = .ok m) :
    ∀ o ∈ S.outcomes program env count g, GoesOn o := by
  rcases goesOn_or_exists_first (S.outcomes program env count g) with
    hall | ⟨before, halt, after, heq, hbefore, hhalt⟩
  · exact hall
  · rw [value_sampleMany_of_stops heq hbefore hhalt] at h
    cases h

/-- Repeated sampling sorts what was collected and logs how many paths were rejected. -/
theorem sampleMany_of_ok (h : (S.sampleFrom program env count 0 {} g).value = .ok samples) :
    (S.sampleMany count program env g).value = .ok {
        executions := samples.executions.reverse.mergeSort fun x y =>
          !below x.logProb y.logProb
        iterations := count } ∧
      statisticsNamed "rejected_samples" (S.sampleMany count program env g).events =
        [(count, Scalar.ofNat samples.rejected)] := by
  have hquiet := S.statisticsNamed_sampleFrom "rejected_samples" program env count 0 {} g
  unfold sampleMany
  simp only [bind, Logged.andThen, statisticsNamed_append]
  rw [h, hquiet]
  exact ⟨rfl, rfl⟩

end Runs

/-- What repeated sampling does, compared with samples that are drawn one after the other with
the same generator. -/
structure Repeats (count : Nat) (g : G) : Prop where
  /-- There are as many outcomes as samples. -/
  samples : (S.outcomes program env count g).length = count
  /-- It ends with an error if and only if one of the samples does, other than with a rejected
  path, and then with the first such error. -/
  error : ∀ halt, (S.sampleMany count program env g).value = .error halt ↔
    ∃ before after, S.outcomes program env count g = before ++ .error halt :: after ∧
      (∀ o ∈ before, GoesOn o) ∧ halt ≠ .failed .sampleFailed
  /-- Else there is a result. -/
  ok : (∀ o ∈ S.outcomes program env count g, GoesOn o) →
    ∃ m, (S.sampleMany count program env g).value = .ok m
  /-- A result has the executions that were found, sorted, and the number of samples. -/
  result : ∀ m, (S.sampleMany count program env g).value = .ok m →
    SortedFrom (executionsOf (S.outcomes program env count g)) m.executions ∧
      m.iterations = count
  /-- The samples that are no executions are logged as rejected. -/
  log : ∀ m, (S.sampleMany count program env g).value = .ok m →
    statisticsNamed "rejected_samples" (S.sampleMany count program env g).events =
      [(count, Scalar.ofNat (count - m.executions.length))]
  /-- Fewer samples find a part of the executions. -/
  fewer : ∀ n ≤ count, ∀ m m', (S.sampleMany n program env g).value = .ok m →
    (S.sampleMany count program env g).value = .ok m' → m.executions.Subperm m'.executions

variable {S program env} [LawfulScalar R] {count : Nat} {g : G}

/-- If sampling goes on after every outcome, the result has the sorted executions, and everything
else was rejected. -/
theorem sampleMany_of_goesOn (h : ∀ o ∈ S.outcomes program env count g, GoesOn o) :
    ∃ m, (S.sampleMany count program env g).value = .ok m ∧
      SortedFrom (executionsOf (S.outcomes program env count g)) m.executions ∧
      m.iterations = count ∧
      statisticsNamed "rejected_samples" (S.sampleMany count program env g).events =
        [(count, Scalar.ofNat (count - m.executions.length))] := by
  obtain ⟨rejected, hvalue, hcount⟩ := value_sampleFrom 0 {} h
  obtain ⟨hmany, hlog⟩ := sampleMany_of_ok hvalue
  have hsorted := sortedFrom_mergeSort (executionsOf (S.outcomes program env count g))
  simp only [List.append_nil, List.reverse_reverse, Nat.zero_add] at hmany hlog
  refine ⟨_, hmany, hsorted, rfl, ?_⟩
  rw [hlog, hsorted.perm.length_eq, ← Nat.sub_eq_of_eq_add hcount.symm]

/-- A result has the executions among the outcomes, sorted. -/
theorem of_value_sampleMany {m : Marginals (Value D R) D R}
    (h : (S.sampleMany count program env g).value = .ok m) :
    SortedFrom (executionsOf (S.outcomes program env count g)) m.executions ∧
      m.iterations = count ∧
      statisticsNamed "rejected_samples" (S.sampleMany count program env g).events =
        [(count, Scalar.ofNat (count - m.executions.length))] := by
  obtain ⟨m', hvalue, hm'⟩ := sampleMany_of_goesOn (goesOn_of_value_sampleMany h)
  obtain rfl : m' = m := Except.ok.inj (hvalue.symm.trans h)
  exact hm'

/-- Fewer samples find a part of the executions that more samples find. -/
theorem subperm_of_value_sampleMany {n : Nat} (hn : n ≤ count)
    {m m' : Marginals (Value D R) D R} (h : (S.sampleMany n program env g).value = .ok m)
    (h' : (S.sampleMany count program env g).value = .ok m') :
    m.executions.Subperm m'.executions := by
  have hpart : (executionsOf (S.outcomes program env n g)).Sublist
      (executionsOf (S.outcomes program env count g)) := by
    rw [outcomes_eq_take S program env hn g]
    exact (List.take_sublist n _).filterMap _
  exact (of_value_sampleMany h).1.perm.subperm.trans
    (hpart.subperm.trans (of_value_sampleMany h').1.perm.symm.subperm)

/-- Repeated sampling is the composition of single samples, whatever the program, the score, the
environment, the graph, the generator and the number of samples. -/
theorem sampleMany_composes_sample (S : Setting D κ R) (program : Program D κ R) (env : Env D R)
    (count : Nat) (g : G) : S.Repeats program env count g where
  samples := S.length_outcomes program env count g
  error halt := by
    constructor
    · intro h
      rcases goesOn_or_exists_first (S.outcomes program env count g) with
        hall | ⟨before, halt', after, heq, hbefore, hhalt⟩
      · obtain ⟨m, hm, -⟩ := sampleMany_of_goesOn hall
        rw [hm] at h
        cases h
      · obtain rfl : halt' = halt :=
          Except.error.inj ((value_sampleMany_of_stops heq hbefore hhalt).symm.trans h)
        exact ⟨before, after, heq, hbefore, hhalt⟩
    · rintro ⟨before, after, heq, hbefore, hhalt⟩
      exact value_sampleMany_of_stops heq hbefore hhalt
  ok h := (sampleMany_of_goesOn h).imp fun _ hm => hm.1
  result _ h := ⟨(of_value_sampleMany h).1, (of_value_sampleMany h).2.1⟩
  log _ h := (of_value_sampleMany h).2.2
  fewer _ hn _ _ h h' := subperm_of_value_sampleMany hn h h'

end Setting

/-! ## A penny with one good side -/

/-- A penny. -/
noncomputable def penny : Program Bool Unit Exact :=
  .bind (.choose none [true, false] none) [{ name := none, code := () }]

/-- Heads is a value, tails has no way on. -/
noncomputable def oneSided : Setting Bool Unit Exact where
  codes :=
    { resume := fun _ v => .ok (match v with
        | .data true => .value v
        | _ => .fail)
      consult := fun _ _ => .error .outOfFuel }
  graph := Graph.view {}
  score _ _ _ := Scalar.zero
  fuel := 4

/-- The penny offers two sides that can both be drawn; after heads a path is finished, after tails
nothing is left to choose. -/
theorem exists_transitions_penny : ∃ (root : State Bool Unit Exact) (stack : List (Frame Unit))
    (path : Path Bool Exact) (a b : Alternative Bool Exact),
    (State.initial penny .init).scored oneSided.score = some root ∧
    advance oneSided.codes oneSided.graph 4 root.program root.stack root.path =
      .ok (.choice none [a, b] none stack path) ∧
    (∀ x ∈ [a, b], Scalar.admissible (oneSided.drawWeight none x) = true) ∧
    (let s := oneSided.offerOf none none stack path 0 a
     ∃ value last, advance oneSided.codes oneSided.graph 4 s.program s.stack s.path =
      .ok (.finished value last)) ∧
    (let s := oneSided.offerOf none none stack path 1 b
     ∃ rest last, advance oneSided.codes oneSided.graph 4 s.program s.stack s.path =
      .ok (.choice none [] none rest last)) := by
  refine ⟨_, _, _, _, _, rfl, rfl, ?_, ⟨_, _, rfl⟩, _, _, rfl⟩
  intro x hx
  rcases List.mem_pair.mp hx with rfl | rfl
  · exact Exact.admissible_iff.mpr ⟨_, rfl⟩
  · exact Exact.admissible_iff.mpr ⟨_, rfl⟩

/-- Some number makes a sample of heads, some other one a rejected path. -/
theorem exists_numbers_penny : ∃ (heads tails : Set.Ico (0 : ℝ) 1)
    (e : Execution (Value Bool Exact) Bool Exact),
    (∀ d : Draws, d.upcoming.head = heads →
      (oneSided.sample penny .init d).value = (.ok e, d.after 1)) ∧
    ∀ d : Draws, d.upcoming.head = tails →
      (oneSided.sample penny .init d).value = (.error (.failed .sampleFailed), d.after 1) := by
  obtain ⟨root, stack, path, a, b, hroot, hadv, hadm, ⟨value, last, hheads⟩, rest, last', htails⟩ :=
    exists_transitions_penny
  have hsample : ∀ d : Draws, (oneSided.sample penny .init d).value =
      (Result.sampled (oneSided.walk 4 root.program root.stack root.path d).1,
        (oneSided.walk 4 root.program root.stack root.path d).2) := by
    intro d
    rw [Setting.value_sample, Setting.samplePath_of_scored hroot]
    rfl
  have hscore : Scalar.admissible (oneSided.score none none last.env) = true :=
    Exact.admissible_iff.mpr ⟨0, rfl⟩
  have hfirst : ([a, b].map (oneSided.drawWeight none))[0]? = some (oneSided.drawWeight none a) :=
    rfl
  have hsecond : ([a, b].map (oneSided.drawWeight none))[1]? = some (oneSided.drawWeight none b) :=
    rfl
  obtain ⟨heads, hdrawHeads⟩ := exists_number_draws hfirst (hadm a (by simp))
  obtain ⟨tails, hdrawTails⟩ := exists_number_draws hsecond (hadm b (by simp))
  refine ⟨heads, tails, { value, env := last.env, logProb := last.logProb + Scalar.zero },
    fun d hd => ?_, fun d hd => ?_⟩
  · rw [hsample, Setting.walk_of_drawn (n := 3) hadv rfl (hdrawHeads d hd),
      Setting.walk_of_finished (n := 2) hheads,
      if_pos hscore]
    rfl
  · rw [hsample, Setting.walk_of_drawn (n := 3) hadv rfl (hdrawTails d hd),
      Setting.walk_of_undrawn (n := 2) htails (draw_of_rejected (List.forall_mem_nil _) _)]
    rfl

/-- Heads, tails and heads again make two executions and one rejected path. -/
theorem sampleMany_penny : ∃ d : Draws,
    (∃ e, oneSided.outcomes penny .init 3 d = [.ok e, .error (.failed .sampleFailed), .ok e]) ∧
    oneSided.Repeats penny .init 3 d := by
  obtain ⟨heads, tails, e, hheads, htails⟩ := exists_numbers_penny
  let d : Draws := ⟨Stream'.cons heads (Stream'.cons tails (Stream'.const heads)), 0⟩
  refine ⟨d, ⟨e, ?_⟩, Setting.sampleMany_composes_sample oneSided penny .init 3 d⟩
  have hfirst := hheads d rfl
  have hsecond := htails (d.after 1) rfl
  have hthird := hheads ((d.after 1).after 1) rfl
  simp only [Setting.outcomes, hfirst, hsecond, hthird]

end ChoiceSearch
