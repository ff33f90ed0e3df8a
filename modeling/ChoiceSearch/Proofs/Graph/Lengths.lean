import ChoiceSearch.Graph.Descent
import ChoiceSearch.Proofs.Graph.Shapes
import ChoiceSearch.Proofs.Graph.Step
import ChoiceSearch.Proofs.Table

/-!
# Lengths decide which expressions have values

`Expr.measure` runs an expression on lengths in place of vectors. It ends as the evaluation
does, with the length of the value or with the same error (`Graph.map_length_evaluate`), so
two graphs with parameters of the same names and lengths evaluate the same expressions.

Every call that changes a graph in training is an update of each parameter that keeps the
length of its value (`Graph.sameShape_apply`). So an expression that has a value keeps one,
whatever calls are made, and an error stays the same error.
-/

namespace ChoiceSearch

/-- A computation with a result seen through a function, step by step. -/
theorem map_bind_eq {ε α α' β β' : Type} {f : α → α'} {k : β → β'} {first : Except ε α}
    {first' : Except ε α'} {next : α → Except ε β} {next' : α' → Except ε β'}
    (hfirst : first.map f = first') (hnext : ∀ a, (next a).map k = next' (f a)) :
    (first >>= next).map k = first' >>= next' := by
  subst hfirst
  cases first with
  | error e => rfl
  | ok a => exact hnext a

namespace Expr

variable {R : Type}

mutual

/-- The length of the value of an expression, from the lengths of the parameters, or the
error of an expression without a value. -/
def measure (lengths : String → Option Nat) : Expr R → Except (Error R) Nat
  | .parameter name =>
    match lengths name with
    | some n => .ok n
    | none => .error (.unknownParameter name)
  | .constant values => .ok values.length
  | .pick vector index => do
    let n ← measure lengths vector
    if index < n then .ok 1 else .error (.shapeMismatch (index + 1) n)
  | .logSoftmax vector => measure lengths vector
  | .add left right => do
    let m ← measure lengths left
    let n ← measure lengths right
    if m = n then .ok m else .error (.shapeMismatch m n)
  | .neg vector => measure lengths vector
  | .logSumExp terms => do
    measureTerms lengths terms
    return 1

/-- Checks that expressions are scalars, up to the first that is none. -/
def measureTerms (lengths : String → Option Nat) : List (Expr R) → Except (Error R) Unit
  | [] => .ok ()
  | term :: rest => do
    let n ← measure lengths term
    if n = 1 then measureTerms lengths rest else .error (.shapeMismatch 1 n)

end

end Expr

namespace Graph

variable {R : Type} [Scalar R]

/-! ### Evaluating measures -/

omit [Scalar R] in
/-- The length of the value of a parameter. -/
def valueLength (g : Graph R) (name : String) : Option Nat :=
  (g.params.get? name).map (·.value.length)

/-- Terms that are measured one by one are measured in a row. -/
theorem map_scalars {g : Graph R} {terms : List (Expr R)}
    (h : ∀ term ∈ terms, (g.evaluate term).map List.length = term.measure g.valueLength) :
    (g.scalars terms).map (fun _ => ()) = Expr.measureTerms g.valueLength terms := by
  induction terms with
  | nil => rfl
  | cons term terms ih =>
      obtain ⟨hterm, hterms⟩ := List.forall_mem_cons.mp h
      rw [scalars, Expr.measureTerms]
      refine map_bind_eq hterm fun values => ?_
      -- the value of a term is a scalar, or the first list that is none ends the run
      match values with
      | [] => rfl
      | [x] =>
          rw [List.length_singleton, if_pos rfl, ← ih hterms]
          cases g.scalars terms <;> rfl
      | x :: y :: rest =>
          rw [if_neg (by simp)]
          rfl

/-- Evaluating an expression and measuring it end alike. -/
theorem map_length_evaluate (g : Graph R) :
    ∀ e : Expr R, (g.evaluate e).map List.length = e.measure g.valueLength
  | .parameter name => by
      rw [evaluate, Expr.measure, valueLength]
      cases g.params.get? name <;> rfl
  | .constant values => by
      rw [evaluate, Expr.measure]
      rfl
  | .pick vector index => by
      rw [evaluate, Expr.measure]
      refine map_bind_eq (g.map_length_evaluate vector) fun values => ?_
      by_cases hindex : index < values.length
      · rw [if_pos hindex, List.getElem?_eq_getElem hindex]
        rfl
      · rw [if_neg hindex, List.getElem?_eq_none (Nat.le_of_not_lt hindex)]
        rfl
  | .logSoftmax vector => by
      rw [evaluate, Expr.measure, ← g.map_length_evaluate vector]
      cases g.evaluate vector with
      | error e => rfl
      | ok values =>
          show Except.ok (Scalar.logSoftmax values).length = Except.ok values.length
          rw [Scalar.logSoftmax, List.length_map]
  | .add left right => by
      rw [evaluate, Expr.measure]
      refine map_bind_eq (g.map_length_evaluate left) fun xs => ?_
      refine map_bind_eq (g.map_length_evaluate right) fun ys => ?_
      by_cases hlength : xs.length = ys.length
      · rw [if_pos hlength, if_pos (beq_iff_eq.mpr hlength)]
        show Except.ok (List.zipWith (· + ·) xs ys).length = Except.ok xs.length
        rw [List.length_zipWith, ← hlength, Nat.min_self]
      · rw [if_neg hlength, if_neg (mt beq_iff_eq.mp hlength)]
        rfl
  | .neg vector => by
      rw [evaluate, Expr.measure, ← g.map_length_evaluate vector]
      cases g.evaluate vector with
      | error e => rfl
      | ok values =>
          show Except.ok (values.map (-·)).length = Except.ok values.length
          rw [List.length_map]
  | .logSumExp terms => by
      rw [evaluate, Expr.measure]
      exact map_bind_eq (map_scalars fun term _ => g.map_length_evaluate term) fun _ => rfl

/-! ### Evaluations that end alike -/

omit [Scalar R] in
/-- Two results of the same shape: vectors of one length, or one error. -/
inductive EndAlike : Except (Error R) (List R) → Except (Error R) (List R) → Prop
  | values {xs ys : List R} (h : xs.length = ys.length) : EndAlike (.ok xs) (.ok ys)
  | failures (e : Error R) : EndAlike (.error e) (.error e)

omit [Scalar R] in
theorem endAlike_of_map_length {x y : Except (Error R) (List R)}
    (h : x.map List.length = y.map List.length) : EndAlike x y := by
  cases x with
  | error e =>
      cases y with
      | error e' =>
          cases h
          exact .failures e
      | ok ys => cases h
  | ok xs =>
      cases y with
      | error e' => cases h
      | ok ys => exact .values (Except.ok.inj h)

omit [Scalar R] in
/-- Two graphs have parameters of the same names, and the vectors of one name have the same
length. -/
structure SameShape (g g' : Graph R) : Prop where
  /-- The names are the same. -/
  names : ∀ name, name ∈ g.params.names ↔ name ∈ g'.params.names
  /-- The lengths are the same. -/
  lengths : ∀ name p p', g.params.get? name = some p → g'.params.get? name = some p' →
    p.value.length = p'.value.length

omit [Scalar R] in
theorem SameShape.valueLength_eq {g g' : Graph R} (h : g.SameShape g') :
    g.valueLength = g'.valueLength := by
  funext name
  have hnames := h.names name
  rw [Table.mem_names, Table.mem_names] at hnames
  unfold valueLength
  cases hp : g.params.get? name with
  | none =>
      cases hp' : g'.params.get? name with
      | none => rfl
      | some p' =>
          obtain ⟨p, hsome⟩ := hnames.mpr ⟨p', hp'⟩
          rw [hp] at hsome
          cases hsome
  | some p =>
      obtain ⟨p', hp'⟩ := hnames.mp ⟨p, hp⟩
      rw [hp']
      exact congrArg some (h.lengths name p p' hp hp')

/-- Graphs of the same shape evaluate the same expressions. -/
theorem SameShape.endAlike {g g' : Graph R} (h : g.SameShape g') (e : Expr R) :
    EndAlike (g.evaluate e) (g'.evaluate e) := by
  apply endAlike_of_map_length
  rw [map_length_evaluate, map_length_evaluate, h.valueLength_eq]

/-! ### Calls that change a graph -/

section SameShape

omit [Scalar R]

theorem SameShape.refl (g : Graph R) : g.SameShape g where
  names _ := Iff.rfl
  lengths name p p' hp hp' := by
    rw [hp] at hp'
    rw [Option.some.inj hp']

theorem SameShape.trans {g g' g'' : Graph R} (h : g.SameShape g') (h' : g'.SameShape g'') :
    g.SameShape g'' where
  names name := (h.names name).trans (h'.names name)
  lengths name p p'' hp hp'' := by
    obtain ⟨p', hp'⟩ := Table.mem_names.mp ((h.names name).mp (Table.mem_names.mpr ⟨p, hp⟩))
    rw [h.lengths name p p' hp hp', h'.lengths name p' p'' hp' hp'']

/-- An update of every parameter that keeps the length of its value. -/
theorem sameShape_map (g : Graph R) {f : String → Parameter R → Parameter R}
    (hf : ∀ name p, (f name p).value.length = p.value.length) :
    g.SameShape { g with params := g.params.map f } where
  names name := by rw [Table.names_map]
  lengths name p p' hp hp' := by
    rw [Table.get?_map, hp] at hp'
    rw [← Option.some.inj hp', hf]

end SameShape

/-- Descent keeps the length of a vector, whatever the length of its gradient. -/
theorem length_descend (rate : R) (values grad : List R) :
    (Descent.descend rate values grad).length = values.length := by
  induction values generalizing grad with
  | nil => rfl
  | cons v vs ih =>
      cases grad with
      | nil => rfl
      | cons g gs => rw [Descent.descend, List.length_cons, ih, List.length_cons]

/-- A call that changes a graph while it is trained. -/
inductive Change (R : Type) where
  /-- A loss is differentiated. -/
  | backward (loss : Expr R)
  /-- The gradients are cleared. -/
  | zeroGrad
  /-- The graph is renewed. -/
  | renew
  /-- A step of descent is made, at whatever rate it has by then. -/
  | update (d : Descent R)

/-- The graph that a call leaves, also one that fails. -/
def Change.apply (g : Graph R) : Change R → Graph R
  | .backward loss => ((differentiate loss).run.run g).2
  | .zeroGrad => g.zeroGrad
  | .renew => g.renew
  | .update d => d.update g

/-- No call changes the shape of a graph. -/
theorem sameShape_apply (g : Graph R) (change : Change R) : g.SameShape (change.apply g) := by
  cases change with
  | backward loss =>
      rw [Change.apply, run_differentiate]
      cases hrun : g.backward loss with
      | error e => exact SameShape.refl g
      | ok g' =>
          obtain ⟨grads, -, rfl⟩ := exists_of_backward_eq_ok hrun
          -- only gradients are added to
          refine g.sameShape_map fun name p => ?_
          split <;> rfl
  | zeroGrad => exact g.sameShape_map fun _ _ => rfl
  | renew => exact ⟨fun _ => Iff.rfl, (SameShape.refl g).lengths⟩
  | update d => exact g.sameShape_map fun _ p => length_descend d.rate p.value p.grad

/-- No sequence of calls changes the shape of a graph. -/
theorem sameShape_foldl (changes : List (Change R)) (g : Graph R) :
    g.SameShape (changes.foldl Change.apply g) := by
  induction changes generalizing g with
  | nil => exact SameShape.refl g
  | cons change changes ih => exact (g.sameShape_apply change).trans (ih (change.apply g))

/-- **Whether an expression has a value depends on shapes only.** Over two graphs with
parameters of the same names and lengths every expression has values of the same length or
fails with the same error. Differentiating losses, clearing gradients, renewals and steps of
descent, in any number and order, leave a graph of the same shape, so that an expression
with a value keeps one of the same length, and one without fails with the same error as
before. -/
theorem endAlike_of_sameShape :
    (∀ g g' : Graph R, g.SameShape g' → ∀ e, EndAlike (g.evaluate e) (g'.evaluate e)) ∧
      ∀ (g : Graph R) (changes : List (Change R)),
        g.SameShape (changes.foldl Change.apply g) ∧
          ∀ e, EndAlike (g.evaluate e) ((changes.foldl Change.apply g).evaluate e) := by
  refine ⟨fun g g' h e => h.endAlike e, fun g changes => ?_⟩
  have hshape := sameShape_foldl changes g
  exact ⟨hshape, fun e => hshape.endAlike e⟩

/-- The graph `weighted` with other weights. -/
def reweighted : Graph Float :=
  (addParameter {} "bias" [-3]).addParameter "weight" [0, 2.5]

theorem sameShape_reweighted : weighted.SameShape reweighted where
  names name := by
    show name ∈ ["weight", "bias"] ↔ name ∈ ["bias", "weight"]
    simp only [List.mem_cons, List.not_mem_nil, or_false]
    exact or_comm
  lengths name p p' hp hp' := by
    unfold weighted at hp
    unfold reweighted at hp'
    simp only [addParameter, Table.get?_insert, Table.get?_empty] at hp hp'
    split at hp
    · grind [Parameter.ofValue]
    · grind [Parameter.ofValue]

/-- An entry of a normalized parameter has a value over both graphs; an entry beyond the end is
the same error. -/
theorem endAlike_reweighted :
    weighted.SameShape reweighted ∧
      EndAlike (weighted.evaluate (.pick (.logSoftmax (.parameter "weight")) 1))
        (reweighted.evaluate (.pick (.logSoftmax (.parameter "weight")) 1)) ∧
      EndAlike (weighted.evaluate (.pick (.parameter "bias") 1))
        (reweighted.evaluate (.pick (.parameter "bias") 1)) ∧
      weighted.evaluate (.pick (.parameter "bias") 1) = .error (.shapeMismatch 2 1) :=
  ⟨sameShape_reweighted,
    endAlike_of_sameShape.1 _ _ sameShape_reweighted _,
    endAlike_of_sameShape.1 _ _ sameShape_reweighted _, rfl⟩

end Graph

end ChoiceSearch
