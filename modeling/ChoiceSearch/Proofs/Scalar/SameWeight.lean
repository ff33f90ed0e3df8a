import ChoiceSearch.Proofs.Scalar.Division
import ChoiceSearch.Proofs.Scalar.Extended

/-!
# Weights that are the same to a search

A search distinguishes log-weights by the numbers they are, and rejects whatever is minus
infinity or not a number. So two log-weights are the same to it if they are the same scalar,
or zeros of whatever sign (`Scalar.SameNumber`), or if both of them are rejected
(`Scalar.SameWeight`). Addition keeps both relations, and comparison and shifting by a finite
maximum keep the first one. That asks of the scalars that addition is commutative and that
the sign of a zero matters nowhere but in zeros (`ScoringScalar`), and of the exponential
function that it is zero or not finite at what is rejected (`ExpScalar`).

Both exact scalars with infinities and machine numbers are scoring scalars. The exponential
of a machine number has no definition to reason about, so what is said of it is assumed
where it is needed.
-/

namespace ChoiceSearch

namespace Scalar

variable {R : Type} [Scalar R]

/-- The same scalar, or zeros of whatever sign. -/
inductive SameNumber : R → R → Prop
  | refl (x : R) : SameNumber x x
  | zeros {x y : R} : isZero x = true → isZero y = true → SameNumber x y

/-- The same number, or log-weights that are both rejected. -/
inductive SameWeight : R → R → Prop
  | number {x y : R} : SameNumber x y → SameWeight x y
  | rejected {x y : R} : admissible x = false → admissible y = false → SameWeight x y

end Scalar

open Scalar

/-- Scalars of which only zeros have a sign that is not seen, and whose sums do not depend on
the order of two summands. -/
class ScoringScalar (R : Type) [Scalar R] : Prop extends LawfulScalar R, ScreeningScalar R where
  add_comm : ∀ x y : R, x + y = y + x
  isZero_add : ∀ x y : R, isZero x = true → isZero y = true → isZero (x + y) = true
  isNaN_negInf : isNaN (negInf : R) = false
  /-- Nothing is less than minus infinity. -/
  less_negInf : ∀ x y : R, isNegInf y = true → less x y = false
  /-- Zeros compare alike. -/
  less_of_isZero : ∀ x y z : R, isZero x = true → isZero y = true →
    less x z = less y z ∧ less z x = less z y
  isFinite_of_isZero : ∀ x : R, isZero x = true → isFinite x = true
  /-- Differences with zeros are the same number for all zeros. -/
  sub_of_isZero : ∀ x y z : R, isZero x = true → isZero y = true →
    SameNumber (x - z) (y - z) ∧ SameNumber (z - x) (z - y)
  /-- What is rejected stays so when it is shifted by a finite number. -/
  admissible_sub : ∀ x y : R, admissible x = false → isFinite y = true →
    admissible (x - y) = false

/-- Scalars whose exponential function does not see the sign of a zero, and is zero or not
finite at what is rejected. -/
class ExpScalar (R : Type) [Scalar R] : Prop where
  exp_of_isZero : ∀ x y : R, isZero x = true → isZero y = true → exp x = exp y
  isZero_exp : ∀ x : R, admissible x = false → isFinite (exp x) = true → isZero (exp x) = true

namespace Scalar

variable {R : Type} [Scalar R] {x x' y y' : R}

/-! ## The same number -/

theorem SameNumber.symm (h : SameNumber x y) : SameNumber y x := by
  cases h with
  | refl => exact .refl x
  | zeros hx hy => exact .zeros hy hx

theorem SameNumber.trans {z : R} (h : SameNumber x y) (h' : SameNumber y z) :
    SameNumber x z := by
  cases h with
  | refl => exact h'
  | zeros hx hy =>
      cases h' with
      | refl => exact .zeros hx hy
      | zeros _ hz => exact .zeros hx hz

/-- Zero is not above zero. -/
theorem less_zero_of_isZero (h : isZero x = true) : less zero x = false := by
  obtain ⟨-, hless⟩ := (Bool.and_eq_true _ _).mp h
  exact (Bool.not_eq_true' _).mp hless

theorem isNaN_of_isZero (h : isZero x = true) : isNaN x = false := by
  obtain ⟨h, -⟩ := (Bool.and_eq_true _ _).mp h
  obtain ⟨h, -⟩ := (Bool.and_eq_true _ _).mp h
  exact (Bool.not_eq_true' _).mp h

/-- Zeros are admissible. -/
theorem admissible_of_isZero (h : isZero x = true) : admissible x = true := by
  have hnumber := isNaN_of_isZero h
  obtain ⟨h, -⟩ := (Bool.and_eq_true _ _).mp h
  obtain ⟨-, h⟩ := (Bool.and_eq_true _ _).mp h
  have hless : less x zero = false := (Bool.not_eq_true' _).mp h
  unfold admissible isNegInf
  rw [hnumber, hless, Bool.and_false]
  rfl

theorem SameNumber.admissible_eq (h : SameNumber x y) : admissible x = admissible y := by
  cases h with
  | refl => rfl
  | zeros hx hy => rw [admissible_of_isZero hx, admissible_of_isZero hy]

/-- The same admissible weight is the same number. -/
theorem SameWeight.sameNumber (h : SameWeight x y) (hx : admissible x = true) :
    SameNumber x y := by
  cases h with
  | number h => exact h
  | rejected hreject _ =>
      rw [hreject] at hx
      cases hx

theorem SameWeight.admissible_eq (h : SameWeight x y) : admissible x = admissible y := by
  cases h with
  | number h => exact h.admissible_eq
  | rejected hx hy => rw [hx, hy]

theorem SameNumber.isNaN_eq (h : SameNumber x y) : isNaN x = isNaN y := by
  cases h with
  | refl => rfl
  | zeros hx hy => rw [isNaN_of_isZero hx, isNaN_of_isZero hy]

theorem SameWeight.symm (h : SameWeight x y) : SameWeight y x := by
  cases h with
  | number h => exact .number h.symm
  | rejected hx hy => exact .rejected hy hx

theorem SameWeight.trans {z : R} (h : SameWeight x y) (h' : SameWeight y z) :
    SameWeight x z := by
  have hxy := h.admissible_eq
  have hyz := h'.admissible_eq
  cases hx : admissible x with
  | false => exact .rejected hx (by rw [← hyz, ← hxy, hx])
  | true =>
      have hy : admissible y = true := by rw [← hxy, hx]
      exact .number ((h.sameNumber hx).trans (h'.sameNumber hy))

theorem SameNumber.exp_eq [ExpScalar R] (h : SameNumber x y) : exp x = exp y := by
  cases h with
  | refl => rfl
  | zeros hx hy => exact ExpScalar.exp_of_isZero x y hx hy

theorem isNaN_larger (hx : isNaN x = false) (y : R) : isNaN (larger x y) = false := by
  unfold larger
  rw [if_neg (by simp [hx])]
  split
  · exact hx
  · rename_i hy
    split
    · exact (Bool.not_eq_true _).mp hy
    · exact hx

variable [ScoringScalar R]

theorem SameNumber.isFinite_eq (h : SameNumber x y) : isFinite x = isFinite y := by
  cases h with
  | refl => rfl
  | zeros hx hy =>
      rw [ScoringScalar.isFinite_of_isZero x hx, ScoringScalar.isFinite_of_isZero y hy]

theorem SameNumber.less_eq (h : SameNumber x x') (h' : SameNumber y y') :
    less x y = less x' y' := by
  have hleft : less x y = less x' y := by
    cases h with
    | refl => rfl
    | zeros hx hx' => exact (ScoringScalar.less_of_isZero x x' y hx hx').1
  have hright : less x' y = less x' y' := by
    cases h' with
    | refl => rfl
    | zeros hy hy' => exact (ScoringScalar.less_of_isZero y y' x' hy hy').2
  exact hleft.trans hright

theorem SameNumber.sub (h : SameNumber x x') (h' : SameNumber y y') :
    SameNumber (x - y) (x' - y') := by
  have hleft : SameNumber (x - y) (x' - y) := by
    cases h with
    | refl => exact .refl _
    | zeros hx hx' => exact (ScoringScalar.sub_of_isZero x x' y hx hx').1
  have hright : SameNumber (x' - y) (x' - y') := by
    cases h' with
    | refl => exact .refl _
    | zeros hy hy' => exact (ScoringScalar.sub_of_isZero y y' x' hy hy').2
  exact hleft.trans hright

/-- A zero that is added is not seen. -/
theorem sameNumber_add_of_isZero (x : R) {z : R} (hz : isZero z = true) :
    SameNumber (x + z) x := by
  cases hx : isNegZero x with
  | false =>
      rw [NeutralZero.add_of_isZero x z hx hz]
      exact .refl x
  | true =>
      obtain ⟨hzero, -⟩ := (Bool.and_eq_true _ _).mp hx
      exact .zeros (ScoringScalar.isZero_add x z hzero hz) hzero

theorem SameNumber.add_left (x : R) (h : SameNumber y y') : SameNumber (x + y) (x + y') := by
  cases h with
  | refl => exact .refl _
  | zeros hy hy' =>
      exact (sameNumber_add_of_isZero x hy).trans (sameNumber_add_of_isZero x hy').symm

theorem SameNumber.add (h : SameNumber x x') (h' : SameNumber y y') :
    SameNumber (x + y) (x' + y') := by
  refine (h'.add_left x).trans ?_
  rw [ScoringScalar.add_comm x, ScoringScalar.add_comm x']
  exact h.add_left y'

/-! ## The same weight -/

/-- A sum with something rejected is rejected. -/
theorem admissible_add_of_rejected (x : R) (hy : admissible y = false) :
    admissible (x + y) = false := by
  rw [← Bool.not_eq_true, ScoringScalar.add_comm x y]
  intro hsum
  rw [LawfulScalar.admissible_of_add y x hsum] at hy
  cases hy

theorem SameWeight.add_left (x : R) (h : SameWeight y y') : SameWeight (x + y) (x + y') := by
  cases h with
  | number h => exact .number (h.add_left x)
  | rejected hy hy' =>
      exact .rejected (admissible_add_of_rejected x hy) (admissible_add_of_rejected x hy')

theorem SameWeight.add_right (h : SameWeight x x') (y : R) : SameWeight (x + y) (x' + y) := by
  rw [ScoringScalar.add_comm x, ScoringScalar.add_comm x']
  exact h.add_left y

/-- Added to anything but negative zero, the same weights make the same sum, if one of the
sums is admissible. -/
theorem SameWeight.add_eq (hx : isNegZero x = false) (h : SameWeight y y')
    (hadm : admissible (x + y) = true) : x + y = x + y' := by
  cases h with
  | number h =>
      cases h with
      | refl => rfl
      | zeros hy hy' =>
          rw [NeutralZero.add_of_isZero x y hx hy, NeutralZero.add_of_isZero x y' hx hy']
  | rejected hy _ =>
      rw [admissible_add_of_rejected x hy] at hadm
      cases hadm

/-- What is rejected does not change a maximum. -/
theorem larger_of_rejected (hx : isNaN x = false) (hy : admissible y = false) :
    larger x y = x := by
  unfold larger
  rw [if_neg (by simp [hx])]
  cases hnan : isNaN y with
  | true => rfl
  | false =>
      have hinf : isNegInf y = true := by simpa [admissible, hnan] using hy
      rw [ScoringScalar.less_negInf x y hinf]
      rfl

/-- The larger one of the same numbers and the same weights is the same number. -/
theorem SameWeight.larger (h : SameNumber x x') (hx : isNaN x = false) (h' : SameWeight y y') :
    SameNumber (larger x y) (larger x' y') := by
  have hx' : isNaN x' = false := h.isNaN_eq ▸ hx
  cases h' with
  | rejected hy hy' =>
      rw [larger_of_rejected hx hy, larger_of_rejected hx' hy']
      exact h
  | number h' =>
      unfold Scalar.larger
      simp only [hx, hx', h'.isNaN_eq, h.less_eq h', Bool.false_eq_true, if_false]
      split
      · exact h
      · split
        · exact h'
        · exact h

/-- The same weights have the same maximum. -/
theorem sameNumber_maximum {xs ys : List R} (h : List.Forall₂ SameWeight xs ys) :
    SameNumber (maximum xs) (maximum ys) := by
  suffices hfold : ∀ {x y : R}, SameNumber x y → isNaN x = false →
      SameNumber (xs.foldl Scalar.larger x) (ys.foldl Scalar.larger y) from
    hfold (.refl negInf) ScoringScalar.isNaN_negInf
  induction h with
  | nil =>
      intro x y hxy _
      exact hxy
  | cons hxy _ ih =>
      intro x y hacc hx
      exact ih (hxy.larger hacc hx) (isNaN_larger hx _)

end Scalar

/-! ## Exact scalars -/

namespace Extended

instance : ScoringScalar Extended where
  add_comm := sum_comm
  isZero_add x y hx hy := by
    rw [(isZero_iff x).mp hx, (isZero_iff y).mp hy, isZero_iff]
    exact sum_zero _
  isNaN_negInf := rfl
  less_negInf x y hy := by
    rw [(isNegInf_iff y).mp hy, ← Bool.not_eq_true, less_iff]
    rintro ⟨-, hbelow⟩
    cases x with
    | nan => exact not_top_lt hbelow
    | negInf => exact lt_irrefl _ hbelow
    | posInf => exact not_lt_bot (WithTop.coe_lt_coe.mp hbelow)
    | real r => exact not_lt_bot (WithTop.coe_lt_coe.mp hbelow)
  less_of_isZero x y z hx hy := by
    rw [(isZero_iff x).mp hx, (isZero_iff y).mp hy]
    exact ⟨rfl, rfl⟩
  isFinite_of_isZero x hx := by
    rw [(isZero_iff x).mp hx]
    rfl
  sub_of_isZero x y z hx hy := by
    rw [(isZero_iff x).mp hx, (isZero_iff y).mp hy]
    exact ⟨.refl _, .refl _⟩
  admissible_sub x y hx hy := by
    have hy : ∃ r, y = .real r := by
      cases y with
      | real r => exact ⟨r, rfl⟩
      | nan | negInf | posInf => cases hy
    obtain ⟨r, rfl⟩ := hy
    rw [← Bool.not_eq_true] at hx ⊢
    exact fun hsum => hx (admissible_of_sum hsum).1

instance : ExpScalar Extended where
  exp_of_isZero x y hx hy := by
    rw [(isZero_iff x).mp hx, (isZero_iff y).mp hy]
  isZero_exp x hx hfinite := by
    cases x with
    | nan => cases hfinite
    | negInf => exact (isZero_iff _).mpr rfl
    | posInf => cases hfinite
    | real r => cases hx

end Extended

/-! ## Machine numbers -/

namespace Double

open Float.Model (Format UnpackedFloat)
open Float.Model.UnpackedFloat

theorem unpacked_sub (x y : Float) : unpacked (x - y) =
    unpack Format.binary64 (pack Format.binary64
      (sub Format.binary64 (unpacked x) (unpacked y))) := rfl

theorem add_comm_unpacked (u v : UnpackedFloat) :
    add Format.binary64 u v = add Format.binary64 v u := by
  cases u with
  | notANumber => cases v <;> rfl
  | infinity s =>
      cases v with
      | infinity s' => cases s <;> cases s' <;> rfl
      | notANumber | zero | finite => rfl
  | zero s =>
      cases v with
      | zero s' => cases s <;> cases s' <;> rfl
      | notANumber | infinity | finite => rfl
  | finite s m e hm =>
      cases v with
      | finite s' m' e' hm' =>
          unfold add
          dsimp only
          rw [min_comm e e', Int.add_comm]
      | notANumber | infinity | zero => rfl

/-- Whatever is subtracted from zeros, or zeros are subtracted from, the result is the same or
a zero. -/
theorem sub_zero_cases (s s' : Sign) (v : UnpackedFloat) :
    (sub Format.binary64 (.zero s) v = sub Format.binary64 (.zero s') v ∨
      ∃ t t', sub Format.binary64 (.zero s) v = .zero t ∧
        sub Format.binary64 (.zero s') v = .zero t') ∧
    (sub Format.binary64 v (.zero s) = sub Format.binary64 v (.zero s') ∨
      ∃ t t', sub Format.binary64 v (.zero s) = .zero t ∧
        sub Format.binary64 v (.zero s') = .zero t') := by
  cases v with
  | zero t =>
      constructor
      · exact .inr (by cases s <;> cases s' <;> cases t <;> exact ⟨_, _, rfl, rfl⟩)
      · exact .inr (by cases s <;> cases s' <;> cases t <;> exact ⟨_, _, rfl, rfl⟩)
  | notANumber | infinity | finite => exact ⟨.inl rfl, .inl rfl⟩

/-- Differences are the same number if they are computed as the same thing or as zeros. -/
theorem sameNumber_sub {x y x' y' : Float}
    (h : sub Format.binary64 (unpacked x) (unpacked y) =
        sub Format.binary64 (unpacked x') (unpacked y') ∨
      ∃ t t', sub Format.binary64 (unpacked x) (unpacked y) = .zero t ∧
        sub Format.binary64 (unpacked x') (unpacked y') = .zero t') :
    Scalar.SameNumber (x - y) (x' - y') := by
  rcases h with heq | ⟨t, t', ht, ht'⟩
  · have hsub : x - y = x' - y' :=
      congrArg (fun u => Float.ofModel (Float.Model.pack u)) heq
    rw [hsub]
    exact .refl _
  · refine .zeros ((isZero_iff _).mpr ⟨t, ?_⟩) ((isZero_iff _).mpr ⟨t', ?_⟩)
    · rw [unpacked_sub, ht, unpack_pack_zero]
    · rw [unpacked_sub, ht', unpack_pack_zero]

theorem lt_infinity_negative (u : UnpackedFloat) : u.lt (.infinity .negative) = false := by
  cases u with
  | infinity s => cases s <;> rfl
  | notANumber | zero | finite => rfl

/-- The sign of a zero is not seen in a comparison. -/
theorem lt_zero_eq (s s' : Sign) (u : UnpackedFloat) :
    (UnpackedFloat.zero s).lt u = (UnpackedFloat.zero s').lt u ∧
      u.lt (.zero s) = u.lt (.zero s') := by
  cases u with
  | infinity t => cases t <;> exact ⟨rfl, rfl⟩
  | finite t => cases t <;> exact ⟨rfl, rfl⟩
  | notANumber | zero => exact ⟨rfl, rfl⟩

theorem notANumber_sub (v : UnpackedFloat) : sub Format.binary64 .notANumber v = .notANumber := by
  cases v <;> rfl

theorem negInf_sub {v : UnpackedFloat} (hv : v.isFinite = true) :
    sub Format.binary64 (.infinity .negative) v = .infinity .negative := by
  cases v with
  | notANumber | infinity => cases hv
  | zero | finite => rfl

end Double

instance : ScoringScalar Float where
  add_comm x y := congrArg (fun u => Float.ofModel (Float.Model.pack u))
    (Double.add_comm_unpacked (Double.unpacked x) (Double.unpacked y))
  isZero_add x y hx hy := by
    obtain ⟨s, hs⟩ := (Double.isZero_iff x).mp hx
    obtain ⟨s', hs'⟩ := (Double.isZero_iff y).mp hy
    refine (Double.isZero_iff _).mpr ?_
    rw [Double.unpacked_add, hs, hs']
    cases s <;> cases s' <;> exact ⟨_, rfl⟩
  isNaN_negInf := rfl
  less_negInf x y hy := by
    rw [Double.less_eq_lt, (Double.isNegInf_iff y).mp hy, Double.lt_infinity_negative]
  less_of_isZero x y z hx hy := by
    obtain ⟨s, hs⟩ := (Double.isZero_iff x).mp hx
    obtain ⟨s', hs'⟩ := (Double.isZero_iff y).mp hy
    rw [Double.less_eq_lt, Double.less_eq_lt, Double.less_eq_lt, Double.less_eq_lt, hs, hs']
    exact Double.lt_zero_eq s s' _
  isFinite_of_isZero x hx := by
    obtain ⟨s, hs⟩ := (Double.isZero_iff x).mp hx
    rw [Double.isFinite_eq, hs]
    rfl
  sub_of_isZero x y z hx hy := by
    obtain ⟨s, hs⟩ := (Double.isZero_iff x).mp hx
    obtain ⟨s', hs'⟩ := (Double.isZero_iff y).mp hy
    have hcases := Double.sub_zero_cases s s' (Double.unpacked z)
    rw [← hs, ← hs'] at hcases
    exact ⟨Double.sameNumber_sub hcases.1, Double.sameNumber_sub hcases.2⟩
  admissible_sub x y hx hy := by
    rw [← Bool.not_eq_true, Double.admissible_iff, not_and_or, not_not, not_not] at hx ⊢
    rw [Double.unpacked_sub]
    rcases hx with hnan | hinf
    · rw [hnan, Double.notANumber_sub]
      exact .inl rfl
    · rw [hinf, Double.negInf_sub (Double.isFinite_eq y ▸ hy)]
      exact .inr (Double.unpack_pack_infinity .negative)

end ChoiceSearch
