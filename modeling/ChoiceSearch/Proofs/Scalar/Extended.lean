import ChoiceSearch.Proofs.Scalar.Neutral
import Mathlib.Data.ENNReal.Real

/-!
# Exact scalars with both infinities

Real numbers with plus and minus infinity and something that is not a number, added and
compared as machine numbers are, but without rounding. There is one zero, and dividing by it
takes it for a positive one. Addition is commutative and associative for all scalars: a sum
of opposite infinities is not a number, and never becomes one again (`Extended.sum_assoc`).

Infinite log-weights belong to infinite weights. `Extended.weight` is the weight of a
log-weight, and `Extended.ofMass` reads a weight as a scalar; both are extended nonnegative
reals, in which sums and products of weights are computed.
-/

namespace ChoiceSearch

/-- A real number, one of the two infinities, or something that is not a number. -/
inductive Extended where
  /-- Not a number. -/
  | nan
  /-- Minus infinity. -/
  | negInf
  /-- Plus infinity. -/
  | posInf
  /-- A real number. -/
  | real (x : ℝ)

namespace Extended

/-- Whether the scalar is not a number. -/
def isNaN : Extended → Bool
  | .nan => true
  | _ => false

/-- The infinity with the given sign; there is none without a sign. -/
def infinity : SignType → Extended
  | .pos => .posInf
  | .neg => .negInf
  | .zero => .nan

/-- The sign of a number. -/
noncomputable def sign : Extended → SignType
  | .real x => SignType.sign x
  | .posInf => 1
  | .negInf => -1
  | .nan => 0

/-- The sum; that of opposite infinities is not a number. -/
noncomputable def add : Extended → Extended → Extended
  | .real x, .real y => .real (x + y)
  | .real _, y => y
  | x, .real _ => x
  | .negInf, .negInf => .negInf
  | .posInf, .posInf => .posInf
  | _, _ => .nan

/-- The negation. -/
noncomputable def neg : Extended → Extended
  | .real x => .real (-x)
  | .posInf => .negInf
  | .negInf => .posInf
  | .nan => .nan

/-- The product; that of zero and an infinity is not a number. -/
noncomputable def mul : Extended → Extended → Extended
  | .real x, .real y => .real (x * y)
  | .nan, _ => .nan
  | _, .nan => .nan
  | x, y => infinity (x.sign * y.sign)

/-- The quotient; that of two zeros or of two infinities is not a number. -/
noncomputable def div : Extended → Extended → Extended
  | .real x, .real y => if y = 0 then infinity (SignType.sign x) else .real (x / y)
  | .real _, .posInf => .real 0
  | .real _, .negInf => .real 0
  | .posInf, .real y => if y = 0 then .posInf else infinity (SignType.sign y)
  | .negInf, .real y => if y = 0 then .negInf else infinity (-SignType.sign y)
  | _, _ => .nan

/-- The exponential function. -/
noncomputable def exp : Extended → Extended
  | .real x => .real (Real.exp x)
  | .negInf => .real 0
  | .posInf => .posInf
  | .nan => .nan

/-- The logarithm; that of a negative number is not a number. -/
noncomputable def log : Extended → Extended
  | .real x => if 0 < x then .real (Real.log x) else if x = 0 then .negInf else .nan
  | .posInf => .posInf
  | _ => .nan

/-- The place of a scalar in the order: what is not a number comes last. -/
noncomputable def rank : Extended → WithTop EReal
  | .nan => ⊤
  | .posInf => ((⊤ : EReal) : WithTop EReal)
  | .negInf => ((⊥ : EReal) : WithTop EReal)
  | .real x => ((x : EReal) : WithTop EReal)

noncomputable instance : Scalar Extended where
  add := add
  sub x y := add x (neg y)
  mul := mul
  div := div
  neg := neg
  zero := .real 0
  one := .real 1
  negInf := .negInf
  exp := exp
  log := log
  ofNat n := .real n
  isNaN := isNaN
  isFinite
    | .real _ => true
    | _ => false
  less x y := !y.isNaN && decide (x.rank < y.rank)
  below x y := decide (x.rank < y.rank)

/-! ## Order and addition -/

theorem below_iff (x y : Extended) : Scalar.below x y = true ↔ x.rank < y.rank :=
  decide_eq_true_iff

theorem less_iff (x y : Extended) :
    Scalar.less x y = true ↔ y.isNaN = false ∧ x.rank < y.rank := by
  show (!y.isNaN && decide (x.rank < y.rank)) = true ↔ _
  rw [Bool.and_eq_true, Bool.not_eq_true', decide_eq_true_iff]

theorem rank_injective : Function.Injective rank := by
  intro x y h
  cases x <;> cases y <;> simp_all [rank]

theorem isNegInf_iff (x : Extended) : Scalar.isNegInf x = true ↔ x = .negInf := by
  cases x with
  | nan => simp [Scalar.isNegInf, Scalar.isNaN, isNaN]
  | real r => simp [Scalar.isNegInf, Scalar.isFinite]
  | negInf =>
      have hless : Scalar.less Extended.negInf Scalar.zero = true :=
        (less_iff _ _).mpr ⟨rfl, WithTop.coe_lt_coe.mpr EReal.bot_lt_zero⟩
      unfold Scalar.isNegInf
      rw [hless]
      exact iff_of_true rfl rfl
  | posInf =>
      have hless : ¬ Scalar.less Extended.posInf Scalar.zero = true := fun h =>
        lt_asymm ((less_iff _ _).mp h).2 (WithTop.coe_lt_coe.mpr EReal.zero_lt_top)
      simp [Scalar.isNegInf, hless]

/-- Numbers other than minus infinity are admissible. -/
theorem admissible_iff (x : Extended) :
    Scalar.admissible x = true ↔ x ≠ .nan ∧ x ≠ .negInf := by
  unfold Scalar.admissible
  rw [Bool.not_eq_true', Bool.or_eq_false_iff, ← Bool.not_eq_true (Scalar.isNegInf x), isNegInf_iff]
  cases x <;> simp [Scalar.isNaN, isNaN]

/-- Zero is the only zero. -/
theorem isZero_iff (x : Extended) : Scalar.isZero x = true ↔ x = Scalar.zero := by
  have hzero : (Scalar.zero : Extended).isNaN = false := rfl
  unfold Scalar.isZero
  rw [Bool.and_eq_true, Bool.and_eq_true, Bool.not_eq_true', Bool.not_eq_true',
    Bool.not_eq_true', ← Bool.not_eq_true (Scalar.less x _), ← Bool.not_eq_true (Scalar.less _ x),
    less_iff, less_iff]
  constructor
  · rintro ⟨⟨hx, hbelow⟩, habove⟩
    -- neither of two numbers is below the other one, so they are the same
    refine rank_injective (le_antisymm ?_ ?_)
    · exact not_lt.mp fun h => habove ⟨hx, h⟩
    · exact not_lt.mp fun h => hbelow ⟨hzero, h⟩
  · rintro rfl
    exact ⟨⟨rfl, fun h => lt_irrefl _ h.2⟩, fun h => lt_irrefl _ h.2⟩

/-- No zero is negative. -/
theorem isNegZero_eq (x : Extended) : Scalar.isNegZero x = false := by
  rw [← Bool.not_eq_true]
  intro h
  obtain ⟨hzero, hbelow⟩ := (Bool.and_eq_true _ _).mp h
  rw [(isZero_iff x).mp hzero, below_iff] at hbelow
  exact lt_irrefl _ hbelow

theorem sum_comm (x y : Extended) : x + y = y + x := by
  cases x <;> cases y <;> first | rfl | exact congrArg Extended.real (add_comm _ _)

theorem sum_assoc (x y z : Extended) : x + y + z = x + (y + z) := by
  cases x <;> cases y <;> cases z <;> first | rfl | exact congrArg Extended.real (add_assoc _ _ _)

theorem sum_zero (x : Extended) : x + Scalar.zero = x := by
  cases x <;> first | rfl | exact congrArg Extended.real (add_zero _)

/-- Only admissible scalars have an admissible sum. -/
theorem admissible_of_sum {x y : Extended} (h : Scalar.admissible (x + y) = true) :
    Scalar.admissible x = true ∧ Scalar.admissible y = true := by
  have hsum : add x y ≠ .nan ∧ add x y ≠ .negInf := (admissible_iff _).mp h
  rw [admissible_iff, admissible_iff]
  cases x <;> cases y <;> simp_all [add]

instance : LawfulScalar Extended where
  admissible_of_add x y h := (admissible_of_sum h).1
  isNegZero_of_add x y h := by
    rw [isNegZero_eq] at h
    cases h
  below_asymm x y h := by
    rw [below_iff] at h
    rw [← Bool.not_eq_true, below_iff]
    exact lt_asymm h
  below_split x y z h := by
    rw [below_iff] at h ⊢
    rw [below_iff]
    rcases lt_or_ge x.rank y.rank with hxy | hyx
    · exact .inl hxy
    · exact .inr (lt_of_le_of_lt hyx h)
  less_eq_below x y _ hy := by
    obtain ⟨hnumber, -⟩ := (Bool.and_eq_true _ _).mp hy
    show (!y.isNaN && decide (x.rank < y.rank)) = _
    rw [show (!y.isNaN) = true from hnumber, Bool.true_and]
    rfl

instance : OrderedScalar Extended where
  eq_of_not_below x y h h' := by
    rw [← Bool.not_eq_true, below_iff, not_lt] at h h'
    exact rank_injective (le_antisymm h' h)

instance : ScreeningScalar Extended where
  add_of_isZero x z _ hz := by
    rw [(isZero_iff z).mp hz]
    exact sum_zero x
  isZero_zero := (isZero_iff _).mpr rfl
  not_admissible_add x y h := by
    rw [(isNegInf_iff y).mp h, ← Bool.not_eq_true]
    intro hsum
    exact ((admissible_iff _).mp (admissible_of_sum hsum).2).2 rfl

/-! ## Weights -/

/-- The weight of a log-weight; what is not a number weighs nothing. -/
noncomputable def weight : Extended → ENNReal
  | .real x => ENNReal.ofReal (Real.exp x)
  | .posInf => ⊤
  | .negInf => 0
  | .nan => 0

/-- A weight as a scalar. -/
noncomputable def ofMass (m : ENNReal) : Extended := if m = ⊤ then .posInf else .real m.toReal

theorem ofMass_top : ofMass ⊤ = .posInf := if_pos rfl

theorem ofMass_of_ne {m : ENNReal} (h : m ≠ ⊤) : ofMass m = .real m.toReal := if_neg h

theorem ofMass_zero : ofMass 0 = Scalar.zero := by
  rw [ofMass_of_ne ENNReal.zero_ne_top, ENNReal.toReal_zero]
  rfl

theorem ofMass_add (m n : ENNReal) : ofMass (m + n) = ofMass m + ofMass n := by
  by_cases hm : m = ⊤
  · rw [hm, top_add, ofMass_top]
    unfold ofMass
    split <;> rfl
  · rw [ofMass_of_ne hm]
    by_cases hn : n = ⊤
    · rw [hn, add_top, ofMass_top]
      rfl
    · rw [ofMass_of_ne hn, ofMass_of_ne (ENNReal.add_ne_top.mpr ⟨hm, hn⟩), ENNReal.toReal_add hm hn]
      rfl

/-- Weights multiply as their scalars do, unless one of them is zero. -/
theorem ofMass_mul {m n : ENNReal} (hm : m ≠ 0) (hn : n ≠ 0) :
    ofMass (m * n) = ofMass m * ofMass n := by
  have hpos : ∀ k : ENNReal, k ≠ 0 → k ≠ ⊤ → SignType.sign k.toReal = 1 := by
    intro k hzero htop
    exact sign_pos (ENNReal.toReal_pos hzero htop)
  by_cases hmtop : m = ⊤
  · rw [hmtop, ENNReal.top_mul hn, ofMass_top]
    by_cases hntop : n = ⊤
    · rw [hntop, ofMass_top]
      rfl
    · rw [ofMass_of_ne hntop]
      show _ = infinity (1 * SignType.sign n.toReal)
      rw [hpos n hn hntop]
      rfl
  · rw [ofMass_of_ne hmtop]
    by_cases hntop : n = ⊤
    · rw [hntop, ENNReal.mul_top hm, ofMass_top]
      show _ = infinity (SignType.sign m.toReal * 1)
      rw [hpos m hm hmtop]
      rfl
    · rw [ofMass_of_ne hntop, ofMass_of_ne (ENNReal.mul_ne_top hmtop hntop), ENNReal.toReal_mul]
      rfl

/-- The exponential of an admissible log-weight is its weight. -/
theorem exp_eq_ofMass {x : Extended} (h : Scalar.admissible x = true) :
    Scalar.exp x = ofMass x.weight := by
  obtain ⟨hnan, hneg⟩ := (admissible_iff x).mp h
  cases x with
  | nan => exact absurd rfl hnan
  | negInf => exact absurd rfl hneg
  | posInf => exact ofMass_top.symm
  | real x =>
      show Extended.real (Real.exp x) = ofMass (ENNReal.ofReal (Real.exp x))
      rw [ofMass_of_ne ENNReal.ofReal_ne_top, ENNReal.toReal_ofReal (Real.exp_pos x).le]

/-- What is admissible weighs something. -/
theorem weight_ne_zero {x : Extended} (h : Scalar.admissible x = true) : x.weight ≠ 0 := by
  obtain ⟨hnan, hneg⟩ := (admissible_iff x).mp h
  cases x with
  | nan => exact absurd rfl hnan
  | negInf => exact absurd rfl hneg
  | posInf => exact ENNReal.top_ne_zero
  | real x => exact (ENNReal.ofReal_pos.mpr (Real.exp_pos x)).ne'

end Extended

end ChoiceSearch
