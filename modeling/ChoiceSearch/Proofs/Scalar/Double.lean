import ChoiceSearch.Proofs.Scalar.Laws
import ChoiceSearch.Scalar.Double
import Mathlib

/-!
# Laws of double-precision scalars

Machine numbers are lawful scalars, so what is proved of a search with lawful scalars is
proved of the search that runs. The lower 63 bits of a pattern count the magnitudes up
(`Encodes`), which is why the order of the ranks is the numeric one away from negative zero
(`less_eq_below`). A sum is rounded, but never so far that something turns into
zero (`clear_add`), and so only negative zeros sum up to negative zero.
-/

namespace ChoiceSearch

namespace Double

open Float.Model (Format UnpackedFloat totalExponent)
open Float.Model.UnpackedFloat

/-! ## Patterns -/

/-- The sign of a bit pattern. -/
def signOf (b : BitVec 64) : Sign :=
  if b.toNat < 2 ^ 63 then .positive else .negative

theorem signOf_eq_negative {b : BitVec 64} : signOf b = .negative ↔ ¬ b.toNat < 2 ^ 63 := by
  unfold signOf
  split
  · rename_i h
    exact ⟨fun heq => (by cases heq), fun hnot => absurd h hnot⟩
  · rename_i h
    exact ⟨fun _ => h, fun _ => rfl⟩

/-- A mantissa and an exponent that are not too long and not too small. -/
structure Fits (m : Nat) (e : Int) : Prop where
  pos : 0 < m
  lt : m < 2 ^ 53
  le : -1074 ≤ e

/-- The mantissa and the exponent of a finite number: the exponent is as small as it
can be. -/
structure Canonical (m : Nat) (e : Int) : Prop extends Fits m e where
  exponent_le : e ≤ 971
  normal : e = -1074 ∨ 2 ^ 52 ≤ m

/-- What a bit pattern stands for. Its lower bits are the magnitude. -/
inductive Encodes (b : BitVec 64) : UnpackedFloat → Prop
  | notANumber : Encodes b .notANumber
  | infinity {s : Sign} (hs : signOf b = s) (hlow : b.toNat % 2 ^ 63 = 2047 * 2 ^ 52) :
      Encodes b (.infinity s)
  | zero {s : Sign} (hs : signOf b = s) (hlow : b.toNat % 2 ^ 63 = 0) : Encodes b (.zero s)
  | finite {s : Sign} {m : Nat} {e : Int} {hm : 0 < m} (hs : signOf b = s) (h : Canonical m e)
      (hlow : ((b.toNat % 2 ^ 63 : Nat) : Int) = (e + 1074) * 2 ^ 52 + m) :
      Encodes b (.finite s m e hm)

theorem toNat_unpackMantissa (b : BitVec 64) :
    (@unpackMantissa Format.binary64 b).toNat = b.toNat % 2 ^ 52 := by
  simp [unpackMantissa, BitVec.extractLsb_toNat]

theorem toNat_unpackExponent (b : BitVec 64) :
    (@unpackExponent Format.binary64 b).toNat = b.toNat / 2 ^ 52 % 2 ^ 11 := by
  simp [unpackExponent, BitVec.extractLsb_toNat, Nat.shiftRight_eq_div_pow]

theorem toNat_unpackSign (b : BitVec 64) :
    (@unpackSign Format.binary64 b).toNat = b.toNat / 2 ^ 63 := by
  have hb : b.toNat < 2 ^ 64 := b.isLt
  simp [unpackSign, BitVec.extractLsb_toNat, Nat.shiftRight_eq_div_pow]
  omega

theorem ofBitVec_unpackSign (b : BitVec 64) :
    Sign.ofBitVec (@unpackSign Format.binary64 b) = signOf b := by
  have hsign := toNat_unpackSign b
  unfold Sign.ofBitVec signOf
  refine if_congr ?_ rfl rfl
  rw [← BitVec.toNat_inj, hsign]
  show _ / _ = 0 ↔ _
  omega

/-- The mantissa of a normal number has one bit more than its pattern. -/
theorem toNat_implicit (v : BitVec 52) : (1#1 ++ v).toNat = 2 ^ 52 + v.toNat := by
  rw [BitVec.toNat_append, ← Nat.shiftLeft_add_eq_or_of_lt v.isLt]
  rfl

/-- Unpacking reads a pattern as what it stands for. -/
theorem encodes_unpack (b : BitVec 64) : Encodes b (unpack Format.binary64 b) := by
  have hmantissa := toNat_unpackMantissa b
  have hexponent := toNat_unpackExponent b
  have hbias : ((Format.binary64.exponentBias : Nat) : Int) = 1023 := rfl
  unfold unpack
  dsimp only
  rw [ofBitVec_unpackSign, hbias]
  split
  · -- an exponent of ones: infinity, or not a number
    rename_i hE
    rw [hE] at hexponent
    have hE : b.toNat / 2 ^ 52 % 2 ^ 11 = 2047 := hexponent.symm
    split
    · rename_i hM
      rw [hM] at hmantissa
      have hM : b.toNat % 2 ^ 52 = 0 := hmantissa.symm
      exact .infinity rfl (by omega)
    · exact .notANumber
  · rename_i hE
    have hE : b.toNat / 2 ^ 52 % 2 ^ 11 ≠ 2047 := by
      rw [← hexponent]
      intro h
      exact hE (BitVec.eq_of_toNat_eq h)
    split
    · -- an exponent of zero: zero, or a number without the implicit bit
      rename_i hzero
      have hzero : b.toNat / 2 ^ 52 % 2 ^ 11 = 0 := by
        rw [← hexponent, hzero]
        rfl
      split
      · rename_i hM
        rw [hM] at hmantissa
        have hM : b.toNat % 2 ^ 52 = 0 := hmantissa.symm
        exact .zero rfl (by omega)
      · rename_i hM
        have hM : b.toNat % 2 ^ 52 ≠ 0 := by
          rw [← hmantissa]
          intro h
          exact hM (BitVec.eq_of_toNat_eq h)
        exact .finite rfl ⟨⟨by omega, by omega, by omega⟩, by omega, by omega⟩ (by omega)
    · rename_i hzero
      have hzero : b.toNat / 2 ^ 52 % 2 ^ 11 ≠ 0 := by
        rw [← hexponent]
        intro h
        exact hzero (BitVec.eq_of_toNat_eq h)
      have himplicit := toNat_implicit (@unpackMantissa Format.binary64 b)
      exact .finite rfl ⟨⟨by omega, by omega, by omega⟩, by omega, by omega⟩ (by omega)

/-- The bit pattern of a double. -/
def pattern (x : Float) : BitVec 64 := x.toBits.toBitVec

/-- What a double stands for. -/
def unpacked (x : Float) : UnpackedFloat := x.toModel.unpack

theorem encodes_unpacked (x : Float) : Encodes (pattern x) (unpacked x) := encodes_unpack _

theorem unpacked_zero : unpacked (Scalar.zero : Float) = .zero .positive := rfl

/-- A sum is computed on what the summands stand for and packed again. -/
theorem unpacked_add (x y : Float) : unpacked (x + y) =
    unpack Format.binary64 (pack Format.binary64
      (add Format.binary64 (unpacked x) (unpacked y))) := rfl

/-! ## Order -/

theorem isNaN_eq (x : Float) : Scalar.isNaN x = (unpacked x).isNaN := rfl

theorem isFinite_eq (x : Float) : Scalar.isFinite x = (unpacked x).isFinite := rfl

theorem less_eq_lt (x y : Float) : Scalar.less x y = (unpacked x).lt (unpacked y) := by
  have hless : Scalar.less x y = true ↔ x < y := decide_eq_true_iff
  have hlt : x < y ↔ (unpacked x).lt (unpacked y) = true := decide_eq_true_iff
  exact Bool.eq_iff_iff.mpr (hless.trans hlt)

theorem below_iff (x y : Float) :
    Scalar.below x y = true ↔ (doubleRank x).toNat < (doubleRank y).toNat := decide_eq_true_iff

/-- The rank counts negative patterns down and the others up. -/
theorem toNat_doubleRank (x : Float) : (doubleRank x).toNat =
    if (pattern x).toNat < 2 ^ 63 then 2 ^ 63 + (pattern x).toNat
    else 2 ^ 64 - 1 - (pattern x).toNat := by
  show _ = if x.toBits.toNat < 2 ^ 63 then 2 ^ 63 + x.toBits.toNat
    else 2 ^ 64 - 1 - x.toBits.toNat
  have hbits : x.toBits.toNat < 2 ^ 64 := x.toBits.toNat_lt
  have hshift : (x.toBits >>> 63).toNat = x.toBits.toNat / 2 ^ 63 := by
    rw [UInt64.toNat_shiftRight, Nat.shiftRight_eq_div_pow]
    rfl
  unfold doubleRank
  dsimp only
  by_cases hsign : x.toBits.toNat < 2 ^ 63
  · rw [if_pos hsign, if_neg]
    · rw [UInt64.toNat_or, Nat.or_comm]
      exact (Nat.two_pow_add_eq_or_of_lt hsign 1).symm
    · intro heq
      have hone : (x.toBits >>> 63).toNat = 1 := congrArg UInt64.toNat (beq_iff_eq.mp heq)
      omega
  · rw [if_neg hsign, if_pos]
    · rw [UInt64.toNat_not]
      rfl
    · refine beq_iff_eq.mpr (UInt64.toNat_inj.mp ?_)
      rw [hshift]
      show _ = 1
      omega

/-- Numbers other than minus infinity are admissible. -/
theorem admissible_iff (x : Float) : Scalar.admissible x = true ↔
    unpacked x ≠ .notANumber ∧ unpacked x ≠ .infinity .negative := by
  unfold Scalar.admissible Scalar.isNegInf
  rw [less_eq_lt, isNaN_eq, isFinite_eq, unpacked_zero]
  cases unpacked x with
  | notANumber => simp [UnpackedFloat.isNaN]
  | infinity s =>
      cases s <;>
        simp [UnpackedFloat.isNaN, UnpackedFloat.isFinite, UnpackedFloat.lt, UnpackedFloat.compare]
  | zero s => simp [UnpackedFloat.isNaN, UnpackedFloat.isFinite]
  | finite s m e hm => simp [UnpackedFloat.isNaN, UnpackedFloat.isFinite]

theorem isZero_iff (x : Float) : Scalar.isZero x = true ↔ ∃ s, unpacked x = .zero s := by
  unfold Scalar.isZero
  rw [less_eq_lt, less_eq_lt, isNaN_eq, unpacked_zero]
  cases unpacked x with
  | notANumber => simp [UnpackedFloat.isNaN]
  | infinity s => cases s <;> simp [UnpackedFloat.isNaN, UnpackedFloat.lt, UnpackedFloat.compare]
  | zero s => simp [UnpackedFloat.isNaN, UnpackedFloat.lt, UnpackedFloat.compare]
  | finite s m e hm =>
      cases s <;> simp [UnpackedFloat.isNaN, UnpackedFloat.lt, UnpackedFloat.compare]

theorem isNegZero_iff (x : Float) :
    Scalar.isNegZero x = true ↔ unpacked x = .zero .negative := by
  have hcode := encodes_unpacked x
  have hzero : (doubleRank (Scalar.zero : Float)).toNat = 2 ^ 63 := rfl
  unfold Scalar.isNegZero
  rw [Bool.and_eq_true, isZero_iff, below_iff, hzero, toNat_doubleRank]
  constructor
  · rintro ⟨⟨s, hs⟩, hrank⟩
    rw [hs] at hcode ⊢
    cases hcode with
    | zero hsign _ =>
        rw [← hsign, signOf_eq_negative.mpr]
        intro hpos
        rw [if_pos hpos] at hrank
        omega
  · intro hneg
    rw [hneg] at hcode
    cases hcode with
    | zero hsign _ =>
        have hbits := signOf_eq_negative.mp hsign
        refine ⟨⟨_, hneg⟩, ?_⟩
        rw [if_neg hbits]
        omega

/-- Where a number stands among all numbers. -/
def position : UnpackedFloat → Int
  | .notANumber => 0
  | .infinity s => s.apply (2047 * 2 ^ 52)
  | .zero _ => 0
  | .finite s m e _ => s.apply ((e + 1074) * 2 ^ 52 + m)

theorem position_of_encodes {b : BitVec 64} {u : UnpackedFloat} (h : Encodes b u)
    (hu : u ≠ .notANumber) : position u = (signOf b).apply (b.toNat % 2 ^ 63 : Nat) := by
  cases h with
  | notANumber => exact absurd rfl hu
  | infinity hs hlow =>
      rw [hlow, hs]
      rfl
  | @zero s hs hlow =>
      rw [hlow, hs]
      cases s <;> rfl
  | finite hs h hlow =>
      rw [hlow, hs]
      rfl

/-- Magnitudes are ordered by exponent and mantissa. -/
theorem compare_canonical {m m' : Nat} {e e' : Int} (h : Canonical m e) (h' : Canonical m' e') :
    (compare e e').then (compare m m') =
      compare ((e + 1074) * 2 ^ 52 + (m : Int)) ((e' + 1074) * 2 ^ 52 + m') := by
  obtain ⟨⟨-, hlt, hle⟩, -, hnormal⟩ := h
  obtain ⟨⟨-, hlt', hle'⟩, -, hnormal'⟩ := h'
  rcases lt_trichotomy e e' with hless | rfl | hmore
  · rw [compare_lt_iff_lt.mpr hless]
    exact (compare_lt_iff_lt.mpr (by omega)).symm
  · rw [compare_eq_iff_eq.mpr rfl]
    rcases lt_trichotomy m m' with hless | rfl | hmore
    · rw [compare_lt_iff_lt.mpr hless]
      exact (compare_lt_iff_lt.mpr (by omega)).symm
    · simp
    · rw [compare_gt_iff_gt.mpr hmore]
      exact (compare_gt_iff_gt.mpr (by omega)).symm
  · rw [compare_gt_iff_gt.mpr hmore]
    exact (compare_gt_iff_gt.mpr (by omega)).symm

theorem swap_compare_neg (x y : Int) : (compare x y).swap = compare (-x) (-y) := by
  rcases lt_trichotomy x y with h | rfl | h
  · rw [compare_lt_iff_lt.mpr h]
    exact (compare_gt_iff_gt.mpr (by omega)).symm
  · simp
  · rw [compare_gt_iff_gt.mpr h]
    exact (compare_lt_iff_lt.mpr (by omega)).symm

theorem some_lt_eq {x y : Int} (h : x < y) : some Ordering.lt = some (compare x y) :=
  congrArg some (compare_lt_iff_lt.mpr h).symm

theorem some_gt_eq {x y : Int} (h : y < x) : some Ordering.gt = some (compare x y) :=
  congrArg some (compare_gt_iff_gt.mpr h).symm

/-- Numbers are compared by their positions. -/
theorem compare_eq_position {b b' : BitVec 64} {u v : UnpackedFloat} (hu : Encodes b u)
    (hv : Encodes b' v) (hun : u ≠ .notANumber) (hvn : v ≠ .notANumber) :
    u.compare v = some (compare (position u) (position v)) := by
  cases hu with
  | notANumber => exact absurd rfl hun
  | @infinity s =>
      cases hv with
      | notANumber => exact absurd rfl hvn
      | @infinity s' => cases s <;> cases s' <;> rfl
      | zero => cases s <;> rfl
      | @finite s' m e _ _ h =>
          obtain ⟨⟨hpos, hlt, hle⟩, hmax, hnormal⟩ := h
          cases s <;> cases s'
          all_goals
            simp only [UnpackedFloat.compare, position, Sign.apply]
            first | exact some_lt_eq (by omega) | exact some_gt_eq (by omega)
  | zero =>
      cases hv with
      | notANumber => exact absurd rfl hvn
      | @infinity s' => cases s' <;> rfl
      | zero => rfl
      | @finite s' m e _ _ h =>
          obtain ⟨⟨hpos, hlt, hle⟩, -, -⟩ := h
          cases s'
          · exact some_gt_eq (by simp only [position, Sign.apply]; omega)
          · exact some_lt_eq (by simp only [position, Sign.apply]; omega)
  | @finite s m e _ _ h =>
      obtain ⟨⟨hpos, hlt, hle⟩, hmax, hnormal⟩ := id h
      cases hv with
      | notANumber => exact absurd rfl hvn
      | @infinity s' =>
          cases s <;> cases s'
          all_goals
            simp only [UnpackedFloat.compare, position, Sign.apply]
            first | exact some_lt_eq (by omega) | exact some_gt_eq (by omega)
      | zero =>
          cases s
          · exact some_lt_eq (by simp only [position, Sign.apply]; omega)
          · exact some_gt_eq (by simp only [position, Sign.apply]; omega)
      | @finite s' m' e' _ _ h' =>
          -- of one sign, the magnitudes decide, and below zero they decide the other way round
          have hcompare := compare_canonical h h'
          obtain ⟨⟨hpos', hlt', hle'⟩, -, -⟩ := h'
          cases s <;> cases s'
          · simp only [UnpackedFloat.compare, position, Sign.apply]
            rw [hcompare, swap_compare_neg]
          · exact some_lt_eq (by simp only [position, Sign.apply]; omega)
          · exact some_gt_eq (by simp only [position, Sign.apply]; omega)
          · exact congrArg some hcompare

/-- A plain number is a number, but not negative zero. -/
theorem ne_of_isPlainNumber {x : Float} (h : Scalar.isPlainNumber x = true) :
    unpacked x ≠ .notANumber ∧ unpacked x ≠ .zero .negative := by
  unfold Scalar.isPlainNumber at h
  rw [Bool.and_eq_true, Bool.not_eq_true', Bool.not_eq_true', isNaN_eq] at h
  obtain ⟨hnumber, hnonzero⟩ := h
  constructor
  · intro heq
    rw [heq] at hnumber
    cases hnumber
  · intro heq
    rw [(isNegZero_iff x).mpr heq] at hnonzero
    cases hnonzero

/-- Away from negative zero, the rank of a number is its position, up to a shift. -/
theorem toNat_doubleRank_of_isPlainNumber {x : Float} (h : Scalar.isPlainNumber x = true) :
    ((doubleRank x).toNat : Int) = if position (unpacked x) < 0 then
      2 ^ 63 - 1 + position (unpacked x) else 2 ^ 63 + position (unpacked x) := by
  obtain ⟨hnumber, hnonzero⟩ := ne_of_isPlainNumber h
  have hcode := encodes_unpacked x
  have hbits : (pattern x).toNat < 2 ^ 64 := (pattern x).isLt
  rw [toNat_doubleRank, position_of_encodes hcode hnumber]
  by_cases hsign : (pattern x).toNat < 2 ^ 63
  · have hpositive : signOf (pattern x) = .positive := if_pos hsign
    rw [if_pos hsign, hpositive]
    simp only [Sign.apply]
    omega
  · have hnegative := signOf_eq_negative.mpr hsign
    have hlow : (pattern x).toNat % 2 ^ 63 ≠ 0 := by
      revert hcode hnumber hnonzero
      generalize unpacked x = u
      intro hnumber hnonzero hcode
      cases hcode with
      | notANumber => exact absurd rfl hnumber
      | infinity _ hlow => omega
      | zero hs _ =>
          rw [← hs, hnegative] at hnonzero
          exact absurd rfl hnonzero
      | finite _ hcanonical hlow =>
          have hpos := hcanonical.pos
          have hle := hcanonical.le
          omega
    rw [if_neg hsign, hnegative]
    simp only [Sign.apply]
    omega

theorem less_eq_below (x y : Float) (hx : Scalar.isPlainNumber x = true)
    (hy : Scalar.isPlainNumber y = true) : Scalar.less x y = Scalar.below x y := by
  have hxrank := toNat_doubleRank_of_isPlainNumber hx
  have hyrank := toNat_doubleRank_of_isPlainNumber hy
  have hcompare := compare_eq_position (encodes_unpacked x) (encodes_unpacked y)
    (ne_of_isPlainNumber hx).1 (ne_of_isPlainNumber hy).1
  rw [less_eq_lt, UnpackedFloat.lt, hcompare, Bool.eq_iff_iff, below_iff, beq_iff_eq,
    Option.some.injEq, compare_lt_iff_lt]
  split at hxrank <;> split at hyrank <;> omega

/-! ## Sums -/

theorem targetExponent_eq (m : Nat) (e : Int) : Format.binary64.targetExponent (totalExponent m e) =
    max ((m.log2 : Int) + 1 + e - 53) (-1074) := rfl

theorem mantissa_shiftRight (em : ExtendedMantissa) (n : Nat) :
    (em >>> n).mantissa = em.mantissa / 2 ^ n := by
  show (n.repeat ExtendedMantissa.shiftRightOne em).mantissa = _
  induction n with
  | zero => simp [Nat.repeat]
  | succ n ih =>
      show (n.repeat ExtendedMantissa.shiftRightOne em).mantissa / 2 = _
      rw [ih, Nat.div_div_eq_div_mul, pow_succ]

theorem mantissa_ofMantissaAndAccuracy (m : Nat) (accuracy : Accuracy) :
    (ExtendedMantissa.ofMantissaAndAccuracy m accuracy).mantissa = m := by
  unfold ExtendedMantissa.ofMantissaAndAccuracy
  split <;> rfl

/-- A mantissa that is shifted until it is short enough keeps its leading bit. -/
theorem fits_shiftToTargetExponent {m : Nat} {e : Int} (hm : 0 < m) (he : -1074 ≤ e)
    (accuracy : Accuracy) :
    Fits (shiftToTargetExponent Format.binary64 m e accuracy).1.mantissa
      (shiftToTargetExponent Format.binary64 m e accuracy).2 := by
  unfold shiftToTargetExponent shiftToExponent
  dsimp only
  rw [targetExponent_eq, mantissa_shiftRight, mantissa_ofMantissaAndAccuracy]
  generalize hk : (max ((m.log2 : Int) + 1 + e - 53) (-1074) - e).toNat = k
  have hlog : m < 2 ^ (m.log2 + 1) := Nat.lt_log2_self
  have hself : 2 ^ m.log2 ≤ m := Nat.log2_self_le (by omega)
  refine ⟨?_, ?_, ?_⟩
  · refine Nat.div_pos (le_trans (Nat.pow_le_pow_right (by omega) ?_) hself) (by positivity)
    omega
  · rw [Nat.div_lt_iff_lt_mul (by positivity), ← pow_add]
    refine lt_of_lt_of_le hlog (Nat.pow_le_pow_right (by omega) ?_)
    omega
  · omega

theorem le_roundedMantissa (em : ExtendedMantissa) : em.mantissa ≤ em.roundedMantissa := by
  unfold ExtendedMantissa.roundedMantissa Accuracy.roundToNearestEven
  split <;> omega

/-- What is not packed as negative zero. -/
inductive Clear : UnpackedFloat → Prop
  | notANumber : Clear .notANumber
  | infinity (s : Sign) : Clear (.infinity s)
  | zero : Clear (.zero .positive)
  | finite {s : Sign} {m : Nat} {e : Int} {hm : 0 < m} (h : Fits m e) : Clear (.finite s m e hm)

/-- Rounding takes nothing to zero that is not smaller than every double. -/
theorem clear_round (s : Sign) {m : Nat} {e : Int} (hm : 0 < m) (he : -1074 ≤ e) :
    Clear (UnpackedFloat.round Format.binary64 s m e) := by
  unfold UnpackedFloat.round decreaseExponent
  dsimp only
  rw [targetExponent_eq]
  generalize hk : (e - max ((m.log2 : Int) + 1 + e - 53) (-1074)).toNat = k
  have hm' : 0 < m <<< k := by
    rw [Nat.shiftLeft_eq]
    positivity
  have he' : -1074 ≤ e - k := by omega
  generalize m <<< k = m' at hm' ⊢
  generalize e - k = e' at he' ⊢
  unfold roundWithAccuracy
  -- the mantissa is shifted once more, as rounding may have made it longer
  have hfirst := fits_shiftToTargetExponent hm' he' .exact
  generalize shiftToTargetExponent Format.binary64 m' e' .exact = first at hfirst ⊢
  obtain ⟨em, e₁⟩ := first
  have hrounded : 0 < em.roundedMantissa := lt_of_lt_of_le hfirst.pos (le_roundedMantissa em)
  have hsecond := fits_shiftToTargetExponent hrounded hfirst.le .exact
  dsimp only
  generalize shiftToTargetExponent Format.binary64 em.roundedMantissa e₁ .exact = second
    at hsecond ⊢
  have hpos := hsecond.pos
  rw [dif_neg (by omega)]
  exact .finite hsecond

/-- Only zeros have neither an exponent nor a mantissa. -/
theorem eq_zero_of_unpack {b : BitVec 64} {s : Sign} (h : unpack Format.binary64 b = .zero s) :
    @unpackExponent Format.binary64 b = 0#11 ∧ @unpackMantissa Format.binary64 b = 0#52 := by
  have hcode := encodes_unpack b
  rw [h] at hcode
  cases hcode with
  | zero _ hlow =>
      constructor
      · refine BitVec.eq_of_toNat_eq ?_
        rw [toNat_unpackExponent]
        show _ = 0
        omega
      · refine BitVec.eq_of_toNat_eq ?_
        rw [toNat_unpackMantissa]
        show _ = 0
        omega

/-- Packing does not take a finite number to zero. -/
theorem unpack_pack_finite {s s' : Sign} {m : Nat} {e : Int} {hm : 0 < m} (h : Fits m e) :
    unpack Format.binary64 (pack Format.binary64 (.finite s m e hm)) ≠ .zero s' := by
  intro hzero
  obtain ⟨-, hlt, hle⟩ := h
  obtain ⟨hE, hM⟩ := eq_zero_of_unpack hzero
  have hbias : ((Format.binary64.exponentBias : Nat) : Int) = 1023 := rfl
  have hbits : Format.binary64.mantissaBits = 53 := rfl
  unfold pack at hE hM
  dsimp only at hE hM
  rw [hbias, hbits] at hE hM
  by_cases hover : 2 ^ 11 ≤ (e + 1023 + (52 : Nat)).toNat + 1
  · rw [if_pos hover, packedInfinity, unpackExponent_packComponents] at hE
    exact absurd hE (by decide)
  rw [if_neg hover] at hE hM
  by_cases hnormal : m.log2 + 1 = 53
  · rw [if_pos hnormal, unpackExponent_packComponents] at hE
    have hE := congrArg BitVec.toNat hE
    rw [BitVec.toNat_ofNat] at hE
    have hE : (e + 1023 + (52 : Nat)).toNat % 2 ^ 11 = 0 := hE
    omega
  · rw [if_neg hnormal, unpackMantissa_packComponents] at hM
    have hM := congrArg BitVec.toNat hM
    rw [BitVec.toNat_ofNat] at hM
    have hM : m % 2 ^ 52 = 0 := hM
    have hshort : m < 2 ^ 52 := by
      by_contra hge
      exact hnormal (by rw [(Nat.log2_eq_iff (by omega)).mpr ⟨not_lt.mp hge, hlt⟩])
    omega

theorem unpack_pack_infinity (s : Sign) :
    unpack Format.binary64 (pack Format.binary64 (.infinity s)) = .infinity s := by
  cases s <;> rfl

theorem Clear.unpack_pack {u : UnpackedFloat} (h : Clear u) :
    unpack Format.binary64 (pack Format.binary64 u) ≠ .zero .negative := by
  cases h with
  | notANumber =>
      intro heq
      have hkept : unpack Format.binary64 (pack Format.binary64 .notANumber) = .notANumber := rfl
      cases hkept.symm.trans heq
  | infinity s =>
      intro heq
      cases (unpack_pack_infinity s).symm.trans heq
  | zero =>
      intro heq
      have hkept : unpack Format.binary64 (pack Format.binary64 (.zero .positive)) =
          .zero .positive := rfl
      cases hkept.symm.trans heq
  | finite h => exact unpack_pack_finite h

/-- A sum is clear unless its first summand is negative zero. -/
theorem clear_add {b b' : BitVec 64} {u v : UnpackedFloat} (hu : Encodes b u) (hv : Encodes b' v)
    (hne : u ≠ .zero .negative) : Clear (add Format.binary64 u v) := by
  cases hu with
  | notANumber => cases v <;> exact .notANumber
  | @infinity s =>
      cases hv with
      | notANumber => exact .notANumber
      | @infinity s' => cases s <;> cases s' <;> constructor
      | zero | finite => exact .infinity s
  | @zero s =>
      cases hv with
      | notANumber => exact .notANumber
      | @infinity s' => exact .infinity s'
      | @zero s' =>
          cases s with
          | negative => exact absurd rfl hne
          | positive => cases s' <;> exact .zero
      | finite _ h => exact .finite h.toFits
  | @finite s m e hm _ h =>
      cases hv with
      | notANumber => exact .notANumber
      | @infinity s' => exact .infinity s'
      | zero => exact .finite h.toFits
      | @finite s' m' e' hm' _ h' =>
          have hle : -1074 ≤ min e e' := le_min h.le h'.le
          unfold add
          dsimp only
          unfold UnpackedFloat.normalize
          generalize s.apply _ + s'.apply _ = n
          rcases lt_trichotomy n 0 with hlt | rfl | hgt
          · rw [compare_lt_iff_lt.mpr hlt]
            exact clear_round _ (by omega) hle
          · exact .zero
          · rw [compare_gt_iff_gt.mpr hgt]
            exact clear_round _ (by omega) hle

theorem isNegZero_of_add (x y : Float) (h : Scalar.isNegZero (x + y) = true) :
    Scalar.isNegZero x = true := by
  rw [isNegZero_iff, unpacked_add] at h
  rw [isNegZero_iff]
  by_contra hne
  exact (clear_add (encodes_unpacked x) (encodes_unpacked y) hne).unpack_pack h

theorem add_notANumber (v : UnpackedFloat) :
    add Format.binary64 .notANumber v = .notANumber := by
  cases v <;> rfl

/-- Minus infinity absorbs what is added, or the sum is not a number. -/
theorem add_negInf (v : UnpackedFloat) :
    add Format.binary64 (.infinity .negative) v = .notANumber ∨
      add Format.binary64 (.infinity .negative) v = .infinity .negative := by
  cases v with
  | notANumber => exact .inl rfl
  | infinity s =>
      cases s with
      | negative => exact .inr rfl
      | positive => exact .inl rfl
  | zero | finite => exact .inr rfl

theorem admissible_of_add (x y : Float) (h : Scalar.admissible (x + y) = true) :
    Scalar.admissible x = true := by
  rw [admissible_iff, unpacked_add] at h
  rw [admissible_iff]
  obtain ⟨hnumber, hfinite⟩ := h
  constructor
  · intro heq
    rw [heq, add_notANumber] at hnumber
    exact hnumber rfl
  · intro heq
    rw [heq] at hnumber hfinite
    rcases add_negInf (unpacked y) with hsum | hsum
    · rw [hsum] at hnumber
      exact hnumber rfl
    · rw [hsum] at hfinite
      exact hfinite (unpack_pack_infinity .negative)

end Double

/-- **Machine numbers are lawful scalars.** -/
instance : LawfulScalar Float where
  admissible_of_add := Double.admissible_of_add
  isNegZero_of_add := Double.isNegZero_of_add
  below_asymm x y h := by
    rw [Double.below_iff] at h
    rw [← Bool.not_eq_true, Double.below_iff]
    omega
  below_split x y z h := by
    rw [Double.below_iff] at h ⊢
    rw [Double.below_iff]
    omega
  less_eq_below := Double.less_eq_below

/-- Machine numbers of the same rank have the same bits. -/
instance : OrderedScalar Float where
  eq_of_not_below x y h h' := by
    rw [← Bool.not_eq_true, Double.below_iff] at h h'
    have hrank : (doubleRank x).toNat = (doubleRank y).toNat := by omega
    have hbits : (Double.pattern x).toNat = (Double.pattern y).toNat := by
      have hx := (Double.pattern x).isLt
      have hy := (Double.pattern y).isLt
      rw [Double.toNat_doubleRank, Double.toNat_doubleRank] at hrank
      split at hrank <;> split at hrank <;> omega
    have hpattern : Double.pattern x = Double.pattern y := BitVec.eq_of_toNat_eq hbits
    obtain ⟨⟨⟨bits⟩, hvalid⟩⟩ := x
    obtain ⟨⟨⟨bits'⟩, hvalid'⟩⟩ := y
    cases hpattern
    rfl

end ChoiceSearch
