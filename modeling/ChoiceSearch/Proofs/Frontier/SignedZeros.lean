import ChoiceSearch.Proofs.Frontier.History

/-!
# Signed zeros in a container

The admission test compares numbers, the entries are kept in the sorting order. On machine
numbers the two differ in one case: negative zero is equal to zero and sorts below it
(`Double.below_iff_less`). There a container breaks the rule that ties keep the earlier
insertion. A zero is refused by a worst entry of negative zero, as its equal; but where there
is room for both, the zero is listed first and the negative zero dropped first, also when it
came earlier (`KBest.not_agreesExcept_zeros`).

With this exception the rule holds, whatever is pushed (`KBest.agreesExcept_of_pushes`). An
item that was admitted is held, or the container is full of items that go before it
(`KBest.Outranked`), and every push keeps this up.
-/

namespace ChoiceSearch

open Scalar

/-! ### The two orders of machine numbers -/

namespace Double

open Float.Model (UnpackedFloat)
open Float.Model.UnpackedFloat

/-- A number that is no negative zero is plain. -/
theorem isPlainNumber_iff (x : Float) :
    isPlainNumber x = true ↔ isNaN x = false ∧ isNegZero x = false := by
  unfold isPlainNumber
  rw [Bool.and_eq_true, Bool.not_eq_true', Bool.not_eq_true']

theorem unpacked_ne_notANumber {x : Float} (h : isNaN x = false) :
    unpacked x ≠ .notANumber := by
  intro heq
  rw [isNaN_eq, heq] at h
  cases h

/-- Numbers are compared by their positions. -/
theorem less_iff_position {x y : Float} (hx : isNaN x = false) (hy : isNaN y = false) :
    less x y = true ↔ position (unpacked x) < position (unpacked y) := by
  rw [less_eq_lt, UnpackedFloat.lt, compare_eq_position (encodes_unpacked x) (encodes_unpacked y)
    (unpacked_ne_notANumber hx) (unpacked_ne_notANumber hy), beq_iff_eq, Option.some.injEq,
    compare_lt_iff_lt]

/-- A number is zero where its position is. -/
theorem isZero_iff_position {x : Float} (h : isNaN x = false) :
    isZero x = true ↔ position (unpacked x) = 0 := by
  have hzero : isNaN (Scalar.zero : Float) = false := rfl
  have hposition : position (unpacked (Scalar.zero : Float)) = 0 := rfl
  have hbelow := less_iff_position h hzero
  have habove := less_iff_position hzero h
  rw [hposition] at hbelow habove
  unfold isZero
  rw [h, Bool.and_eq_true, Bool.and_eq_true, Bool.not_eq_true', Bool.not_eq_true',
    Bool.not_eq_true', ← Bool.not_eq_true (less x Scalar.zero),
    ← Bool.not_eq_true (less Scalar.zero x), hbelow, habove]
  constructor
  · rintro ⟨⟨-, hlow⟩, hhigh⟩
    omega
  · intro hzero
    exact ⟨⟨rfl, by omega⟩, by omega⟩

/-- The rank of a number is its position, up to a shift; negative zero is shifted as the
negative numbers are. -/
theorem toNat_doubleRank_of_isNaN {x : Float} (h : isNaN x = false) :
    ((doubleRank x).toNat : Int) =
      if position (unpacked x) < 0 ∨ isNegZero x = true then 2 ^ 63 - 1 + position (unpacked x)
      else 2 ^ 63 + position (unpacked x) := by
  cases hneg : isNegZero x with
  | false =>
      have hplain := (isPlainNumber_iff x).mpr ⟨h, hneg⟩
      rw [toNat_doubleRank_of_isPlainNumber hplain]
      simp only [Bool.false_eq_true, or_false]
  | true =>
      have hunpacked := (isNegZero_iff x).mp hneg
      have hcode := encodes_unpacked x
      rw [hunpacked] at hcode ⊢
      cases hcode with
      | zero hsign hlow =>
          -- the pattern of negative zero is the sign bit alone
          have hbits := signOf_eq_negative.mp hsign
          have hlt : (pattern x).toNat < 2 ^ 64 := (pattern x).isLt
          rw [toNat_doubleRank, if_neg hbits, if_pos (.inr rfl)]
          show ((2 ^ 64 - 1 - (pattern x).toNat : Nat) : Int) = 2 ^ 63 - 1 + 0
          omega

end Double

/-- Negative zero beside zero: equal as numbers, and told apart by the sorting order. -/
def ZeroStep (x y : Float) : Prop :=
  isNegZero x = true ∧ isZero y = true ∧ isNegZero y = false

namespace Double

open Float.Model (UnpackedFloat)

/-- **The two orders differ on the two zeros only.** -/
theorem below_iff_less {x y : Float} (hx : isNaN x = false) (hy : isNaN y = false) :
    below x y = true ↔ less x y = true ∨ ZeroStep x y := by
  have hxrank := toNat_doubleRank_of_isNaN hx
  have hyrank := toNat_doubleRank_of_isNaN hy
  have hxzero : isNegZero x = true → position (unpacked x) = 0 := fun h =>
    (isZero_iff_position hx).mp (Bool.and_eq_true_iff.mp h).1
  have hyzero : isNegZero y = true → position (unpacked y) = 0 := fun h =>
    (isZero_iff_position hy).mp (Bool.and_eq_true_iff.mp h).1
  rw [below_iff, less_iff_position hx hy, ZeroStep, isZero_iff_position hy]
  cases hxneg : isNegZero x <;> cases hyneg : isNegZero y <;>
    simp only [hxneg, hyneg, forall_const, or_true, if_true, reduceCtorEq, or_false,
      IsEmpty.forall_iff, false_and, true_and, and_false, and_true] at hxrank hyrank hxzero hyzero ⊢
  · split_ifs at hxrank hyrank <;> omega
  · split_ifs at hxrank <;> omega
  · split_ifs at hyrank <;> omega
  · omega

/-- Only numbers compare. -/
theorem isNaN_of_less {x y : Float} (h : less x y = true) : isNaN x = false ∧ isNaN y = false := by
  rw [less_eq_lt] at h
  rw [isNaN_eq, isNaN_eq]
  cases hx : unpacked x <;> cases hy : unpacked y <;>
    simp_all [UnpackedFloat.lt, UnpackedFloat.compare, UnpackedFloat.isNaN]

/-- What is numerically less sorts below. -/
theorem below_of_less {x y : Float} (h : less x y = true) : below x y = true :=
  (below_iff_less (isNaN_of_less h).1 (isNaN_of_less h).2).mpr (.inl h)

/-- The numeric order is the sorting order without the step between the zeros. -/
theorem less_iff_below {x y : Float} (hx : isNaN x = false) (hy : isNaN y = false) :
    less x y = true ↔ below x y = true ∧ ¬ ZeroStep x y := by
  rw [below_iff_less hx hy]
  constructor
  · intro hless
    refine ⟨.inl hless, fun ⟨hneg, hzero, _⟩ => ?_⟩
    rw [less_iff_position hx hy, (isZero_iff_position hy).mp hzero,
      (isZero_iff_position hx).mp (Bool.and_eq_true_iff.mp hneg).1] at hless
    exact absurd hless (lt_irrefl 0)
  · rintro ⟨hless | hstep, hno⟩
    · exact hless
    · exact absurd hstep hno

end Double

/-- Of two members of a sorted list, the one that does not come after the other is listed
before it. -/
theorem pair_sublist_of_pairwise {β : Type} {r : β → β → Prop} {l : List β} {x y : β}
    (hs : l.Pairwise r) (hx : x ∈ l) (hy : y ∈ l) (hne : x ≠ y) (h : ¬ r y x) :
    [x, y].Sublist l := by
  obtain ⟨before, after, rfl⟩ := List.append_of_mem hx
  obtain ⟨-, -, hacross⟩ := List.pairwise_append.mp hs
  rcases List.mem_append.mp hy with hy | hy
  · exact absurd (hacross y hy x List.mem_cons_self) h
  · have hafter : y ∈ after := (List.mem_cons.mp hy).resolve_left hne.symm
    exact ((List.singleton_sublist.mpr hafter).cons_cons x).trans (List.sublist_append_right _ _)

namespace KBest

/-! ### A push, seen from the list -/

section Push

variable {R β : Type} [Scalar R] [LawfulScalar R]

/-- A push to a sorted container is refused, finds room, or replaces the last entry by a
better one. -/
theorem push_cases {q : KBest R β} (hs : BestFirst q.toList) (score : R) (item : β) :
    q.push score item = q ∨
      (admissible score = true ∧ q.size < q.capacity ∧
        (q.push score item).toList = placeAfter (score, item) q.toList) ∨
      admissible score = true ∧ ¬ q.size < q.capacity ∧ ∃ rest worst,
        q.toList = rest ++ [worst] ∧ less worst.1 score = true ∧
        (q.push score item).toList = placeAfter (score, item) rest := by
  cases hadm : q.admits score with
  | false => exact .inl (by rw [push, hadm, if_neg Bool.false_ne_true])
  | true =>
      have hparts := hadm
      rw [admits, Bool.and_eq_true, Bool.and_eq_true] at hparts
      refine .inr ?_
      by_cases hroom : q.size < q.capacity
      · refine .inl ⟨hparts.1.2, hroom, ?_⟩
        rw [push, if_pos hadm, if_pos hroom]
        exact reverse_place hs
      · refine .inr ⟨hparts.1.2, hroom, ?_⟩
        have htest := hparts.2
        rw [decide_eq_false hroom, Bool.false_or] at htest
        -- the test looked at the worst entry, so there is one
        cases hentries : q.entries with
        | nil => rw [minScore?, hentries] at htest; cases htest
        | cons worst rest =>
            rw [minScore?, hentries] at htest
            have hlist : q.toList = rest.reverse ++ [worst] := by
              rw [toList, hentries, List.reverse_cons]
            refine ⟨rest.reverse, worst, hlist, htest, ?_⟩
            rw [push, if_pos hadm, if_neg hroom, hentries, List.tail_cons]
            rw [hlist] at hs
            exact reverse_place (List.pairwise_append.mp hs).1

omit [Scalar R] [LawfulScalar R] in
theorem size_eq_length (q : KBest R β) : q.size = q.toList.length :=
  List.length_reverse.symm

end Push

/-! ### Any pushes of machine numbers -/

variable {α : Type}

/-- The container of capacity `k` that received the items with their numbers. -/
def received (k : Nat) (entries : List (Float × α)) : KBest Float (α × Nat) :=
  (empty k).pushAll (numbered entries)

/-- An item was admitted when it was offered. -/
def Admitted (k : Nat) (entries : List (Float × α)) (x : Float × (α × Nat)) : Prop :=
  ∃ before after, entries = before ++ unnumbered x :: after ∧ x.2.2 = before.length ∧
    (received k before).admits x.1 = true

/-- The admission test and the order in which items are handed out agree after some pushes,
except for the pairs of scores that are `exempt`. -/
structure AgreesExcept (exempt : Float → Float → Prop) (k : Nat) (entries : List (Float × α)) :
    Prop where
  /-- The next item is admitted to a full container if and only if it goes before the entry
  that is handed out last: its score sorts higher, or the scores do not differ and it was
  offered earlier. -/
  admits : ∀ score item worst, admissible score = true → (received k entries).size = k →
    (received k entries).drain.1.getLast? = some worst →
    ((received k entries).admits score = true ↔
      aheadOf (score, (item, entries.length)) worst = true ∧ ¬ exempt worst.1 score)
  /-- Among items of equal scores, one that was admitted is held as long as a later one is,
  and handed out before it. -/
  keeps : ∀ x y, Admitted k entries x → y ∈ (received k entries).drain.1 → x.2.2 < y.2.2 →
    same x.1 y.1 = true → ¬ exempt x.1 y.1 → [x, y].Sublist (received k entries).drain.1
  /-- An exempt pair is handed out the other way round. -/
  turned : ∀ x y, x ∈ (received k entries).drain.1 → y ∈ (received k entries).drain.1 →
    exempt x.1 y.1 → [y, x].Sublist (received k entries).drain.1

theorem received_snoc (k : Nat) (entries : List (Float × α)) (entry : Float × α) :
    received k (entries ++ [entry]) =
      (received k entries).push entry.1 (entry.2, entries.length) := by
  unfold received
  rw [numbered_append, pushAll_append]
  rfl

theorem capacity_received (k : Nat) (entries : List (Float × α)) :
    (received k entries).capacity = k := capacity_pushAll _ _

/-- What is held is sorted, was offered and is admissible. -/
structure Listed (n : Nat) (entries : List (Float × (α × Nat))) : Prop where
  /-- The entries are listed by score and then by number. -/
  sorted : entries.Pairwise fun x y => aheadOf x y = true
  /-- The numbers are those of earlier offers. -/
  number : ∀ x ∈ entries, x.2.2 < n
  /-- The scores are admissible. -/
  admissible : ∀ x ∈ entries, admissible x.1 = true

theorem Listed.bestFirst {n : Nat} {entries : List (Float × (α × Nat))} (h : Listed n entries) :
    BestFirst entries :=
  h.sorted.imp not_below_of_aheadOf

theorem Listed.mono {n m : Nat} {entries : List (Float × (α × Nat))} (h : Listed n entries)
    (hle : n ≤ m) : Listed m entries :=
  ⟨h.sorted, fun x hx => Nat.lt_of_lt_of_le (h.number x hx) hle, h.admissible⟩

theorem Listed.init {n : Nat} {rest : List (Float × (α × Nat))} {last : Float × (α × Nat)}
    (h : Listed n (rest ++ [last])) : Listed n rest :=
  ⟨(List.pairwise_append.mp h.sorted).1, fun x hx => h.number x (List.mem_append_left _ hx),
    fun x hx => h.admissible x (List.mem_append_left _ hx)⟩

/-- The next item is placed where its score and its number put it. -/
theorem Listed.placeAfter {n : Nat} {entries : List (Float × (α × Nat))} (h : Listed n entries)
    {score : Float} (item : α) (hadm : Scalar.admissible score = true) :
    Listed (n + 1) (placeAfter (score, (item, n)) entries) where
  sorted := pairwise_placeAfter h.number h.sorted
  number x hx := by
    rcases mem_placeAfter.mp hx with rfl | hx
    · exact Nat.lt_succ_self n
    · exact Nat.lt_succ_of_lt (h.number x hx)
  admissible x hx := by
    rcases mem_placeAfter.mp hx with rfl | hx
    · exact hadm
    · exact h.admissible x hx

theorem listed_received (k : Nat) (entries : List (Float × α)) :
    Listed entries.length (received k entries).toList := by
  induction entries using List.reverseRecOn with
  | nil =>
      exact ⟨.nil, fun x hx => absurd hx List.not_mem_nil,
        fun x hx => absurd hx List.not_mem_nil⟩
  | append_singleton entries entry ih =>
      rw [received_snoc, List.length_append, List.length_singleton]
      rcases push_cases ih.bestFirst entry.1 (entry.2, entries.length) with
        hno | ⟨hadm, -, hlist⟩ | ⟨hadm, -, rest, worst, hold, -, hlist⟩
      · rw [hno]
        exact ih.mono (Nat.le_succ _)
      · rw [hlist]
        exact ih.placeAfter entry.2 hadm
      · rw [hlist]
        rw [hold] at ih
        exact ih.init.placeAfter entry.2 hadm

/-- An item is held, or the container is full of items that go before it. -/
def Outranked (q : KBest Float (α × Nat)) (x : Float × (α × Nat)) : Prop :=
  x ∈ q.toList ∨ (q.size = q.capacity ∧ ∀ y ∈ q.toList, aheadOf y x = true)

theorem size_received_le (k : Nat) (entries : List (Float × α)) :
    (received k entries).size ≤ k := by
  induction entries using List.reverseRecOn with
  | nil => exact Nat.zero_le k
  | append_singleton entries entry ih =>
      have hcap := capacity_received k entries
      rw [received_snoc]
      rw [size_eq_length] at ih ⊢
      rcases push_cases (listed_received k entries).bestFirst entry.1 (entry.2, entries.length) with
        hno | ⟨-, hroom, hlist⟩ | ⟨-, -, rest, worst, hold, -, hlist⟩
      · rw [hno]
        exact ih
      · rw [hlist, length_placeAfter]
        rw [size_eq_length] at hroom
        omega
      · rw [hlist, length_placeAfter]
        rw [hold, List.length_append, List.length_singleton] at ih
        exact ih

/-- A push replaces entries by better ones only. -/
theorem Outranked.push {q : KBest Float (α × Nat)} {x : Float × (α × Nat)} (h : Outranked q x)
    (hs : q.toList.Pairwise fun x y => aheadOf x y = true) (hsize : q.size ≤ q.capacity)
    (score : Float) (item : α × Nat) : Outranked (q.push score item) x := by
  rcases push_cases (hs.imp not_below_of_aheadOf) score item with
    hno | ⟨-, hroom, hlist⟩ | ⟨-, hfull, rest, worst, hold, hless, hlist⟩
  · rw [hno]
    exact h
  · -- with room nothing was ever dropped
    rcases h with hheld | ⟨hfull, -⟩
    · exact .inl (hlist ▸ mem_placeAfter.mpr (.inr hheld))
    · omega
  · rw [Outranked, size_eq_length, hlist, length_placeAfter, capacity_push]
    rw [Outranked, hold] at h
    rw [size_eq_length, hold, List.length_append, List.length_singleton] at hsize hfull
    rw [hold] at hs
    by_cases hrest : x ∈ rest
    · exact .inl (mem_placeAfter.mpr (.inr hrest))
    · -- the item is the one dropped, or it was dropped before
      have hall : ∀ y ∈ rest ++ [worst], aheadOf y x = true := by
        rcases h with hheld | ⟨-, hall⟩
        · have hx : x = worst :=
            List.mem_singleton.mp ((List.mem_append.mp hheld).resolve_left hrest)
          subst hx
          intro y hy
          rcases List.mem_append.mp hy with hy | hy
          · exact (List.pairwise_append.mp hs).2.2 y hy x List.mem_cons_self
          · rw [List.mem_singleton.mp hy]
            exact (aheadOf_iff x x).mpr (.inr ⟨below_irrefl x.1, Nat.le_refl _⟩)
        · exact hall
      have hworst : below worst.1 x.1 = false :=
        not_below_of_aheadOf (hall worst (List.mem_append_right _ List.mem_cons_self))
      refine .inr ⟨by omega, fun y hy => ?_⟩
      rcases mem_placeAfter.mp hy with rfl | hy
      · rcases LawfulScalar.below_split worst.1 x.1 score (Double.below_of_less hless) with h | h
        · rw [hworst] at h
          cases h
        · exact (aheadOf_iff _ _).mpr (.inl h)
      · exact hall y (List.mem_append_left _ hy)

/-- What was admitted is outranked at most, whatever is pushed afterwards. -/
theorem Admitted.outranked {k : Nat} {entries : List (Float × α)} {x : Float × (α × Nat)}
    (h : Admitted k entries x) : Outranked (received k entries) x := by
  obtain ⟨before, after, rfl, hnumber, hadm⟩ := h
  induction after using List.reverseRecOn with
  | nil =>
      have hpush : received k (before ++ [unnumbered x]) = (received k before).push x.1 x.2 := by
        rw [received_snoc, ← hnumber]
        rfl
      rw [hpush]
      exact .inl (mem_toList_push hadm x.2)
  | append_singleton after entry ih =>
      rw [← List.cons_append, ← List.append_assoc, received_snoc]
      refine ih.push (listed_received k _).sorted ?_ _ _
      rw [capacity_received]
      exact size_received_le k _

/-- A full container asks whether its worst entry is less. -/
theorem admits_iff_less {k : Nat} {entries : List (Float × α)} {score : Float}
    {worst : Float × (α × Nat)} (hadm : admissible score = true)
    (hfull : (received k entries).size = k)
    (hworst : (received k entries).toList.getLast? = some worst) :
    (received k entries).admits score = true ↔ less worst.1 score = true := by
  have hmin : (received k entries).minScore? = some worst.1 := by
    rw [toList, List.getLast?_reverse] at hworst
    rw [minScore?, hworst]
    rfl
  have hpos : k ≠ 0 := by
    intro hzero
    have hempty : (received k entries).toList = [] :=
      List.length_eq_zero_iff.mp (by rw [← size_eq_length]; omega)
    rw [hempty] at hworst
    cases hworst
  rw [KBest.admits, capacity_received, hfull, hmin, hadm]
  simp [hpos]

/-- **Ties keep the earlier insertion, except between the two zeros.** Whatever is pushed to a
container of any capacity, it hands out what it holds by score and then by number; once it is
full, an item is admitted if and only if it goes before the worst entry, except that zero is
refused by negative zero; and among items of equal scores, one that was admitted is held and
handed out before all later ones, except that zero goes before negative zero. -/
theorem agreesExcept_of_pushes (k : Nat) (entries : List (Float × α)) :
    (empty k).pushAll entries = (received k entries).relabel Prod.fst ∧
      ((received k entries).drain.1.Pairwise fun x y => aheadOf x y = true) ∧
      AgreesExcept ZeroStep k entries := by
  have hlisted := listed_received k entries
  refine ⟨pushAll_eq_relabel k entries, hlisted.sorted, ?_, ?_, ?_⟩
  · intro score item worst hadm hfull hworst
    have hmem : worst ∈ (received k entries).toList := List.mem_of_getLast? hworst
    have hahead : aheadOf (score, (item, entries.length)) worst = true ↔
        below worst.1 score = true := by
      have hnumber := hlisted.number worst hmem
      rw [aheadOf_iff]
      exact ⟨fun h => h.resolve_right fun h => absurd hnumber (Nat.not_lt_of_le h.2), .inl⟩
    rw [admits_iff_less hadm hfull hworst, hahead,
      Double.less_iff_below (isNaN_of_admissible (hlisted.admissible worst hmem))
        (isNaN_of_admissible hadm)]
  · intro x y hx hy hnumber hsame hstep
    rw [same, Bool.and_eq_true, Bool.and_eq_true, Bool.and_eq_true, Bool.not_eq_true',
      Bool.not_eq_true', Bool.not_eq_true'] at hsame
    obtain ⟨⟨⟨hxnum, hynum⟩, hless⟩, -⟩ := hsame
    have hbelow : below x.1 y.1 = false := by
      rw [← Bool.not_eq_true, Double.below_iff_less hxnum hynum, hless]
      simpa using hstep
    have hahead : aheadOf x y = true := (aheadOf_iff x y).mpr (.inr ⟨hbelow, Nat.le_of_lt hnumber⟩)
    -- two items that go before each other have one number
    have hnot : ¬ aheadOf y x = true := fun h => by
      have := number_eq_of_aheadOf hahead h
      omega
    have hheld : x ∈ (received k entries).toList :=
      hx.outranked.resolve_right fun h => hnot (h.2 y hy)
    exact pair_sublist_of_pairwise hlisted.sorted hheld hy
      (fun h => by rw [h] at hnumber; omega) hnot
  · intro x y hx hy hstep
    have hxnum := isNaN_of_admissible (hlisted.admissible x hx)
    have hynum := isNaN_of_admissible (hlisted.admissible y hy)
    have hbelow := (Double.below_iff_less hxnum hynum).mpr (.inr hstep)
    refine pair_sublist_of_pairwise hlisted.sorted hy hx ?_ fun h => ?_
    · intro h
      obtain ⟨hneg, -, hpos⟩ := hstep
      rw [h, hneg] at hpos
      cases hpos
    · rw [not_below_of_aheadOf h] at hbelow
      cases hbelow

/-- A container with room for one refuses a zero because of a negative zero, which the order
puts behind it. A container with room for two drops the negative zero although it came first. -/
theorem not_agreesExcept_zeros :
    ¬ AgreesExcept (fun _ _ => False) 1 [(-0.0, 'a')] ∧
      ¬ AgreesExcept (fun _ _ => False) 2 [(-0.0, 'a'), (0.0, 'b'), (1.0, 'c')] := by
  constructor
  · intro h
    have hadmits := h.admits 0.0 'b' (-0.0, ('a', 0)) (by decide +kernel) (by decide +kernel) rfl
    exact absurd (hadmits.mpr ⟨by decide +kernel, id⟩) (by decide +kernel)
  · intro h
    have hlast : (0.0, ('b', 1)) ∈
        (received 2 [(-0.0, 'a'), (0.0, 'b'), (1.0, 'c')]).drain.1 := List.mem_of_getLast? rfl
    have hfirst : Admitted 2 [(-0.0, 'a'), (0.0, 'b'), (1.0, 'c')] (-0.0, ('a', 0)) :=
      ⟨[], [(0.0, 'b'), (1.0, 'c')], rfl, rfl, by decide +kernel⟩
    have hlisted := h.keeps _ _ hfirst hlast (by decide) (by decide +kernel) id
    have hnumbers : ((received 2 [(-0.0, 'a'), (0.0, 'b'), (1.0, 'c')]).drain.1.map (·.2.2)) =
        [2, 1] := by decide +kernel
    have hpair := hlisted.map (·.2.2)
    rw [hnumbers] at hpair
    exact absurd hpair (by decide)

end KBest

end ChoiceSearch
