import ChoiceSearch.Frontier.KBest
import ChoiceSearch.Frontier.Unbounded
import ChoiceSearch.Proofs.Scalar.Laws
import Mathlib.Data.List.Induction

/-!
# The `k` best items and sorting

A bounded container holds, at every moment, the first `k` entries of the stable
sort of everything that was offered to it (`toList_pushAll`). The sort is built up
one offer at a time: sorting one more entry places it behind the entries that are
at least as good (`bestFirst_snoc`), and what lies beyond the first `k` entries
never comes back (`take_placeAfter`).

The admission test compares numerically and the entries are kept in the sorting
order. The two agree when no score is negative zero.
-/

namespace ChoiceSearch

open Scalar

variable {R α : Type} [Scalar R]

/-- Places an entry into a list, best first, behind the entries at least as good. -/
def placeAfter (entry : R × α) : List (R × α) → List (R × α)
  | [] => [entry]
  | other :: rest =>
    if below other.1 entry.1 then entry :: other :: rest
    else other :: placeAfter entry rest

/-- Places an entry into a list, best first, before the entries at most as good. -/
def placeBefore (entry : R × α) : List (R × α) → List (R × α)
  | [] => [entry]
  | other :: rest =>
    if below entry.1 other.1 then other :: placeBefore entry rest
    else entry :: other :: rest

/-- The entries are listed best first. -/
def BestFirst (entries : List (R × α)) : Prop :=
  entries.Pairwise fun x y => below x.1 y.1 = false

@[simp] theorem length_placeAfter (entry : R × α) (entries : List (R × α)) :
    (placeAfter entry entries).length = entries.length + 1 := by
  induction entries with
  | nil => rfl
  | cons other rest ih =>
      unfold placeAfter
      split
      · rfl
      · rw [List.length_cons, ih, List.length_cons]

/-- Beyond the first `k` entries nothing matters for the first `k` entries after
one more was placed. -/
theorem take_placeAfter (entry : R × α) (k : Nat) (entries : List (R × α)) :
    (placeAfter entry (entries.take k)).take k = (placeAfter entry entries).take k := by
  induction entries generalizing k with
  | nil => rw [List.take_nil]
  | cons other rest ih =>
      cases k with
      | zero => rfl
      | succ k =>
          rw [List.take_succ_cons]
          unfold placeAfter
          by_cases h : below other.1 entry.1 = true
          · rw [if_pos h, if_pos h, List.take_succ_cons, List.take_succ_cons]
            congr 1
            cases k with
            | zero => rfl
            | succ k =>
                rw [List.take_succ_cons, List.take_succ_cons, List.take_take]
                congr 2
                omega
          · rw [if_neg h, if_neg h, List.take_succ_cons, List.take_succ_cons, ih]

/-- An entry that beats the last one is placed before it. -/
theorem placeAfter_append_of_below {entry last : R × α} (h : below last.1 entry.1 = true)
    (entries : List (R × α)) :
    placeAfter entry (entries ++ [last]) = placeAfter entry entries ++ [last] := by
  induction entries with
  | nil =>
      show (if below last.1 entry.1 then _ else _) = _
      rw [if_pos h]
      rfl
  | cons other rest ih =>
      rw [List.cons_append]
      unfold placeAfter
      split
      · rfl
      · rw [ih, List.cons_append]

/-- An entry that beats none is placed last. -/
theorem placeAfter_of_forall {entry : R × α} {entries : List (R × α)}
    (h : ∀ other ∈ entries, below other.1 entry.1 = false) :
    placeAfter entry entries = entries ++ [entry] := by
  induction entries with
  | nil => rfl
  | cons other rest ih =>
      have hother := h other List.mem_cons_self
      have hrest := ih fun x hx => h x (List.mem_cons_of_mem _ hx)
      unfold placeAfter
      rw [if_neg (by rw [hother]; exact Bool.false_ne_true), hrest, List.cons_append]

section Sorting

variable [LawfulScalar R]

/-- A list, best first, whose last entry is not beaten is beaten nowhere. -/
theorem BestFirst.not_below {entries : List (R × α)} {last : R × α} {score : R}
    (hs : BestFirst (entries ++ [last])) (h : below last.1 score = false) :
    ∀ other ∈ entries ++ [last], below other.1 score = false := by
  intro other hmem
  rcases List.mem_append.mp hmem with hmem | hmem
  · have hlast := (List.pairwise_append.mp hs).2.2 other hmem last (List.mem_singleton.mpr rfl)
    exact below_trans_not hlast h
  · rw [List.mem_singleton.mp hmem]
    exact h

/-- Placing an entry before its equals and another one behind its equals can be
done in either order. -/
theorem placeBefore_placeAfter (first last : R × α) (entries : List (R × α)) :
    placeBefore first (placeAfter last entries) =
      placeAfter last (placeBefore first entries) := by
  induction entries with
  | nil =>
      unfold placeAfter placeBefore
      by_cases h : below first.1 last.1 = true
      · simp [placeBefore, h]
      · simp [placeAfter, h]
  | cons other rest ih =>
      by_cases hlast : below other.1 last.1 = true <;>
        by_cases hfirst : below first.1 other.1 = true
      · -- `first` is the worst of the three
        have hboth : below first.1 last.1 = true := by
          rcases LawfulScalar.below_split first.1 last.1 other.1 hfirst with h | h
          · exact h
          · rw [LawfulScalar.below_asymm _ _ hlast] at h
            cases h
        simp [placeAfter, placeBefore, hlast, hfirst, hboth]
      · by_cases hboth : below first.1 last.1 = true
        · simp [placeAfter, placeBefore, hlast, hfirst, hboth]
        · simp [placeAfter, placeBefore, hlast, hfirst, hboth]
      · simp [placeAfter, placeBefore, hlast, hfirst, ih]
      · have hboth : ¬ below first.1 last.1 = true := by
          intro h
          rcases LawfulScalar.below_split first.1 other.1 last.1 h with h' | h'
          · exact hfirst h'
          · exact hlast h'
        simp [placeAfter, placeBefore, hlast, hfirst, hboth]

theorem bestFirst_trans (x y z : R × α) (hxy : (!below x.1 y.1) = true)
    (hyz : (!below y.1 z.1) = true) : (!below x.1 z.1) = true := by
  rw [Bool.not_eq_true'] at hxy hyz ⊢
  exact below_trans_not hxy hyz

theorem bestFirst_total (x y : R × α) :
    ((!below x.1 y.1) || (!below y.1 x.1)) = true := by
  cases h : below x.1 y.1 with
  | false => rfl
  | true => rw [LawfulScalar.below_asymm _ _ h]; rfl

/-- Sorting lists the entries best first. -/
theorem bestFirst_sorted (entries : List (R × α)) :
    BestFirst (Unbounded.bestFirst entries) := by
  refine (List.pairwise_mergeSort bestFirst_trans bestFirst_total entries).imp ?_
  intro x y h
  rwa [Bool.not_eq_true'] at h

/-- Sorting one more entry in front places it before its equals. -/
theorem bestFirst_cons (entry : R × α) (entries : List (R × α)) :
    Unbounded.bestFirst (entry :: entries) =
      placeBefore entry (Unbounded.bestFirst entries) := by
  obtain ⟨better, rest, hwith, hwithout, hbetter⟩ :=
    List.mergeSort_cons bestFirst_trans bestFirst_total entry entries
  have hsorted : BestFirst (better ++ entry :: rest) := by
    have := bestFirst_sorted (entry :: entries)
    rwa [Unbounded.bestFirst, hwith] at this
  have hrest : placeBefore entry rest = entry :: rest := by
    cases rest with
    | nil => rfl
    | cons other rest =>
        have hhead := (List.pairwise_cons.mp (List.pairwise_append.mp hsorted).2.1).1 other
          List.mem_cons_self
        simp [placeBefore, hhead]
  rw [Unbounded.bestFirst, Unbounded.bestFirst, hwith, hwithout]
  clear hwith hwithout hsorted
  induction better with
  | nil => exact hrest.symm
  | cons other better ih =>
      have hother := hbetter other List.mem_cons_self
      rw [Bool.not_not] at hother
      rw [List.cons_append, List.cons_append, ih fun b hb => hbetter b (List.mem_cons_of_mem _ hb)]
      conv => rhs; unfold placeBefore
      rw [if_pos hother]

/-- Sorting one more entry at the end places it behind its equals. -/
theorem bestFirst_snoc (entries : List (R × α)) (entry : R × α) :
    Unbounded.bestFirst (entries ++ [entry]) =
      placeAfter entry (Unbounded.bestFirst entries) := by
  induction entries with
  | nil => simp [Unbounded.bestFirst, placeAfter]
  | cons other rest ih =>
      rw [List.cons_append, bestFirst_cons, ih, bestFirst_cons, placeBefore_placeAfter]

omit [LawfulScalar R] in
/-- Placing an entry only adds it. -/
theorem sublist_placeBefore (entry : R × α) (entries : List (R × α)) :
    entries.Sublist (placeBefore entry entries) := by
  induction entries with
  | nil => exact List.nil_sublist _
  | cons other rest ih =>
      unfold placeBefore
      split
      · exact ih.cons_cons other
      · exact .cons entry (List.Sublist.refl _)

/-- Where entries are left out, the others are still around the place of a new one. -/
theorem placeBefore_sublist {entry : R × α} {kept entries : List (R × α)}
    (h : kept.Sublist entries) (hs : BestFirst entries) :
    (placeBefore entry kept).Sublist (placeBefore entry entries) := by
  induction h with
  | slnil => exact List.Sublist.refl _
  | @cons kept entries other hsub ih =>
      obtain ⟨hother, hrest⟩ := List.pairwise_cons.mp hs
      rw [placeBefore.eq_def entry (other :: entries)]
      dsimp only
      by_cases h : below entry.1 other.1 = true
      · rw [if_pos h]
        exact (ih hrest).cons other
      · rw [if_neg h]
        rw [Bool.not_eq_true] at h
        -- nothing that is left is better than `other`, so the entry comes first in both
        have hfirst : placeBefore entry kept = entry :: kept := by
          cases kept with
          | nil => rfl
          | cons first kept =>
              have hbest := hother first (hsub.subset List.mem_cons_self)
              rw [placeBefore, if_neg (by rw [below_trans_not h hbest]; exact Bool.false_ne_true)]
        rw [hfirst]
        exact (hsub.cons other).cons_cons entry
  | @cons_cons kept entries other hsub ih =>
      obtain ⟨-, hrest⟩ := List.pairwise_cons.mp hs
      rw [placeBefore.eq_def entry (other :: entries), placeBefore.eq_def entry (other :: kept)]
      dsimp only
      split
      · exact (ih hrest).cons_cons other
      · exact (hsub.cons_cons other).cons_cons entry

/-- **Sorting is stable where entries are left out**: the others keep their order. -/
theorem bestFirst_sublist {kept entries : List (R × α)} (h : kept.Sublist entries) :
    (Unbounded.bestFirst kept).Sublist (Unbounded.bestFirst entries) := by
  induction h with
  | slnil => exact List.Sublist.refl _
  | cons entry _ ih =>
      rw [bestFirst_cons]
      exact ih.trans (sublist_placeBefore entry _)
  | cons_cons entry _ ih =>
      rw [bestFirst_cons, bestFirst_cons]
      exact placeBefore_sublist ih (bestFirst_sorted _)

end Sorting

namespace KBest

/-- Offers entries one after the other. -/
def pushAll (q : KBest R α) (entries : List (R × α)) : KBest R α :=
  entries.foldl (fun q entry => q.push entry.1 entry.2) q

@[simp] theorem capacity_push (q : KBest R α) (score : R) (item : α) :
    (q.push score item).capacity = q.capacity := by
  unfold push
  split
  · rfl
  · rfl

@[simp] theorem capacity_pushAll (q : KBest R α) (entries : List (R × α)) :
    (q.pushAll entries).capacity = q.capacity := by
  induction entries generalizing q with
  | nil => rfl
  | cons entry rest ih => exact (ih _).trans (capacity_push q entry.1 entry.2)

theorem pushAll_append (q : KBest R α) (entries more : List (R × α)) :
    q.pushAll (entries ++ more) = (q.pushAll entries).pushAll more :=
  List.foldl_append

variable [LawfulScalar R]

/-- Placing an entry among entries stored worst first is placing it in the list. -/
theorem reverse_place {score : R} {item : α} {entries : List (R × α)}
    (hs : BestFirst entries.reverse) :
    (place score item entries).reverse = placeAfter (score, item) entries.reverse := by
  induction entries with
  | nil => rfl
  | cons entry rest ih =>
      rw [List.reverse_cons] at hs ⊢
      unfold place
      by_cases h : below entry.1 score = true
      · rw [if_pos h, List.reverse_cons, ih (List.pairwise_append.mp hs).1,
          placeAfter_append_of_below h]
      · rw [Bool.not_eq_true] at h
        rw [if_neg (by rw [h]; exact Bool.false_ne_true),
          placeAfter_of_forall (hs.not_below h)]
        simp

/-- With room left, a container places what it is offered. -/
theorem toList_push_of_room {q : KBest R α} {score : R} {item : α} (hsorted : BestFirst q.toList)
    (hadm : admissible score = true) (hroom : q.size < q.capacity) :
    (q.push score item).toList = placeAfter (score, item) q.toList := by
  have hzero : q.capacity ≠ 0 := Nat.ne_of_gt (Nat.zero_lt_of_lt hroom)
  have hyes : q.admits score = true := by simp [admits, hzero, hadm, hroom]
  rw [push, if_pos hyes, if_pos hroom]
  exact reverse_place hsorted

/-- A full container gives up its worst entry for what beats it, and nothing else. -/
theorem toList_push_of_full {q : KBest R α} {score : R} {item : α} (hsorted : BestFirst q.toList)
    (hplain : ∀ entry ∈ q.toList, isPlainNumber entry.1 = true)
    (hscore : isPlainNumber score = true) (hadm : admissible score = true)
    (hzero : q.capacity ≠ 0) (hfull : q.size = q.capacity) :
    (q.push score item).toList = (placeAfter (score, item) q.toList).take q.capacity := by
  have hroom : ¬ q.size < q.capacity := Nat.not_lt_of_le (Nat.le_of_eq hfull.symm)
  cases hent : q.entries with
  | nil =>
      unfold size at hfull
      rw [hent] at hfull
      exact absurd hfull.symm hzero
  | cons worst rest =>
      have hlist : q.toList = rest.reverse ++ [worst] := by rw [toList, hent, List.reverse_cons]
      have hlen : rest.length + 1 = q.capacity := by rw [← hfull, size, hent, List.length_cons]
      have hmem : worst ∈ q.toList := by
        rw [hlist]
        simp
      have hadmits : q.admits score = below worst.1 score := by
        rw [← LawfulScalar.less_eq_below _ _ (hplain worst hmem) hscore]
        simp [admits, hzero, hadm, hroom, minScore?, hent]
      rw [hlist] at hsorted
      by_cases hbeats : below worst.1 score = true
      · rw [push, if_pos (hadmits.trans hbeats), if_neg hroom, hent, List.tail_cons, hlist,
          placeAfter_append_of_below hbeats]
        show (place score item rest).reverse = _
        have hkept : (placeAfter (score, item) rest.reverse).length = q.capacity := by
          rw [length_placeAfter, List.length_reverse, hlen]
        rw [reverse_place (List.pairwise_append.mp hsorted).1, ← hkept, List.take_left]
      · rw [Bool.not_eq_true] at hbeats
        rw [push, hadmits, hbeats, if_neg Bool.false_ne_true, hlist,
          placeAfter_of_forall (hsorted.not_below hbeats)]
        have hkept : (rest.reverse ++ [worst]).length = q.capacity := by
          rw [List.length_append, List.length_reverse, List.length_singleton, hlen]
        rw [← hkept, List.take_left]

/-- One more offer to a container that holds the first entries of a sorted list. -/
theorem toList_push {q : KBest R α} {entries : List (R × α)} {score : R} {item : α}
    (hq : q.toList = entries.take q.capacity) (hs : BestFirst entries)
    (hplain : ∀ entry ∈ entries, isPlainNumber entry.1 = true)
    (hscore : isPlainNumber score = true) (hadm : admissible score = true) :
    (q.push score item).toList = (placeAfter (score, item) entries).take q.capacity := by
  -- what was cut off before is beaten by what is kept, so only the container matters
  rw [← take_placeAfter, ← hq]
  have hsorted : BestFirst q.toList := by
    rw [hq]
    exact hs.sublist (List.take_sublist _ _)
  have hsize : q.size ≤ q.capacity := by
    have hlen := congrArg List.length hq
    rw [toList, List.length_reverse, List.length_take] at hlen
    unfold size
    omega
  by_cases hzero : q.capacity = 0
  · have hempty : q.entries = [] := List.length_eq_zero_iff.mp (by unfold size at hsize; omega)
    have hno : q.admits score = false := by simp [admits, hzero]
    rw [push, hno, hzero]
    simp [toList, hempty]
  by_cases hroom : q.size < q.capacity
  · have hlen : (placeAfter (score, item) q.toList).length ≤ q.capacity := by
      rw [length_placeAfter, toList, List.length_reverse]
      exact hroom
    rw [toList_push_of_room hsorted hadm hroom, List.take_of_length_le hlen]
  · have hfull : q.size = q.capacity := by omega
    refine toList_push_of_full hsorted (fun entry hmem => ?_) hscore hadm hzero hfull
    rw [hq] at hmem
    exact hplain entry (List.mem_of_mem_take hmem)

/-- A container holds the first entries of the stable sort of what was offered. -/
theorem toList_pushAll (k : Nat) (entries : List (R × α))
    (hentries : ∀ entry ∈ entries,
      admissible entry.1 = true ∧ isNegZero entry.1 = false) :
    ((empty k).pushAll entries).toList = (Unbounded.bestFirst entries).take k := by
  induction entries using List.reverseRecOn with
  | nil =>
      rw [Unbounded.bestFirst, List.mergeSort_nil, List.take_nil]
      rfl
  | append_singleton entries entry ih =>
      have hplain : ∀ e ∈ entries ++ [entry], isPlainNumber e.1 = true := fun e he =>
        isPlainNumber_of_admissible (hentries e he).1 (hentries e he).2
      have hcap : ((empty k).pushAll entries).capacity = k := capacity_pushAll _ _
      have hlast : entry ∈ entries ++ [entry] := by simp
      have hmem : ∀ e ∈ Unbounded.bestFirst entries, isPlainNumber e.1 = true := fun e he =>
        hplain e (List.mem_append_left _ (List.mem_mergeSort.mp he))
      have hheld : ((empty k).pushAll entries).toList =
          (Unbounded.bestFirst entries).take ((empty k).pushAll entries).capacity := by
        rw [hcap]
        exact ih fun e he => hentries e (List.mem_append_left _ he)
      have hpush : (((empty k).pushAll entries).push entry.1 entry.2).toList = _ :=
        toList_push hheld (bestFirst_sorted entries) hmem (hplain entry hlast)
          (hentries entry hlast).1
      rw [pushAll_append, bestFirst_snoc]
      show (((empty k).pushAll entries).push entry.1 entry.2).toList = _
      rw [hpush, hcap]

end KBest

end ChoiceSearch
