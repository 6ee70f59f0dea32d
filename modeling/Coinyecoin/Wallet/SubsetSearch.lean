import Coinyecoin.Primitives.Transaction
import Mathlib.Algebra.Order.BigOperators.Group.Finset

/-!
# The search for a subset of coins

`ApproximateBestSubset` looks for coins that are worth a target or little more. It
goes through the coins in two passes, the first of which takes a coin or not by a
random bit, notes each subset that reaches the target below the best one so far and
takes its last coin out again. Whatever the bits are, what it ends with is a subset
with its own sum, not below the target. A vector of flags is the set of the indexes
that are set.
-/

namespace Coinyecoin

open Foundation Finset

abbrev ValuedCoin := ℤ × COutPoint

def coinAt (vValue : List ValuedCoin) (i : ℕ) : ValuedCoin := vValue.getD i (0, ⟨0, 0⟩)

structure SubsetSearch where
  vfIncluded : Finset ℕ
  nTotal : ℤ
  fReachedTarget : Bool
  vfBest : Finset ℕ
  nBest : ℤ

namespace SubsetSearch

section

variable (R : AmountReading) (vValue : List ValuedCoin) (nTargetValue : ℤ)

/-- A coin is taken, and put back if the target is reached with it. -/
def tryCoin (st : SubsetSearch) (i : ℕ) : Except Fault SubsetSearch := do
  let nTotal ← R.value (st.nTotal + (coinAt vValue i).1)
  let vfIncluded := insert i st.vfIncluded
  if nTotal ≥ nTargetValue then
    let better := nTotal < st.nBest
    return {
      vfIncluded := vfIncluded.erase i
      nTotal := nTotal - (coinAt vValue i).1
      fReachedTarget := true
      vfBest := if better then vfIncluded else st.vfBest
      nBest := if better then nTotal else st.nBest }
  else return { st with vfIncluded := vfIncluded, nTotal := nTotal }

/-- One pass over the coins; `takes` says of the flags and an index whether the coin is taken. -/
def pass (takes : Finset ℕ → ℕ → Bool) (n : ℕ) (st : SubsetSearch) : Except Fault SubsetSearch :=
  (List.range n).foldlM
    (fun st i => if takes st.vfIncluded i then st.tryCoin R vValue nTargetValue i else .ok st) st

/-- One repetition: the pass by random bits and, if the target was not reached, the pass over the
coins that are left. -/
def repetition (bits : ℕ → Bool) (st : SubsetSearch) : Except Fault SubsetSearch := do
  let st ← pass R vValue nTargetValue (fun _ i => bits i) vValue.length
    { st with vfIncluded := ∅, nTotal := 0, fReachedTarget := false }
  if st.fReachedTarget then return st
  else pass R vValue nTargetValue (fun vfIncluded i => decide (i ∉ vfIncluded)) vValue.length st

def repeatLoop (bits : ℕ → ℕ → Bool) : ℕ → ℕ → SubsetSearch → Except Fault SubsetSearch
  | 0, _, st => .ok st
  | left + 1, nRep, st =>
    if st.nBest = nTargetValue then .ok st
    else do
      let st ← repetition R vValue nTargetValue (bits nRep) st
      repeatLoop bits left (nRep + 1) st

/-- `ApproximateBestSubset`: the flags and the sum of the best subset. -/
def approximateBestSubset (bits : ℕ → ℕ → Bool) (nTotalLower : ℤ) :
    Except Fault (Finset ℕ × ℤ) := do
  let st ← repeatLoop R vValue nTargetValue bits 1000 0
    ⟨∅, 0, false, Finset.range vValue.length, nTotalLower⟩
  return (st.vfBest, st.nBest)

end

section

variable {R : AmountReading} {vValue : List ValuedCoin} {nTargetValue : ℤ}

def sumAt (vValue : List ValuedCoin) (S : Finset ℕ) : ℤ := ∑ i ∈ S, (coinAt vValue i).1

/-- The flags are those of coins, with their sums, and the best subset reaches the target. -/
structure Sound (vValue : List ValuedCoin) (nTargetValue : ℤ) (st : SubsetSearch) : Prop where
  included : st.vfIncluded ⊆ Finset.range vValue.length
  total : st.nTotal = sumAt vValue st.vfIncluded
  best : st.vfBest ⊆ Finset.range vValue.length
  bestTotal : st.nBest = sumAt vValue st.vfBest
  reaches : nTargetValue ≤ st.nBest

/-- The reading has the sum of every subset. -/
def HasSums (R : AmountReading) (vValue : List ValuedCoin) : Prop :=
  ∀ S ⊆ Finset.range vValue.length, R.Has (sumAt vValue S)

variable {st : SubsetSearch}

section

variable (h : st.Sound vValue nTargetValue) (hsums : HasSums R vValue)
include h hsums

theorem Sound.tryCoin {i : ℕ} (hi : i < vValue.length) (hnew : i ∉ st.vfIncluded) :
    ∃ st', st.tryCoin R vValue nTargetValue i = .ok st' ∧ st'.Sound vValue nTargetValue ∧
      st'.vfIncluded ⊆ insert i st.vfIncluded := by
  have hsub : insert i st.vfIncluded ⊆ Finset.range vValue.length :=
    insert_subset (mem_range.2 hi) h.included
  have htotal : st.nTotal + (coinAt vValue i).1 = sumAt vValue (insert i st.vfIncluded) := by
    rw [sumAt, sum_insert hnew, h.total, sumAt, add_comm]
  unfold SubsetSearch.tryCoin
  rw [htotal, AmountReading.value_of_has (hsums _ hsub), ok_bind]
  dsimp only
  split_ifs with hreached hbetter
  · refine ⟨_, rfl, ⟨?_, ?_, hsub, rfl, hreached⟩, erase_subset _ _⟩
    · rw [erase_insert hnew]
      exact h.included
    · rw [erase_insert hnew, ← htotal, add_sub_cancel_right, h.total]
  · refine ⟨_, rfl, ⟨?_, ?_, h.best, h.bestTotal, h.reaches⟩, erase_subset _ _⟩
    · rw [erase_insert hnew]
      exact h.included
    · rw [erase_insert hnew, ← htotal, add_sub_cancel_right, h.total]
  · exact ⟨_, rfl, ⟨hsub, rfl, h.best, h.bestTotal, h.reaches⟩, subset_rfl⟩

theorem Sound.pass (takes : Finset ℕ → ℕ → Bool) {n : ℕ} (hn : n ≤ vValue.length)
    (htakes : ∀ S i, S ⊆ st.vfIncluded ∪ Finset.range i → takes S i = true → i ∉ S) :
    ∃ st', SubsetSearch.pass R vValue nTargetValue takes n st = .ok st' ∧
      st'.Sound vValue nTargetValue ∧ st'.vfIncluded ⊆ st.vfIncluded ∪ Finset.range n := by
  induction n with
  | zero => exact ⟨st, rfl, h, subset_union_left⟩
  | succ n ih =>
    obtain ⟨st', hrun, hsound, hsub⟩ := ih (by omega)
    have hnext : st'.vfIncluded ⊆ st.vfIncluded ∪ Finset.range (n + 1) :=
      hsub.trans (union_subset_union subset_rfl (range_subset_range.2 (by omega)))
    have hlast : SubsetSearch.pass R vValue nTargetValue takes (n + 1) st =
        (if takes st'.vfIncluded n then st'.tryCoin R vValue nTargetValue n else .ok st') := by
      unfold SubsetSearch.pass at hrun ⊢
      rw [List.range_succ, List.foldlM_append, hrun, ok_bind, List.foldlM_cons]
      simp only [List.foldlM_nil, bind_pure]
    rw [hlast]
    split_ifs with htake
    · obtain ⟨st'', hrun', hsound', hsub'⟩ :=
        hsound.tryCoin hsums (by omega) (htakes _ _ hsub htake)
      refine ⟨st'', hrun', hsound', hsub'.trans (insert_subset ?_ hnext)⟩
      exact mem_union_right _ (mem_range.2 (Nat.lt_succ_self n))
    · exact ⟨st', rfl, hsound, hnext⟩

theorem Sound.repetition (bits : ℕ → Bool) :
    ∃ st', SubsetSearch.repetition R vValue nTargetValue bits st = .ok st' ∧
      st'.Sound vValue nTargetValue := by
  have hstart : Sound vValue nTargetValue
      { st with vfIncluded := ∅, nTotal := 0, fReachedTarget := false } :=
    ⟨empty_subset _, rfl, h.best, h.bestTotal, h.reaches⟩
  -- in the first pass the flags that are set belong to coins that were passed
  obtain ⟨st', hrun, hsound, -⟩ := hstart.pass hsums (fun _ i => bits i) le_rfl
    fun S i hS _ hmem => absurd (hS hmem) (by simp)
  unfold SubsetSearch.repetition
  rw [hrun, ok_bind]
  split_ifs with hreached
  · exact ⟨st', rfl, hsound⟩
  · obtain ⟨st'', hrun', hsound', -⟩ := hsound.pass hsums
      (fun vfIncluded i => decide (i ∉ vfIncluded)) le_rfl
      fun S i _ htake => of_decide_eq_true htake
    exact ⟨st'', hrun', hsound'⟩

theorem Sound.repeatLoop (bits : ℕ → ℕ → Bool) (left nRep : ℕ) :
    ∃ st', SubsetSearch.repeatLoop R vValue nTargetValue bits left nRep st = .ok st' ∧
      st'.Sound vValue nTargetValue := by
  induction left generalizing st nRep with
  | zero => exact ⟨st, rfl, h⟩
  | succ left ih =>
    rw [SubsetSearch.repeatLoop]
    split_ifs with hfound
    · exact ⟨st, rfl, h⟩
    · obtain ⟨st', hrun, hsound⟩ := h.repetition hsums (bits nRep)
      rw [hrun, ok_bind]
      exact ih hsound (nRep + 1)

end

theorem approximateBestSubset_spec (hsums : HasSums R vValue) {nTotalLower : ℤ}
    (htotal : nTotalLower = sumAt vValue (Finset.range vValue.length))
    (hreach : nTargetValue ≤ nTotalLower) (bits : ℕ → ℕ → Bool) :
    ∃ vfBest nBest,
      approximateBestSubset R vValue nTargetValue bits nTotalLower = .ok (vfBest, nBest) ∧
        vfBest ⊆ Finset.range vValue.length ∧ nBest = sumAt vValue vfBest ∧
        nTargetValue ≤ nBest := by
  have hstart : Sound vValue nTargetValue
      ⟨∅, 0, false, Finset.range vValue.length, nTotalLower⟩ :=
    ⟨empty_subset _, rfl, subset_rfl, htotal, hreach⟩
  obtain ⟨st, hrun, hsound⟩ := hstart.repeatLoop hsums bits 1000 0
  refine ⟨st.vfBest, st.nBest, ?_, hsound.best, hsound.bestTotal, hsound.reaches⟩
  unfold approximateBestSubset
  rw [hrun]
  rfl

end

end SubsetSearch

end Coinyecoin
