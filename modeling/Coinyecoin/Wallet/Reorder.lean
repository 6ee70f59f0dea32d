import Coinyecoin.Basic.Amount
import Mathlib.Data.List.Sort

/-!
# Numbering the transactions of old wallets

`CWallet::ReorderTransactions` goes through transactions and accounting entries by time. What has
no position gets the next one. A position that is there moves up by the number of positions given
before that are not above it: these count the moves made so far, but the position does not.
-/

namespace Coinyecoin

namespace ReorderTransactions

open Foundation List

/-- What is read of a transaction or of an accounting entry. -/
structure TxPair where
  isTx : Bool
  id : ℕ
  nTime : ℤ
  nOrderPos : ℤ
deriving DecidableEq, Repr

def TxPair.setPos (item : TxPair) (n : ℤ) : TxPair := { item with nOrderPos := n }

inductive LoopStop where
  | fault (f : Fault)
  | loadFail

def int64 (n : ℤ) : Except LoopStop ℤ := (checkedInt64 n).mapError .fault

def write (db : TxPair → Bool) (item : TxPair) : Except LoopStop Unit :=
  if db item then .ok () else .error .loadFail

/-- `done` has the items with their positions. -/
structure Loop where
  nOrderPosNext : ℤ
  nOrderPosOffsets : List ℤ
  done : List TxPair

def visit (db : TxPair → Bool) (s : Loop) (item : TxPair) : Except LoopStop Loop :=
  if item.nOrderPos = -1 then do
    let nNext ← int64 (s.nOrderPosNext + 1)
    write db (item.setPos s.nOrderPosNext)
    .ok ⟨nNext, s.nOrderPosOffsets ++ [s.nOrderPosNext], s.done ++ [item.setPos s.nOrderPosNext]⟩
  else do
    let nOrderPosOff := s.nOrderPosOffsets.countP (· ≤ item.nOrderPos)
    let nOrderPos ← int64 (item.nOrderPos + nOrderPosOff)
    let nAbove ← int64 (nOrderPos + 1)
    (if nOrderPosOff = 0 then .ok () else write db (item.setPos nOrderPos) : Except LoopStop Unit)
    .ok ⟨max s.nOrderPosNext nAbove, s.nOrderPosOffsets, s.done ++ [item.setPos nOrderPos]⟩

/-- The multimap: by time, and in the order of insertion for one time. -/
def txByTime (items : List TxPair) : List TxPair := items.insertionSort fun a b => a.nTime ≤ b.nTime

/-- The items are the transactions of `mapWallet` and then the accounting entries. -/
def reorderTransactions (db : TxPair → Bool) (items : List TxPair) : Except LoopStop Loop :=
  (txByTime items).foldlM (visit db) ⟨0, [], []⟩

variable {db : TxPair → Bool} {s s' : Loop} {item : TxPair} {n v : ℤ}

theorem int64_eq_ok : int64 n = .ok v ↔ FitsInt64 n ∧ v = n :=
  mapError_eq_ok.trans checkedInt64_eq_ok

theorem visit_new (hnew : item.nOrderPos = -1) (h : visit db s item = .ok s') :
    s' = ⟨s.nOrderPosNext + 1, s.nOrderPosOffsets ++ [s.nOrderPosNext],
      s.done ++ [item.setPos s.nOrderPosNext]⟩ := by
  rw [visit, if_pos hnew] at h
  obtain ⟨nNext, hnext, h⟩ := bind_eq_ok.1 h
  obtain ⟨-, rfl⟩ := int64_eq_ok.1 hnext
  obtain ⟨u, -, h⟩ := bind_eq_ok.1 h
  exact (Except.ok.inj h).symm

theorem visit_old (hold : item.nOrderPos ≠ -1) (h : visit db s item = .ok s') :
    ∃ pos, pos = item.nOrderPos + s.nOrderPosOffsets.countP (· ≤ item.nOrderPos) ∧
      s' = ⟨max s.nOrderPosNext (pos + 1), s.nOrderPosOffsets, s.done ++ [item.setPos pos]⟩ := by
  rw [visit, if_neg hold] at h
  obtain ⟨nOrderPos, hpos, h⟩ := bind_eq_ok.1 h
  obtain ⟨nAbove, habove, h⟩ := bind_eq_ok.1 h
  obtain ⟨-, rfl⟩ := int64_eq_ok.1 habove
  obtain ⟨u, -, h⟩ := bind_eq_ok.1 h
  exact ⟨nOrderPos, (int64_eq_ok.1 hpos).2, (Except.ok.inj h).symm⟩

/-- The position of the latest item with one; `before` has the latest item first. -/
def lastPos : List TxPair → ℤ
  | [] => -1
  | item :: before => if item.nOrderPos = -1 then lastPos before else item.nOrderPos

mutual

/-- How many items without a position move position `q`: each that, with what is crowded before it,
has room between the last position and `q`. -/
def moving (q : ℤ) : List TxPair → ℕ
  | [] => 0
  | item :: before =>
    moving q before +
      if item.nOrderPos = -1 ∧ (crowded before + 1 : ℤ) ≤ q - lastPos before then 1 else 0

/-- The items since the last position, and those that move it. -/
def crowded : List TxPair → ℕ
  | [] => 0
  | item :: before =>
    if item.nOrderPos = -1 then crowded before + 1 else moving item.nOrderPos before

end

/-- From each position to the next there is room for what is crowded in between. -/
def Spaced (before : List TxPair) : List TxPair → Prop
  | [] => True
  | item :: rest =>
    (item.nOrderPos ≠ -1 →
      (crowded before : ℤ) < item.nOrderPos - lastPos before + moving item.nOrderPos before) ∧
    Spaced (item :: before) rest

/-- The items have rising positions, and the next one follows the last of them. -/
structure Numbered (before : List TxPair) (s : Loop) : Prop where
  next : s.nOrderPosNext = lastPos before + crowded before + 1
  offsets : ∀ q, s.nOrderPosOffsets.countP (· ≤ q) = moving q before
  same : s.done.map (·.setPos 0) = before.reverse.map (·.setPos 0)
  rising : s.done.Pairwise fun a b => a.nOrderPos < b.nOrderPos
  top : ∀ a ∈ s.done, a.nOrderPos < s.nOrderPosNext
  last : before ≠ [] → ∃ a ∈ s.done, s.nOrderPosNext = a.nOrderPos + 1

variable {before rest : List TxPair} {pos : ℤ}

/-- What an item at `pos` or above it adds to the items that have their positions. -/
theorem Numbered.push (h : Numbered before s) (hpos : s.nOrderPosNext ≤ pos) {offsets : List ℤ}
    (hnext : pos = lastPos (item :: before) + crowded (item :: before))
    (hoffsets : ∀ q, offsets.countP (· ≤ q) = moving q (item :: before)) :
    Numbered (item :: before) ⟨pos + 1, offsets, s.done ++ [item.setPos pos]⟩ := by
  refine ⟨by rw [hnext], hoffsets, ?_, ?_, ?_, fun _ => ?_⟩
  · rw [map_append, h.same, reverse_cons, map_append]
    rfl
  · refine pairwise_append.2 ⟨h.rising, pairwise_singleton _ _, fun a ha b hb => ?_⟩
    rw [mem_singleton.1 hb]
    exact (h.top a ha).trans_le hpos
  · refine forall_mem_append.2 ⟨fun a ha => ?_, forall_mem_singleton.2 (Int.lt_succ pos)⟩
    exact (h.top a ha).trans_le (hpos.trans (Int.lt_succ pos).le)
  · exact ⟨item.setPos pos, mem_append_right _ mem_cons_self, rfl⟩

theorem Numbered.visit_new (h : Numbered before s) (hnew : item.nOrderPos = -1)
    (hvisit : visit db s item = .ok s') : Numbered (item :: before) s' := by
  obtain rfl := ReorderTransactions.visit_new hnew hvisit
  have hnext := h.next
  refine h.push le_rfl ?_ fun q => ?_
  · rw [lastPos, if_pos hnew, crowded, if_pos hnew]
    omega
  · have hiff : s.nOrderPosNext ≤ q ↔ (crowded before + 1 : ℤ) ≤ q - lastPos before := by omega
    simp only [countP_append, h.offsets, countP_singleton, moving, hnew, hiff, decide_eq_true_eq,
      true_and]

theorem Numbered.visit_old (h : Numbered before s) (hold : item.nOrderPos ≠ -1)
    (hspaced : (crowded before : ℤ) <
      item.nOrderPos - lastPos before + moving item.nOrderPos before)
    (hvisit : visit db s item = .ok s') : Numbered (item :: before) s' := by
  obtain ⟨pos, hmoved, rfl⟩ := ReorderTransactions.visit_old hold hvisit
  have hnext := h.next
  rw [h.offsets] at hmoved
  have hle : s.nOrderPosNext ≤ pos := by omega
  rw [max_eq_right (by omega)]
  refine h.push hle ?_ fun q => ?_
  · rw [lastPos, if_neg hold, crowded, if_neg hold, hmoved]
  · rw [h.offsets, moving, if_neg fun hnew => hold hnew.1, Nat.add_zero]

/-- The item does not get above the last one. -/
theorem Numbered.not_rising (h : Numbered before s) (hold : item.nOrderPos ≠ -1)
    (hpos : 0 ≤ item.nOrderPos)
    (hspaced : ¬ (crowded before : ℤ) <
      item.nOrderPos - lastPos before + moving item.nOrderPos before)
    (hvisit : visit db s item = .ok s') :
    ¬ s'.done.Pairwise fun a b => a.nOrderPos < b.nOrderPos := by
  obtain ⟨pos, hmoved, rfl⟩ := ReorderTransactions.visit_old hold hvisit
  have hnext := h.next
  rw [h.offsets] at hmoved
  have hsome : before ≠ [] := by
    rintro rfl
    simp only [lastPos, crowded, moving] at hspaced
    omega
  obtain ⟨a, ha, hlast⟩ := h.last hsome
  intro hrising
  have hlt : a.nOrderPos < pos := (pairwise_append.1 hrising).2.2 a ha _ mem_cons_self
  omega

theorem done_sublist (hrun : rest.foldlM (visit db) s = .ok s') : s.done.Sublist s'.done := by
  refine foldlM_keeps (P := fun t => s.done.Sublist t.done) ?_ (Sublist.refl _) hrun
  intro t item _ t' ht hvisit
  by_cases hnew : item.nOrderPos = -1
  · obtain rfl := visit_new hnew hvisit
    exact ht.trans (sublist_append_left _ _)
  · obtain ⟨_, -, rfl⟩ := visit_old hnew hvisit
    exact ht.trans (sublist_append_left _ _)

theorem Numbered.run (h : Numbered before s)
    (hpos : ∀ b ∈ rest, b.nOrderPos ≠ -1 → 0 ≤ b.nOrderPos)
    (hrun : rest.foldlM (visit db) s = .ok s') :
    (Spaced before rest → Numbered (rest.reverse ++ before) s') ∧
      ((s'.done.Pairwise fun a b => a.nOrderPos < b.nOrderPos) → Spaced before rest) := by
  induction rest generalizing before s with
  | nil =>
    obtain rfl := Except.ok.inj hrun
    exact ⟨fun _ => h, fun _ => trivial⟩
  | cons item rest ih =>
    obtain ⟨s₁, hvisit, hrun⟩ := bind_eq_ok.1 (foldlM_cons.symm.trans hrun)
    obtain ⟨hitem, hpos⟩ := forall_mem_cons.1 hpos
    rw [Spaced, reverse_cons, append_assoc, singleton_append]
    by_cases hnew : item.nOrderPos = -1
    · obtain ⟨hnumbered, hspaced⟩ := ih (h.visit_new hnew hvisit) hpos hrun
      exact ⟨fun hrest => hnumbered hrest.2, fun hrising => ⟨fun hold => absurd hnew hold,
        hspaced hrising⟩⟩
    · by_cases hroom : (crowded before : ℤ) <
          item.nOrderPos - lastPos before + moving item.nOrderPos before
      · obtain ⟨hnumbered, hspaced⟩ := ih (h.visit_old hnew hroom hvisit) hpos hrun
        exact ⟨fun hrest => hnumbered hrest.2, fun hrising => ⟨fun _ => hroom, hspaced hrising⟩⟩
      · refine ⟨fun hrest => absurd (hrest.1 hnew) hroom, fun hrising => ?_⟩
        exact absurd (hrising.sublist (done_sublist hrun))
          (h.not_rising hnew (hitem hnew) hroom hvisit)

end ReorderTransactions

end Coinyecoin
