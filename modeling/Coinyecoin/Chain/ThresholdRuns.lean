import Coinyecoin.Chain.VersionBits
import Mathlib.Algebra.Order.Ring.Int
import Mathlib.Algebra.Order.Ring.Nat

/-!
# Deployments along a chain

The states that `GetStateFor` finds along one chain, period by period, and the
height that `GetStateSinceHeightFor` gives. The shortcut for blocks before the
start time agrees with the transitions only if the median times do not decrease
along the chain; the cache may hold states of any other branch.
-/

namespace Coinyecoin

open Foundation Consensus CBlockIndex BlockTree Nat

section

variable {Ptr : Type} [DecidableEq Ptr] (T : BlockTree Ptr) (checker : ConditionChecker)

def sinceLoop (hpos : 0 < checker.period) (initialState : ThresholdState) (pindexPrev : Ptr)
    (cache : ThresholdConditionCache Ptr) : Except Fault (Ptr × ThresholdConditionCache Ptr) :=
  match _hprev : getAncestor T.index pindexPrev
      ((T.index pindexPrev).nHeight - checker.period) with
  | .error f => .error f
  | .ok none => .ok (pindexPrev, cache)
  | .ok (some previousPeriodParent) => do
    let (state, cache) ← getStateFor T checker (some previousPeriodParent) cache
    if state = initialState then sinceLoop hpos initialState previousPeriodParent cache
    else return (pindexPrev, cache)
termination_by (T.index pindexPrev).nHeight
decreasing_by
  obtain ⟨prev', hprev', hsteps, -⟩ := getAncestor_period (T := T) (p := pindexPrev) hpos
  rw [hprev'] at _hprev
  cases _hprev
  exact Nat.lt_of_succ_lt_succ hsteps

def getStateSinceHeightFor (hpos : 0 < checker.period) (pindexPrev : Option Ptr)
    (cache : ThresholdConditionCache Ptr) : Except Fault (ℕ × ThresholdConditionCache Ptr) := do
  let (initialState, cache) ← getStateFor T checker pindexPrev cache
  if initialState = .defined then return (0, cache)
  else
    match pindexPrev with
    | none => .error .nullDereference
    | some _ =>
      match ← lastOfPeriod T checker pindexPrev with
      | none => .error .nullDereference
      | some pindexPrev => do
        let (pindexPrev, cache) ← sinceLoop T checker hpos initialState pindexPrev cache
        return ((T.index pindexPrev).nHeight + 1, cache)

/-- The caches that queries leave, at any blocks and in any order. -/
inductive CacheFilled : ThresholdConditionCache Ptr → Prop
  | empty : CacheFilled fun _ => none
  | query {cache cache' pindexPrev state} : CacheFilled cache →
      getStateFor T checker pindexPrev cache = .ok (state, cache') → CacheFilled cache'

variable {T checker} {cache : ThresholdConditionCache Ptr}

section

variable (hpos : 0 < checker.period) (h : CacheFilled T checker cache)
include hpos h

theorem CacheFilled.correct : CacheCorrect T checker hpos cache := by
  induction h with
  | empty =>
    intro key state hstate
    cases hstate
  | @query cache cache' pindexPrev state _ hquery ih =>
    obtain ⟨found, hfound⟩ := stateAt_returns (T := T) hpos pindexPrev
    obtain ⟨after, hrun, hcorrect⟩ := getStateFor_spec ih hfound
    rw [hrun] at hquery
    cases hquery
    exact hcorrect

theorem CacheFilled.getStateFor_eq {pindexPrev : Option Ptr} {state : ThresholdState}
    (hstate : stateAt T checker hpos pindexPrev = .ok state) :
    ∃ cache', getStateFor T checker pindexPrev cache = .ok (state, cache') ∧
      CacheFilled T checker cache' := by
  obtain ⟨cache', hrun, -⟩ := getStateFor_spec (h.correct hpos) hstate
  exact ⟨cache', hrun, h.query hrun⟩

end

end

section

variable {Ptr : Type} (T : BlockTree Ptr) (checker : ConditionChecker)

def nextHeight : Option Ptr → ℕ
  | none => 0
  | some p => (T.index p).nHeight + 1

/-- The given block or one before it, `none` being before the genesis block. -/
def OnChain (p : Ptr) (q : Option Ptr) : Prop :=
  ∀ b, q = some b → IsAncestor T.index p b

def periodEnd (p : Ptr) (k : ℕ) : Option Ptr :=
  ancestorAt T.index p ((k * checker.period : ℕ) - 1)

variable {T checker} {p q : Ptr}

theorem ancestorAt_ancestor (h : IsAncestor T.index p q) {height : ℤ}
    (hheight : height ≤ (T.index q).nHeight) :
    ancestorAt T.index q height = ancestorAt T.index p height := by
  have hle := (T.walkBack_of_isAncestor h).1
  by_cases hneg : height < 0
  · rw [ancestorAt, ancestorAt, if_pos (Or.inr hneg), if_pos (Or.inr hneg)]
  · obtain ⟨r, -, hr, hrheight⟩ := T.getAncestor_spec q height (by omega) hheight
    rw [ancestorAt_eq_some.2 ⟨hr, hrheight⟩, ancestorAt_eq_some.2 ⟨h.trans hr, hrheight⟩]

theorem periodEnd_zero : periodEnd T checker p 0 = none := by
  rw [periodEnd, ancestorAt, zero_mul, if_pos (Or.inr (by decide))]

variable {k : ℕ}

theorem periodEnd_ancestor (h : IsAncestor T.index p q)
    (hk : k * checker.period ≤ (T.index q).nHeight + 1) :
    periodEnd T checker q k = periodEnd T checker p k :=
  ancestorAt_ancestor h (by omega)

theorem lastOfPeriod_eq (hpos : 0 < checker.period) :
    lastOfPeriod T checker (some p) =
      .ok (periodEnd T checker p (((T.index p).nHeight + 1) / checker.period)) := by
  have hsplit := div_add_mod' ((T.index p).nHeight + 1) checker.period
  rw [lastOfPeriod, checkedMod_period hpos, ok_bind, T.getAncestor_eq, periodEnd]
  congr 2
  omega

theorem periodEnd_succ (hk : (k + 1) * checker.period ≤ (T.index p).nHeight + 1)
    (hpos : 0 < checker.period) :
    ∃ e, periodEnd T checker p (k + 1) = some e ∧ IsAncestor T.index p e ∧
      (T.index e).nHeight + 1 = (k + 1) * checker.period ∧
      getAncestor T.index e ((T.index e).nHeight - checker.period) =
        .ok (periodEnd T checker p k) := by
  have hexpand : (k + 1) * checker.period = k * checker.period + checker.period :=
    succ_mul k checker.period
  obtain ⟨e, -, he, hheight⟩ := T.getAncestor_spec p (((k + 1) * checker.period : ℕ) - 1)
    (by omega) (by omega)
  have hend : periodEnd T checker p (k + 1) = some e := by
    rw [periodEnd, ancestorAt_eq_some.2 ⟨he, hheight⟩]
  refine ⟨e, hend, he, by omega, ?_⟩
  rw [T.getAncestor_eq, ← periodEnd_ancestor he (by omega), periodEnd]
  congr 2
  omega

variable (T checker)

def chainState (hpos : 0 < checker.period) (p : Ptr) (k : ℕ) : Except Fault ThresholdState :=
  periodState T checker hpos (periodEnd T checker p k)

variable {T checker} {hpos : 0 < checker.period}

theorem chainState_zero : chainState T checker hpos p 0 = .ok .defined := by
  rw [chainState, periodEnd_zero, periodState]

theorem chainState_succ_eq {e : Ptr} (hend : periodEnd T checker p (k + 1) = some e)
    (hprev : getAncestor T.index e ((T.index e).nHeight - checker.period) =
      .ok (periodEnd T checker p k)) :
    chainState T checker hpos p (k + 1) =
      if getMedianTimePast T e < checker.beginTime then .ok .defined
      else chainState T checker hpos p k >>= nextState T checker e := by
  rw [chainState, hend, periodState]
  split_ifs
  · rfl
  · split
    · rename_i f herror
      rw [hprev] at herror
      cases herror
    · rename_i prev hprev'
      rw [hprev] at hprev'
      cases hprev'
      rfl

theorem stateAt_onChain {q : Option Ptr} (h : OnChain T p q) :
    stateAt T checker hpos q = chainState T checker hpos p (nextHeight T q / checker.period) := by
  cases q with
  | none =>
    rw [nextHeight, Nat.zero_div, chainState, periodEnd_zero, stateAt, lastOfPeriod, ok_bind]
  | some b =>
    have hle := div_mul_le_self ((T.index b).nHeight + 1) checker.period
    rw [stateAt, lastOfPeriod_eq hpos, ok_bind, periodEnd_ancestor (h b rfl) hle]
    rfl

theorem nextHeight_le {q : Option Ptr} (h : OnChain T p q) :
    nextHeight T q ≤ (T.index p).nHeight + 1 := by
  cases q with
  | none => exact zero_le _
  | some b => exact succ_le_succ (T.walkBack_of_isAncestor (h b rfl)).1

end

section

variable {Ptr : Type} (T : BlockTree Ptr) {checker : ConditionChecker}

def MedianTimesOrdered (p : Ptr) : Prop :=
  ∀ a b, IsAncestor T.index p a → (T.index a).pprev = some b →
    getMedianTimePast T b ≤ getMedianTimePast T a

variable {T} {p : Ptr} {hpos : 0 < checker.period} {k : ℕ} {state stateNext : ThresholdState}

theorem MedianTimesOrdered.le (h : MedianTimesOrdered T p) {a b : Ptr}
    (ha : IsAncestor T.index p a) (hab : IsAncestor T.index a b) :
    getMedianTimePast T b ≤ getMedianTimePast T a := by
  induction hab with
  | refl => exact Int.le_refl _
  | tail hab hprev ih => exact (h _ _ (ha.trans hab) hprev).trans ih

theorem chainState_returns (hpos : 0 < checker.period)
    (hk : k * checker.period ≤ (T.index p).nHeight + 1) :
    ∃ state, chainState T checker hpos p k = .ok state := by
  cases k with
  | zero => exact ⟨_, chainState_zero⟩
  | succ k =>
    obtain ⟨e, hend, he, hheight, -⟩ := periodEnd_succ hk hpos
    obtain ⟨state, hstate⟩ := stateAt_returns (T := T) hpos (some e)
    have honChain : OnChain T p (some e) := by
      rintro b ⟨⟩
      exact he
    rw [stateAt_onChain honChain, nextHeight, hheight, Nat.mul_div_cancel _ hpos] at hstate
    exact ⟨state, hstate⟩

section

variable (hmtp : MedianTimesOrdered T p) (hk : (k + 1) * checker.period ≤ (T.index p).nHeight + 1)
  (hstate : chainState T checker hpos p k = .ok state)
include hmtp hk hstate

theorem chainState_step (hnext : chainState T checker hpos p (k + 1) = .ok stateNext) :
    (state = .defined ∧ stateNext = .defined) ∨
      ∃ e, periodEnd T checker p (k + 1) = some e ∧
        nextState T checker e state = .ok stateNext := by
  obtain ⟨e, hend, he, hheight, hprev⟩ := periodEnd_succ hk hpos
  rw [chainState_succ_eq hend hprev] at hnext
  split_ifs at hnext with hearly
  · refine .inl ⟨?_, (Except.ok.inj hnext).symm⟩
    cases k with
    | zero =>
      rw [chainState_zero] at hstate
      exact (Except.ok.inj hstate).symm
    | succ k =>
      have hk' : (k + 1) * checker.period ≤ (T.index e).nHeight + 1 := by
        rw [hheight]
        exact mul_le_mul_right _ (le_succ _)
      obtain ⟨e', hend', he', -, hprev'⟩ := periodEnd_succ hk' hpos
      rw [periodEnd_ancestor he hk'] at hend'
      rw [periodEnd_ancestor he (by
        refine le_trans (mul_le_mul_right _ (le_succ k)) hk')] at hprev'
      rw [chainState_succ_eq hend' hprev', if_pos (lt_of_le_of_lt (hmtp.le he he') hearly)]
        at hstate
      exact (Except.ok.inj hstate).symm
  · rw [hstate, ok_bind] at hnext
    exact .inr ⟨e, hend, hnext⟩

theorem chainState_forced (hforced : state = .failed ∨ state = .active ∨ state = .lockedIn) :
    chainState T checker hpos p (k + 1) =
      .ok (if state = .failed then .failed else .active) := by
  obtain ⟨stateNext, hnext⟩ := chainState_returns hpos hk
  rw [hnext]
  rcases chainState_step hmtp hk hstate hnext with ⟨rfl, -⟩ | ⟨e, -, htrans⟩
  · rcases hforced with h | h | h <;> cases h
  · rcases hforced with rfl | rfl | rfl <;> exact htrans.symm

end

section

variable (hmtp : MedianTimesOrdered T p)
include hmtp

theorem chainState_final (hfinal : state = .failed ∨ state = .active)
    (hstate : chainState T checker hpos p k = .ok state) {j : ℕ} (hkj : k ≤ j)
    (hj : j * checker.period ≤ (T.index p).nHeight + 1) :
    chainState T checker hpos p j = .ok state := by
  induction j, hkj using le_induction with
  | base => exact hstate
  | succ j hkj ih =>
    have hj' := ih (le_trans (mul_le_mul_right _ (le_succ j)) hj)
    rcases hfinal with rfl | rfl
    · exact chainState_forced hmtp hj hj' (.inl rfl)
    · exact chainState_forced hmtp hj hj' (.inr (.inl rfl))

theorem chainState_lockedIn (hk : (k + 1) * checker.period ≤ (T.index p).nHeight + 1)
    (hnext : chainState T checker hpos p (k + 1) = .ok .lockedIn) :
    chainState T checker hpos p k = .ok .started ∧
      ∃ e count, periodEnd T checker p (k + 1) = some e ∧
        countSignals T checker checker.period (some e) = .ok count ∧
        checker.threshold ≤ count := by
  obtain ⟨state, hstate⟩ := chainState_returns (k := k) hpos
    (le_trans (mul_le_mul_right _ (le_succ k)) hk)
  rw [hstate]
  rcases chainState_step hmtp hk hstate hnext with ⟨-, h⟩ | ⟨e, hend, htrans⟩
  · cases h
  · cases state with
    | defined =>
      rw [nextState] at htrans
      split_ifs at htrans <;> cases htrans
    | started =>
      rw [nextState] at htrans
      split_ifs at htrans
      · cases htrans
      · obtain ⟨count, hcount, htrans⟩ := bind_eq_ok.1 htrans
        refine ⟨rfl, e, count, hend, hcount, ?_⟩
        by_contra hfew
        rw [if_neg hfew] at htrans
        cases htrans
    | lockedIn => cases htrans
    | active => cases htrans
    | failed => cases htrans

theorem chainState_defined {j : ℕ} (hkj : k ≤ j) (hj : j * checker.period ≤ (T.index p).nHeight + 1)
    (hdefined : chainState T checker hpos p j = .ok .defined) :
    chainState T checker hpos p k = .ok .defined := by
  induction j, hkj using le_induction with
  | base => exact hdefined
  | succ j hkj ih =>
    have hj' := le_trans (mul_le_mul_right _ (le_succ j)) hj
    obtain ⟨state, hstate⟩ := chainState_returns hpos hj'
    refine ih hj' ?_
    rw [hstate]
    rcases chainState_step hmtp hj hstate hdefined with ⟨rfl, -⟩ | ⟨e, -, htrans⟩
    · rfl
    · cases state with
      | defined => rfl
      | started =>
        rw [nextState] at htrans
        split_ifs at htrans
        · cases htrans
        · obtain ⟨count, -, htrans⟩ := bind_eq_ok.1 htrans
          split_ifs at htrans <;> cases htrans
      | lockedIn => cases htrans
      | active => cases htrans
      | failed => cases htrans

end

end

section

variable {Ptr Ptr' : Type} (T : BlockTree Ptr) (T' : BlockTree Ptr') {checker : ConditionChecker}

inductive SameChain : Option Ptr → Option Ptr' → Prop
  | null : SameChain none none
  | block {p : Ptr} {p' : Ptr'} (time : (T.index p).nTime = (T'.index p').nTime)
      (version : (T.index p).nVersion = (T'.index p').nVersion)
      (prev : SameChain (T.index p).pprev (T'.index p').pprev) : SameChain (some p) (some p')

variable {T T'} {p : Ptr} {p' : Ptr'} {q' : Option Ptr'}

theorem SameChain.nextHeight_eq {q : Option Ptr} (h : SameChain T T' q q') :
    nextHeight T q = nextHeight T' q' := by
  induction h with
  | null => rfl
  | @block p p' _ _ hprev ih =>
    rw [nextHeight, nextHeight]
    cases hq : (T.index p).pprev with
    | none =>
      rw [hq] at hprev
      generalize hq' : (T'.index p').pprev = q' at hprev
      cases hprev
      rw [T.height_genesis p hq, T'.height_genesis p' hq']
    | some q =>
      rw [hq] at hprev ih
      generalize hq' : (T'.index p').pprev = q' at hprev ih
      cases hprev
      rw [T.height_child p _ hq, T'.height_child p' _ hq']
      exact congrArg Nat.succ ih

section

variable (h : SameChain T T' (some p) (some p'))
include h

theorem SameChain.walkBack (n : ℕ) :
    SameChain T T' (CBlockIndex.walkBack T.index n p) (CBlockIndex.walkBack T'.index n p') := by
  induction n generalizing p p' with
  | zero => exact h
  | succ n ih =>
    cases h with
    | block _ _ hprev =>
      rw [CBlockIndex.walkBack, CBlockIndex.walkBack]
      generalize (T.index p).pprev = q at hprev
      generalize (T'.index p').pprev = q' at hprev
      cases hprev with
      | null => exact .null
      | block time version prev => exact ih (.block time version prev)

theorem SameChain.ancestorAt (height : ℤ) :
    SameChain T T' (ancestorAt T.index p height) (ancestorAt T'.index p' height) := by
  have hheight : (T.index p).nHeight = (T'.index p').nHeight := Nat.succ.inj h.nextHeight_eq
  rw [CBlockIndex.ancestorAt, CBlockIndex.ancestorAt, hheight]
  split_ifs
  · exact .null
  · exact h.walkBack _

theorem SameChain.lastTimes_eq (n : ℕ) : lastTimes T n p = lastTimes T' n p' := by
  induction n generalizing p p' with
  | zero => rfl
  | succ n ih =>
    cases h with
    | block time _ hprev =>
      rw [lastTimes, lastTimes, getBlockTime, getBlockTime, time]
      generalize (T.index p).pprev = q at hprev
      generalize (T'.index p').pprev = q' at hprev
      cases hprev with
      | null => rfl
      | block time version prev =>
        dsimp only
        rw [ih (.block time version prev)]

theorem SameChain.getMedianTimePast_eq : getMedianTimePast T p = getMedianTimePast T' p' := by
  rw [getMedianTimePast, getMedianTimePast, h.lastTimes_eq]

end

theorem SameChain.countSignals_eq {q : Option Ptr} (h : SameChain T T' q q')
    (n : ℕ) : countSignals T checker n q = countSignals T' checker n q' := by
  induction n generalizing q q' with
  | zero => rw [countSignals, countSignals]
  | succ n ih =>
    cases h with
    | null => rfl
    | block _ version hprev => rw [countSignals, countSignals, ih hprev, version]

theorem SameChain.nextState_eq (h : SameChain T T' (some p) (some p')) (state : ThresholdState) :
    nextState T checker p state = nextState T' checker p' state := by
  cases state with
  | defined => rw [nextState, nextState, h.getMedianTimePast_eq]
  | started => rw [nextState, nextState, h.getMedianTimePast_eq, h.countSignals_eq]
  | lockedIn => rfl
  | active => rfl
  | failed => rfl

theorem SameChain.chainState_eq {hpos : 0 < checker.period}
    (h : SameChain T T' (some p) (some p')) {k : ℕ}
    (hk : k * checker.period ≤ (T.index p).nHeight + 1) :
    chainState T checker hpos p k = chainState T' checker hpos p' k := by
  induction k with
  | zero => rw [chainState_zero, chainState_zero]
  | succ k ih =>
    have hheight : (T.index p).nHeight = (T'.index p').nHeight := Nat.succ.inj h.nextHeight_eq
    obtain ⟨e, hend, -, -, hprev⟩ := periodEnd_succ hk hpos
    obtain ⟨e', hend', -, -, hprev'⟩ := periodEnd_succ (hheight ▸ hk) hpos
    have hsame : SameChain T T' (some e) (some e') := by
      rw [← hend, ← hend']
      exact h.ancestorAt _
    rw [chainState_succ_eq hend hprev, chainState_succ_eq hend' hprev',
      ih (le_trans (mul_le_mul_right _ (le_succ k)) hk), hsame.getMedianTimePast_eq,
      funext hsame.nextState_eq]

theorem SameChain.stateAt_eq {hpos : 0 < checker.period} {q : Option Ptr}
    (h : SameChain T T' q q') : stateAt T checker hpos q = stateAt T' checker hpos q' := by
  cases q with
  | none =>
    cases h
    rw [stateAt, stateAt, lastOfPeriod, lastOfPeriod, ok_bind, ok_bind, periodState, periodState]
  | some p =>
    cases q' with
    | none => cases h
    | some p' =>
      have hself : OnChain T p (some p) := by
        rintro b ⟨⟩
        exact .refl
      have hself' : OnChain T' p' (some p') := by
        rintro b ⟨⟩
        exact .refl
      rw [stateAt_onChain hself, stateAt_onChain hself', ← h.nextHeight_eq]
      exact h.chainState_eq (div_mul_le_self _ _)

end

section

variable {Ptr : Type} (T : BlockTree Ptr) (checker : ConditionChecker)
    (hpos : 0 < checker.period)

/-- What the states along the chain that ends at a block say about the state after it. -/
structure DeploymentState (p : Ptr) (state : ThresholdState) : Prop where
  found : stateAt T checker hpos (some p) = .ok state
  same_period : ∀ q, OnChain T p q →
    nextHeight T q / checker.period = nextHeight T (some p) / checker.period →
    stateAt T checker hpos q = .ok state
  final : ∀ q s, OnChain T p q → stateAt T checker hpos q = .ok s → s = .failed ∨ s = .active →
    state = s
  locked_in_once : ∀ q, OnChain T p q → stateAt T checker hpos q = .ok .lockedIn →
    nextHeight T q / checker.period < nextHeight T (some p) / checker.period → state = .active
  signalled : state = .lockedIn →
    (∃ e count, lastOfPeriod T checker (some p) = .ok (some e) ∧
      countSignals T checker checker.period (some e) = .ok count ∧ checker.threshold ≤ count) ∧
    ∀ q, OnChain T p q →
      nextHeight T q / checker.period + 1 = nextHeight T (some p) / checker.period →
      stateAt T checker hpos q = .ok .started

/-- The run of equal states that the block after `p` belongs to starts at a height. -/
structure RunStart (p : Ptr) (height : ℕ) : Prop where
  le : height ≤ nextHeight T (some p)
  same : ∀ q, OnChain T p q → height ≤ nextHeight T q →
    stateAt T checker hpos q = stateAt T checker hpos (some p)
  other : ∀ q, OnChain T p q → nextHeight T q + 1 = height →
    stateAt T checker hpos q ≠ stateAt T checker hpos (some p)

variable {T checker hpos} {p : Ptr}

theorem onChain_self : OnChain T p (some p) := by
  rintro b ⟨⟩
  exact .refl

theorem period_le {q : Option Ptr} (h : OnChain T p q) :
    nextHeight T q / checker.period ≤ nextHeight T (some p) / checker.period :=
  Nat.div_le_div_right (nextHeight_le h)

theorem period_fits {q : Option Ptr} (h : OnChain T p q) :
    nextHeight T q / checker.period * checker.period ≤ (T.index p).nHeight + 1 :=
  le_trans (div_mul_le_self _ _) (nextHeight_le h)

theorem deploymentState_of_stateAt (hmtp : MedianTimesOrdered T p) {state : ThresholdState}
    (hstate : stateAt T checker hpos (some p) = .ok state) :
    DeploymentState T checker hpos p state := by
  have hown := hstate
  rw [stateAt_onChain onChain_self] at hown
  refine ⟨hstate, fun q hq hsame => ?_, fun q s hq hs hfinal => ?_, fun q hq hlocked hlt => ?_,
    fun hlocked => ?_⟩
  · rw [stateAt_onChain hq, hsame, hown]
  · rw [stateAt_onChain hq] at hs
    rw [chainState_final hmtp hfinal hs (period_le hq) (period_fits onChain_self)] at hown
    exact (Except.ok.inj hown).symm
  · rw [stateAt_onChain hq] at hlocked
    have hfits := le_trans (mul_le_mul_right checker.period hlt) (period_fits onChain_self)
    have hactive := chainState_forced hmtp hfits hlocked (.inr (.inr rfl))
    rw [chainState_final hmtp (.inr rfl) hactive hlt (period_fits onChain_self)] at hown
    exact (Except.ok.inj hown).symm
  · subst hlocked
    cases hk : nextHeight T (some p) / checker.period with
    | zero =>
      rw [hk, chainState_zero] at hown
      cases hown
    | succ k =>
      have hfits : nextHeight T (some p) / checker.period * checker.period ≤
      (T.index p).nHeight + 1 := period_fits onChain_self
      rw [hk] at hown hfits
      obtain ⟨hstarted, e, count, hend, hcount, hmany⟩ := chainState_lockedIn hmtp hfits hown
      refine ⟨⟨e, count, ?_, hcount, hmany⟩, fun q hq hbefore => ?_⟩
      · rw [lastOfPeriod_eq hpos, ← hend, ← hk]
        rfl
      · rw [stateAt_onChain hq, Nat.succ.inj hbefore, hstarted]

variable [DecidableEq Ptr] {cache : ThresholdConditionCache Ptr}

theorem sinceLoop_spec {state : ThresholdState} (hne : state ≠ .defined) {k : ℕ} {e : Ptr}
    (hk : (k + 1) * checker.period ≤ (T.index p).nHeight + 1)
    (hend : periodEnd T checker p (k + 1) = some e)
    (hstate : chainState T checker hpos p (k + 1) = .ok state)
    (hcache : CacheFilled T checker cache) :
    ∃ j e' cache', sinceLoop T checker hpos state e cache = .ok (e', cache') ∧ j ≤ k ∧
      (T.index e').nHeight + 1 = (j + 1) * checker.period ∧
      (∀ i, j < i → i ≤ k + 1 → chainState T checker hpos p i = .ok state) ∧
      chainState T checker hpos p j ≠ .ok state := by
  induction k generalizing e cache with
  | zero =>
    obtain ⟨e₁, hend₁, -, hheight, hprev⟩ := periodEnd_succ hk hpos
    obtain rfl : e₁ = e := Option.some_inj.1 (hend₁.symm.trans hend)
    rw [periodEnd_zero] at hprev
    refine ⟨0, e₁, cache, ?_, le_refl 0, hheight, fun i hi hi' => ?_, ?_⟩
    · rw [sinceLoop]
      split
      · rename_i herror
        rw [hprev] at herror
        cases herror
      · rfl
      · rename_i hsome
        rw [hprev] at hsome
        cases hsome
    · obtain rfl : i = 0 + 1 := by omega
      exact hstate
    · rw [chainState_zero]
      exact fun h => hne (Except.ok.inj h).symm
  | succ k ih =>
    have hk' := le_trans (mul_le_mul_right _ (le_succ (k + 1))) hk
    obtain ⟨e₁, hend₁, he₁, hheight, hprev⟩ := periodEnd_succ hk hpos
    obtain rfl : e₁ = e := Option.some_inj.1 (hend₁.symm.trans hend)
    obtain ⟨e₂, hend₂, he₂, hheight₂, -⟩ := periodEnd_succ hk' hpos
    rw [hend₂] at hprev
    obtain ⟨before, hbefore⟩ := chainState_returns hpos hk'
    have hat : stateAt T checker hpos (some e₂) = .ok before := by
      have honChain : OnChain T p (some e₂) := by
        rintro b ⟨⟩
        exact he₂
      rw [stateAt_onChain honChain, nextHeight, hheight₂, Nat.mul_div_cancel _ hpos, hbefore]
    obtain ⟨cache', hrun, hcache'⟩ := hcache.getStateFor_eq hpos hat
    have hloop : sinceLoop T checker hpos state e₁ cache =
        if before = state then sinceLoop T checker hpos state e₂ cache'
        else .ok (e₁, cache') := by
      rw [sinceLoop]
      split
      · rename_i herror
        rw [hprev] at herror
        cases herror
      · rename_i hnone
        rw [hprev] at hnone
        cases hnone
      · rename_i found hfound
        rw [hprev] at hfound
        cases hfound
        rw [hrun, ok_bind]
        rfl
    rw [hloop]
    split_ifs with heq
    · subst heq
      obtain ⟨j, e', cache'', hrest, hj, hheight', hsame, hother⟩ := ih hk' hend₂ hbefore hcache'
      refine ⟨j, e', cache'', hrest, by omega, hheight', fun i hi hi' => ?_, hother⟩
      rcases lt_or_ge i (k + 2) with hlt | hge
      · exact hsame i hi (by omega)
      · obtain rfl : i = k + 1 + 1 := by omega
        exact hstate
    · refine ⟨k + 1, e₁, cache', rfl, le_refl _, hheight, fun i hi hi' => ?_, ?_⟩
      · obtain rfl : i = k + 1 + 1 := by omega
        exact hstate
      · rw [hbefore]
        exact fun h => heq (Except.ok.inj h)

theorem getStateSinceHeightFor_spec (hmtp : MedianTimesOrdered T p)
    (hcache : CacheFilled T checker cache) :
    ∃ height cache', getStateSinceHeightFor T checker hpos (some p) cache = .ok (height, cache') ∧
      RunStart T checker hpos p height := by
  obtain ⟨state, hstate⟩ := stateAt_returns (T := T) hpos (some p)
  obtain ⟨cache', hrun, hcache'⟩ := hcache.getStateFor_eq hpos hstate
  have hown := hstate
  rw [stateAt_onChain onChain_self] at hown
  have hfits : nextHeight T (some p) / checker.period * checker.period ≤
      (T.index p).nHeight + 1 := period_fits onChain_self
  rw [getStateSinceHeightFor, hrun, ok_bind]
  dsimp only
  split_ifs with hdefined
  · subst hdefined
    refine ⟨0, cache', rfl, zero_le _, fun q hq _ => ?_, fun q _ h => by omega⟩
    rw [hstate, stateAt_onChain hq]
    exact chainState_defined hmtp (period_le hq) hfits hown
  · cases hk : nextHeight T (some p) / checker.period with
    | zero =>
      rw [hk, chainState_zero] at hown
      exact absurd (Except.ok.inj hown).symm hdefined
    | succ k =>
      rw [hk] at hown hfits
      obtain ⟨e, hend, -, -, -⟩ := periodEnd_succ hfits hpos
      have hlast : lastOfPeriod T checker (some p) = .ok (some e) := by
        rw [lastOfPeriod_eq hpos, ← hend, ← hk]
        rfl
      obtain ⟨j, e', cache'', hloop, hj, hheight, hsame, hother⟩ :=
        sinceLoop_spec hdefined hfits hend hown hcache'
      refine ⟨(T.index e').nHeight + 1, cache'', ?_, ?_, fun q hq hle => ?_, fun q hq heq => ?_⟩
      · rw [hlast, ok_bind]
        dsimp only
        rw [hloop]
        rfl
      · rw [hheight]
        exact le_trans (mul_le_mul_right _ (succ_le_succ hj)) hfits
      · rw [hheight] at hle
        rw [hstate, stateAt_onChain hq]
        refine hsame _ ((le_div_iff_mul_le hpos).2 hle) ?_
        rw [← hk]
        exact period_le hq
      · rw [hheight] at heq
        rw [hstate, stateAt_onChain hq]
        have hexpand : (j + 1) * checker.period = j * checker.period + checker.period :=
          succ_mul j checker.period
        have hperiod : nextHeight T q / checker.period = j := by
          rw [Nat.div_eq_iff hpos]
          omega
        rw [hperiod]
        exact hother

/-- On a chain whose median times do not decrease, whatever queries filled the cache: the state
that `GetStateFor` finds is a function of the chain alone, it moves along the chain as a deployment
does, and `GetStateSinceHeightFor` finds where the run of it began. -/
theorem getStateFor_alongChain (hpos : 0 < checker.period) (hmtp : MedianTimesOrdered T p)
    {cache : ThresholdConditionCache Ptr} (hcache : CacheFilled T checker cache) :
    ∃ state cache' height cache'',
      getStateFor T checker (some p) cache = .ok (state, cache') ∧
      DeploymentState T checker hpos p state ∧
      (∀ {Ptr' : Type} [DecidableEq Ptr'] (T' : BlockTree Ptr') (p' : Ptr')
        (other : ThresholdConditionCache Ptr'), SameChain T T' (some p) (some p') →
        CacheFilled T' checker other →
        ∃ other', getStateFor T' checker (some p') other = .ok (state, other')) ∧
      getStateSinceHeightFor T checker hpos (some p) cache = .ok (height, cache'') ∧
      RunStart T checker hpos p height := by
  obtain ⟨state, hstate⟩ := stateAt_returns (T := T) hpos (some p)
  obtain ⟨cache', hrun, -⟩ := hcache.getStateFor_eq hpos hstate
  obtain ⟨height, cache'', hsince, hstart⟩ := getStateSinceHeightFor_spec hmtp hcache
  refine ⟨state, cache', height, cache'', hrun, deploymentState_of_stateAt hmtp hstate, ?_,
    hsince, hstart⟩
  intro Ptr' _ T' p' other hsame hother
  rw [hsame.stateAt_eq] at hstate
  obtain ⟨other', hrun', -⟩ := hother.getStateFor_eq hpos hstate
  exact ⟨other', hrun'⟩

def genesisAndChild : BlockTree Bool where
  index b := ⟨if b then some false else none, none, if b then 1 else 0, 0x20000001,
    50, 0⟩
  height_genesis b h := by cases b <;> simp_all
  height_child b c h := by
    cases b
    · simp at h
    · obtain rfl : false = c := by simpa using h
      rfl
  skip_ancestor b c h := by simp at h

def everyBlock : ConditionChecker := ⟨10, 1000, 1, 1, 0⟩

theorem genesisAndChild_ordered : MedianTimesOrdered genesisAndChild true := by
  intro a b _ hprev
  cases a with
  | false => simp [genesisAndChild] at hprev
  | true =>
    obtain rfl : false = b := by simpa [genesisAndChild] using hprev
    have hfirst : lastTimes genesisAndChild nMedianTimeSpan false = [50] := by decide
    have hboth : lastTimes genesisAndChild nMedianTimeSpan true = [50, 50] := by decide
    rw [getMedianTimePast, getMedianTimePast, hfirst, hboth,
      List.mergeSort_of_pairwise (by decide), List.mergeSort_of_pairwise (by decide)]
    decide

theorem getStateFor_alongChain_genesisAndChild : ∃ state cache' height cache'',
    getStateFor genesisAndChild everyBlock (some true) (fun _ => none) = .ok (state, cache') ∧
      DeploymentState genesisAndChild everyBlock (by decide) true state ∧
      getStateSinceHeightFor genesisAndChild everyBlock (by decide) (some true) (fun _ => none) =
        .ok (height, cache'') ∧
      RunStart genesisAndChild everyBlock (by decide) true height := by
  obtain ⟨state, cache', height, cache'', hrun, hstate, -, hsince, hstart⟩ :=
    getStateFor_alongChain (show 0 < everyBlock.period by decide)
      genesisAndChild_ordered .empty
  exact ⟨state, cache', height, cache'', hrun, hstate, hsince, hstart⟩

end

end Coinyecoin
