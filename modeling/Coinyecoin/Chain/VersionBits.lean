import Coinyecoin.Chain.Index
import Coinyecoin.Consensus.Networks
import Mathlib.Data.Int.Order.Basic

/-!
# Version bits

`GetMedianTimePast` and the threshold state machine of `versionbits.cpp`. The
state of a deployment is constant over a period of blocks and is kept in a cache
by the last block of the period before. `GetStateFor` walks back to a period whose
state is known and then forward again, one transition a period.

`stateAt` is the state without a cache, by recursion over the periods. Every cache
that lookups fill holds states of it, and a lookup finds it (`versionBitsState_spec`).
-/

namespace Coinyecoin

open Foundation Consensus CBlockIndex

inductive ThresholdState where
  | defined
  | started
  | lockedIn
  | active
  | failed
deriving DecidableEq, Repr

def VERSIONBITS_TOP_BITS : Int32 := 0x20000000

def VERSIONBITS_TOP_MASK : Int32 := 0xE0000000

structure ConditionChecker where
  beginTime : ℤ
  endTime : ℤ
  period : ℕ
  threshold : ℕ
  bit : ℕ

def conditionChecker (params : Params) (pos : DeploymentPos) : ConditionChecker where
  beginTime := (params.vDeployments.get pos).nStartTime
  endTime := (params.vDeployments.get pos).nTimeout
  period := params.nMinerConfirmationWindow
  threshold := params.nRuleChangeActivationThreshold
  bit := (params.vDeployments.get pos).bit

/-- `Condition`: the version has the top bits of version bits and the bit of the
deployment. -/
def ConditionChecker.condition (checker : ConditionChecker) (nVersion : Int32) : Bool :=
  (nVersion &&& VERSIONBITS_TOP_MASK == VERSIONBITS_TOP_BITS) &&
    (nVersion.toUInt32 &&& (1 : UInt32) <<< UInt32.ofNat checker.bit != 0)

/-- The state of a deployment by the last block of the period before; `none` is the
null pointer, before the genesis block. -/
abbrev ThresholdConditionCache (Ptr : Type) := Option Ptr → Option ThresholdState

abbrev VersionBitsCache (Ptr : Type) := DeploymentPos → ThresholdConditionCache Ptr

section

variable {Ptr : Type} (T : BlockTree Ptr)

def lastTimes : ℕ → Ptr → List ℤ
  | 0, _ => []
  | n + 1, p =>
    (T.index p).getBlockTime ::
      match (T.index p).pprev with
      | none => []
      | some pprev => lastTimes n pprev

def nMedianTimeSpan : ℕ := 11

def getMedianTimePast (p : Ptr) : ℤ :=
  let pmedian := (lastTimes T nMedianTimeSpan p).mergeSort
  pmedian.getD (pmedian.length / 2) 0

theorem lastTimes_nonneg (n : ℕ) (p : Ptr) : ∀ t ∈ lastTimes T n p, 0 ≤ t := by
  induction n generalizing p with
  | zero => exact fun _ hmem => nomatch hmem
  | succ n ih =>
    refine List.forall_mem_cons.2 ⟨Int.natCast_nonneg _, ?_⟩
    cases (T.index p).pprev with
    | none => exact fun _ hmem => nomatch hmem
    | some q => exact ih q

theorem getMedianTimePast_nonneg (p : Ptr) : 0 ≤ getMedianTimePast T p := by
  unfold getMedianTimePast
  dsimp only
  rw [List.getD_eq_getElem?_getD]
  cases hget : (lastTimes T nMedianTimeSpan p).mergeSort[
      (lastTimes T nMedianTimeSpan p).mergeSort.length / 2]? with
  | none => exact Int.le_refl 0
  | some t =>
    exact lastTimes_nonneg T _ p t (List.mem_mergeSort.1 (List.mem_of_getElem? hget))

variable (checker : ConditionChecker)

def countSignals : ℕ → Option Ptr → Except Fault ℕ
  | 0, _ => .ok 0
  | _ + 1, none => .error .indexOutOfRange
  | n + 1, some pindexCount => do
    let count ← countSignals n (T.index pindexCount).pprev
    return (if checker.condition (T.index pindexCount).nVersion then 1 else 0) + count

def nextState (p : Ptr) : ThresholdState → Except Fault ThresholdState
  | .defined =>
    if getMedianTimePast T p ≥ checker.endTime then .ok .failed
    else if getMedianTimePast T p ≥ checker.beginTime then .ok .started
    else .ok .defined
  | .started =>
    if getMedianTimePast T p ≥ checker.endTime then .ok .failed
    else do
      let count ← countSignals T checker checker.period (some p)
      return if count ≥ checker.threshold then .lockedIn else .started
  | .lockedIn => .ok .active
  | .failed => .ok .failed
  | .active => .ok .active

def lastOfPeriod : Option Ptr → Except Fault (Option Ptr)
  | none => .ok none
  | some p => do
    let rest ← checkedMod ((T.index p).nHeight + 1) checker.period
    getAncestor T.index p ((T.index p).nHeight - rest)

variable {T checker}

theorem countSignals_returns (checker : ConditionChecker) {n : ℕ} {p : Ptr}
    (hn : n ≤ (T.index p).nHeight + 1) :
    ∃ count, countSignals T checker n (some p) = .ok count := by
  induction n generalizing p with
  | zero => exact ⟨0, rfl⟩
  | succ n ih =>
    cases hprev : (T.index p).pprev with
    | none =>
      have hheight := T.height_genesis p hprev
      obtain rfl : n = 0 := by omega
      exact ⟨_, rfl⟩
    | some q =>
      have hheight := T.height_child p q hprev
      obtain ⟨count, hcount⟩ := ih (p := q) (by omega)
      rw [countSignals, hprev, hcount]
      exact ⟨_, rfl⟩

theorem nextState_returns {p : Ptr} (hperiod : checker.period ≤ (T.index p).nHeight + 1)
    (state : ThresholdState) : ∃ stateNext, nextState T checker p state = .ok stateNext := by
  cases state with
  | defined =>
    simp only [nextState]
    split_ifs <;> exact ⟨_, rfl⟩
  | started =>
    obtain ⟨count, hcount⟩ := countSignals_returns checker hperiod
    simp only [nextState, hcount, ok_bind]
    split_ifs <;> exact ⟨_, rfl⟩
  | lockedIn => exact ⟨_, rfl⟩
  | active => exact ⟨_, rfl⟩
  | failed => exact ⟨_, rfl⟩

theorem getAncestor_back (p : Ptr) (n : ℕ) :
    (getAncestor T.index p ((T.index p).nHeight - n) = .ok none ∧ (T.index p).nHeight < n) ∨
      ∃ q, getAncestor T.index p ((T.index p).nHeight - n) = .ok (some q) ∧
        IsAncestor T.index p q ∧ (T.index q).nHeight + n = (T.index p).nHeight := by
  by_cases hn : (T.index p).nHeight < n
  · refine Or.inl ⟨?_, hn⟩
    rw [getAncestor, if_pos (Or.inr (by omega))]
  · obtain ⟨q, hq, hanc, hheight⟩ :=
      T.getAncestor_spec p ((T.index p).nHeight - n) (by omega) (by omega)
    exact Or.inr ⟨q, hq, hanc, by omega⟩

end

section

variable {Ptr : Type} (T : BlockTree Ptr) (checker : ConditionChecker)

def EndsPeriod (pindexPrev : Option Ptr) : Prop :=
  ∀ p, pindexPrev = some p → checker.period ∣ (T.index p).nHeight + 1

def stepsLeft (pindexPrev : Option Ptr) : ℕ :=
  match pindexPrev with
  | none => 0
  | some p => (T.index p).nHeight + 1

variable {T checker}

section

variable (hpos : 0 < checker.period)
include hpos

theorem getAncestor_period {p : Ptr} :
    ∃ prev, getAncestor T.index p ((T.index p).nHeight - checker.period) = .ok prev ∧
      stepsLeft T prev < stepsLeft T (some p) ∧
      (EndsPeriod T checker (some p) → EndsPeriod T checker prev) := by
  rcases getAncestor_back (T := T) p checker.period with ⟨hprev, -⟩ | ⟨q, hprev, -, hheight⟩
  · exact ⟨none, hprev, Nat.succ_pos _, fun _ _ h => nomatch h⟩
  · refine ⟨some q, hprev, ?_, fun hp => ?_⟩
    · simp only [stepsLeft]
      omega
    · rintro q' h
      cases h
      have hdvd := hp p rfl
      rw [← hheight, Nat.add_right_comm] at hdvd
      exact (Nat.dvd_add_left (Nat.dvd_refl _)).1 hdvd

theorem checkedMod_period (n : ℕ) :
    checkedMod (n + 1) checker.period = .ok ((n + 1) % checker.period : ℕ) := by
  rw [checkedMod_of_ne_zero (by omega)]
  exact congrArg Except.ok (Int.ofNat_tmod _ _).symm

theorem lastOfPeriod_spec (pindexPrev : Option Ptr) :
    ∃ prev, lastOfPeriod T checker pindexPrev = .ok prev ∧ EndsPeriod T checker prev := by
  cases pindexPrev with
  | none => exact ⟨none, rfl, fun _ h => nomatch h⟩
  | some p =>
    rw [lastOfPeriod, checkedMod_period hpos, ok_bind]
    rcases getAncestor_back (T := T) p (((T.index p).nHeight + 1) % checker.period) with
      ⟨hprev, -⟩ | ⟨q, hprev, -, hheight⟩
    · exact ⟨none, hprev, fun _ h => nomatch h⟩
    · refine ⟨some q, hprev, ?_⟩
      rintro q' h
      cases h
      have hheight' : (T.index q).nHeight + 1 =
          ((T.index p).nHeight + 1) - ((T.index p).nHeight + 1) % checker.period := by omega
      rw [hheight']
      exact Nat.dvd_sub_mod _

end

variable (T checker)

def periodState (hpos : 0 < checker.period) (pindexPrev : Option Ptr) :
    Except Fault ThresholdState :=
  match pindexPrev with
  | none => .ok .defined
  | some p =>
    if getMedianTimePast T p < checker.beginTime then .ok .defined
    else
      match _hprev : getAncestor T.index p ((T.index p).nHeight - checker.period) with
      | .error f => .error f
      | .ok prev => periodState hpos prev >>= nextState T checker p
termination_by stepsLeft T pindexPrev
decreasing_by
  obtain ⟨prev', hprev', hsteps, -⟩ := getAncestor_period (T := T) (p := p) hpos
  rw [hprev'] at _hprev
  cases _hprev
  exact hsteps

def stateAt (hpos : 0 < checker.period) (pindexPrev : Option Ptr) : Except Fault ThresholdState :=
  lastOfPeriod T checker pindexPrev >>= periodState T checker hpos

variable {T checker}

theorem periodState_closed (hpos : 0 < checker.period) {S : ThresholdState → Prop}
    (hdefined : S .defined)
    (hnext : ∀ p, EndsPeriod T checker (some p) → ∀ state stateNext, S state →
      nextState T checker p state = .ok stateNext → S stateNext)
    {pindexPrev : Option Ptr} (hperiod : EndsPeriod T checker pindexPrev) :
    ∃ state, periodState T checker hpos pindexPrev = .ok state ∧ S state := by
  induction hn : stepsLeft T pindexPrev using Nat.strongRecOn generalizing pindexPrev with
  | _ n ih =>
    subst hn
    cases pindexPrev with
    | none =>
      rw [periodState]
      exact ⟨_, rfl, hdefined⟩
    | some p =>
      rw [periodState]
      split_ifs
      · exact ⟨_, rfl, hdefined⟩
      · obtain ⟨prev, hprev, hsteps, hends⟩ := getAncestor_period (T := T) (p := p) hpos
        obtain ⟨state, hstate, hS⟩ := ih _ hsteps (hends hperiod) rfl
        obtain ⟨stateNext, hstateNext⟩ :=
          nextState_returns (Nat.le_of_dvd (Nat.succ_pos _) (hperiod p rfl)) state
        refine ⟨stateNext, ?_, hnext p hperiod state stateNext hS hstateNext⟩
        split
        · rename_i f herror
          rw [hprev] at herror
          cases herror
        · rename_i prev' hprev'
          rw [hprev] at hprev'
          cases hprev'
          rw [hstate, ok_bind, hstateNext]

theorem stateAt_returns (hpos : 0 < checker.period) (pindexPrev : Option Ptr) :
    ∃ state, stateAt T checker hpos pindexPrev = .ok state := by
  obtain ⟨prev, hprev, hends⟩ := lastOfPeriod_spec (T := T) hpos pindexPrev
  obtain ⟨state, hstate, -⟩ := periodState_closed hpos (S := fun _ => True) trivial
    (fun _ _ _ _ _ _ => trivial) hends
  exact ⟨state, by rw [stateAt, hprev, ok_bind, hstate]⟩

end

section

variable {Ptr : Type} [DecidableEq Ptr] (T : BlockTree Ptr) (checker : ConditionChecker)

/-- The first loop of `GetStateFor`, down to a period whose state is known: that
state, the cache and the blocks that were passed, the last one first. -/
def walkBack (hpos : 0 < checker.period) (cache : ThresholdConditionCache Ptr)
    (vToCompute : List Ptr) (pindexPrev : Option Ptr) :
    Except Fault (ThresholdState × ThresholdConditionCache Ptr × List Ptr) :=
  match cache pindexPrev with
  | some state => .ok (state, cache, vToCompute)
  | none =>
    match pindexPrev with
    | none => .ok (.defined, Function.update cache none (some .defined), vToCompute)
    | some p =>
      if getMedianTimePast T p < checker.beginTime then
        .ok (.defined, Function.update cache (some p) (some .defined), vToCompute)
      else
        match _hprev : getAncestor T.index p ((T.index p).nHeight - checker.period) with
        | .error f => .error f
        | .ok prev => walkBack hpos cache (p :: vToCompute) prev
termination_by stepsLeft T pindexPrev
decreasing_by
  obtain ⟨prev', hprev', hsteps, -⟩ := getAncestor_period (T := T) (p := p) hpos
  rw [hprev'] at _hprev
  cases _hprev
  exact hsteps

/-- The second loop of `GetStateFor`, one transition for every block passed. -/
def walkForward : List Ptr → ThresholdState → ThresholdConditionCache Ptr →
    Except Fault (ThresholdState × ThresholdConditionCache Ptr)
  | [], state, cache => .ok (state, cache)
  | p :: vToCompute, state, cache => do
    let stateNext ← nextState T checker p state
    walkForward vToCompute stateNext (Function.update cache (some p) (some stateNext))

/-- `GetStateFor`. A period of zero blocks divides by zero, unless it is asked before
the genesis block. -/
def getStateFor (pindexPrev : Option Ptr) (cache : ThresholdConditionCache Ptr) :
    Except Fault (ThresholdState × ThresholdConditionCache Ptr) := do
  let pindexPrev ← lastOfPeriod T checker pindexPrev
  if hpos : 0 < checker.period then
    let (state, cache, vToCompute) ← walkBack T checker hpos cache [] pindexPrev
    walkForward T checker vToCompute state cache
  else
    let state := (cache none).getD .defined
    return (state, Function.update cache none (some state))

def versionBitsState (pindexPrev : Option Ptr) (params : Params) (pos : DeploymentPos)
    (caches : VersionBitsCache Ptr) : Except Fault (ThresholdState × VersionBitsCache Ptr) := do
  let (state, cache) ← getStateFor T (conditionChecker params pos) pindexPrev (caches pos)
  return (state, Function.update caches pos cache)

def CacheCorrect (hpos : 0 < checker.period) (cache : ThresholdConditionCache Ptr) : Prop :=
  ∀ key state, cache key = some state → periodState T checker hpos key = .ok state

variable {T checker} {hpos : 0 < checker.period} {cache : ThresholdConditionCache Ptr}
  {state : ThresholdState} {pindexPrev : Option Ptr}

theorem CacheCorrect.update (h : CacheCorrect T checker hpos cache) {key : Option Ptr}
    (hstate : periodState T checker hpos key = .ok state) :
    CacheCorrect T checker hpos (Function.update cache key (some state)) := by
  intro key' state' heq
  by_cases hkey : key' = key
  · subst hkey
    rw [Function.update_self] at heq
    cases heq
    exact hstate
  · rw [Function.update_of_ne hkey] at heq
    exact h key' state' heq

theorem walkForward_walkBack (hcache : CacheCorrect T checker hpos cache)
    (hstate : periodState T checker hpos pindexPrev = .ok state) (vToCompute : List Ptr) :
    ∃ cache', CacheCorrect T checker hpos cache' ∧
      (walkBack T checker hpos cache vToCompute pindexPrev >>= fun r =>
        walkForward T checker r.2.2 r.1 r.2.1) = walkForward T checker vToCompute state cache' := by
  induction hn : stepsLeft T pindexPrev
    using Nat.strongRecOn generalizing pindexPrev state vToCompute with
  | _ n ih =>
    subst hn
    rw [walkBack.eq_def]
    cases hknown : cache pindexPrev with
    | some state' =>
      have hstate' := hcache _ _ hknown
      rw [hstate] at hstate'
      cases hstate'
      exact ⟨cache, hcache, rfl⟩
    | none =>
      cases pindexPrev with
      | none =>
        rw [periodState] at hstate
        cases hstate
        exact ⟨_, hcache.update (by rw [periodState]), rfl⟩
      | some p =>
        have hcopy := hstate
        rw [periodState] at hstate
        dsimp only
        split_ifs at hstate ⊢ with hearly
        · cases hstate
          exact ⟨_, hcache.update hcopy, rfl⟩
        · obtain ⟨prev, hprev, hsteps, -⟩ := getAncestor_period (T := T) (p := p) hpos
          split at hstate
          · cases hstate
          · rename_i prev' hprev'
            rw [hprev] at hprev'
            cases hprev'
            obtain ⟨before, hbefore, hnext⟩ := bind_eq_ok.1 hstate
            obtain ⟨cache', hcache', hrun⟩ := ih _ hsteps hbefore (p :: vToCompute) rfl
            refine ⟨_, hcache'.update hcopy, ?_⟩
            rw [hrun, walkForward, hnext, ok_bind]

theorem getStateFor_spec (hcache : CacheCorrect T checker hpos cache)
    (hstate : stateAt T checker hpos pindexPrev = .ok state) :
    ∃ cache', getStateFor T checker pindexPrev cache = .ok (state, cache') ∧
      CacheCorrect T checker hpos cache' := by
  obtain ⟨prev, hprev, hstate⟩ := bind_eq_ok.1 hstate
  obtain ⟨cache', hcache', hrun⟩ := walkForward_walkBack hcache hstate []
  refine ⟨cache', ?_, hcache'⟩
  rw [getStateFor, hprev, ok_bind, dif_pos hpos]
  exact hrun

end

section

theorem conditionChecker_eq (net : Network) (nHeight : ℕ) (pos : DeploymentPos) :
    conditionChecker (net.getConsensus nHeight) pos = conditionChecker (net.getConsensus 0) pos := by
  cases net with
  | main =>
    rw [getConsensus_main]
    split_ifs <;> rfl
  | test =>
    rw [getConsensus_test]
    split_ifs <;> rfl
  | regtest =>
    rw [getConsensus_regtest]
    split_ifs <;> rfl

theorem period_pos (net : Network) (pos : DeploymentPos) :
    0 < (conditionChecker (net.getConsensus 0) pos).period := by
  change 0 < (net.getConsensus 0).nMinerConfirmationWindow
  cases net <;> decide

variable {Ptr : Type} (net : Network) (T : BlockTree Ptr)

def deploymentState (pos : DeploymentPos) (pindexPrev : Option Ptr) :
    Except Fault ThresholdState :=
  stateAt T (conditionChecker (net.getConsensus 0) pos) (period_pos net pos) pindexPrev

theorem deploymentState_returns (pos : DeploymentPos) (pindexPrev : Option Ptr) :
    ∃ state, deploymentState net T pos pindexPrev = .ok state :=
  stateAt_returns (period_pos net pos) pindexPrev

variable [DecidableEq Ptr]

/-- The caches the node can reach: empty at first, and changed by looking up the state
of a deployment, at any block and with the parameters of any era. -/
inductive CachesReached : VersionBitsCache Ptr → Prop
  | clear : CachesReached fun _ _ => none
  | lookup {caches caches' pindexPrev nHeight pos state} :
      CachesReached caches →
      versionBitsState T pindexPrev (net.getConsensus nHeight) pos caches = .ok (state, caches') →
      CachesReached caches'

variable {net T}

variable {caches : VersionBitsCache Ptr}

theorem CachesReached.correct (h : CachesReached net T caches) (pos : DeploymentPos) :
    CacheCorrect T (conditionChecker (net.getConsensus 0) pos) (period_pos net pos)
      (caches pos) := by
  induction h with
  | clear => exact fun _ _ h => nomatch h
  | @lookup caches caches' pindexPrev nHeight pos' state _ hlookup ih =>
    obtain ⟨⟨state', cache'⟩, hget, hout⟩ := bind_eq_ok.1 hlookup
    cases hout
    by_cases hpos : pos = pos'
    · subst hpos
      obtain ⟨state'', hstate⟩ := deploymentState_returns net T pos pindexPrev
      obtain ⟨cache'', hrun, hcorrect⟩ := getStateFor_spec ih hstate
      rw [conditionChecker_eq, hrun] at hget
      cases hget
      rw [Function.update_self]
      exact hcorrect
    · rw [Function.update_of_ne hpos]
      exact ih

theorem versionBitsState_spec (hcaches : CachesReached net T caches)
    (pos : DeploymentPos) (pindexPrev : Option Ptr) (nHeight : ℕ) :
    ∃ state caches', deploymentState net T pos pindexPrev = .ok state ∧
      versionBitsState T pindexPrev (net.getConsensus nHeight) pos caches = .ok (state, caches') ∧
      CachesReached net T caches' := by
  obtain ⟨state, hstate⟩ := deploymentState_returns net T pos pindexPrev
  obtain ⟨cache', hrun, -⟩ := getStateFor_spec (hcaches.correct pos) hstate
  have hlookup : versionBitsState T pindexPrev (net.getConsensus nHeight) pos caches =
      .ok (state, Function.update caches pos cache') := by
    rw [versionBitsState, conditionChecker_eq, hrun]
    rfl
  exact ⟨state, _, hstate, hlookup, hcaches.lookup hlookup⟩

end

end Coinyecoin
