import Coinyecoin.Arith.Compact
import Coinyecoin.Chain.Index
import Coinyecoin.Consensus.Networks
import Coinyecoin.Primitives.PureHeader
import Mathlib.Algebra.Order.Ring.Int

/-!
# The next work required

`getNextWorkRequired` is `GetNextWorkRequired` of `pow.cpp` with the two
functions it calls from `coinyecoin.cpp`. It faults where the source divides by
zero or fails an `assert`. The retarget interval is chosen by two switches that
do not agree: the parameters change at the era heights of the network, while
the function itself uses an interval of one from the height 4000000 of the
previous block on.

The main result says at which tips of each network the call returns. The eras
with a timespan of 60 and a spacing of 90 seconds have the interval
`60 / 90 = 0`, and every call that reaches the remainder with it divides by
zero.
-/

namespace Coinyecoin

open Foundation Consensus CBlockIndex ArithUint256

namespace Pow

section

variable {Ptr : Type}

/-- Whether a minimum-difficulty block is allowed although it is a retarget. -/
def allowDigishieldMinDifficultyForBlock (pindexLast : CBlockIndex Ptr)
    (pblock : CPureBlockHeader) (params : Params) : Bool :=
  if !params.fPowAllowMinDifficultyBlocks then false
  else if pindexLast.nHeight < 157500 then false
  else pblock.getBlockTime > pindexLast.getBlockTime + params.nPowTargetSpacing * 2

/-- The modulated timespan of a retarget, before it is clamped, and the bounds
it is clamped to. -/
def timespanBounds (nHeight : ℕ) (nActualTimespan : ℤ) (params : Params) : ℤ × ℤ × ℤ :=
  let retargetTimespan := params.nPowTargetTimespan
  if params.fDigishieldDifficultyCalculation then
    (retargetTimespan + (nActualTimespan - retargetTimespan).tdiv 8,
      retargetTimespan - retargetTimespan.tdiv 4,
      retargetTimespan + retargetTimespan.tdiv 2)
  else if nHeight > 10000 then
    (nActualTimespan, retargetTimespan.tdiv 4, retargetTimespan * 4)
  else if nHeight > 5000 then
    (nActualTimespan, retargetTimespan.tdiv 8, retargetTimespan * 4)
  else
    (nActualTimespan, retargetTimespan.tdiv 16, retargetTimespan * 4)

def modulatedTimespan (nHeight : ℕ) (nActualTimespan : ℤ) (params : Params) : ℤ :=
  let (nModulatedTimespan, nMinTimespan, nMaxTimespan) :=
    timespanBounds nHeight nActualTimespan params
  if nModulatedTimespan < nMinTimespan then nMinTimespan
  else if nModulatedTimespan > nMaxTimespan then nMaxTimespan
  else nModulatedTimespan

/-- `CalculateCoinyecoinNextWorkRequired`. The multiplication takes its factor
as a `uint32_t`, the division its divisor as a `uint64_t`, and a zero divisor
throws. -/
def calculateCoinyecoinNextWorkRequired (pindexLast : CBlockIndex Ptr)
    (nFirstBlockTime : ℤ) (params : Params) : Except Fault UInt32 :=
  let nHeight := pindexLast.nHeight + 1
  let nActualTimespan := pindexLast.getBlockTime - nFirstBlockTime
  let nModulatedTimespan := modulatedTimespan nHeight nActualTimespan params
  let bnOld := (setCompact pindexLast.nBits).1
  let bnScaled := bnOld * BitVec.ofNat 256 (nModulatedTimespan % 2 ^ 32).toNat
  let divisor : uint256 := BitVec.ofNat 256 (params.nPowTargetTimespan % 2 ^ 64).toNat
  if divisor = 0 then .error .divisionByZero
  else
    let bnNew := bnScaled / divisor
    .ok (getCompact (if bnNew > params.powLimit then params.powLimit else bnNew))

def lastNonSpecialBlock (T : BlockTree Ptr) (params : Params)
    (nProofOfWorkLimit : UInt32) (pindex : Ptr) : Except Fault Ptr :=
  match _hprev : (T.index pindex).pprev with
  | none => .ok pindex
  | some pprev => do
    let interval ← params.difficultyAdjustmentInterval
    let rest ← checkedMod (T.index pindex).nHeight interval
    if rest ≠ 0 ∧ (T.index pindex).nBits = nProofOfWorkLimit then
      lastNonSpecialBlock T params nProofOfWorkLimit pprev
    else .ok pindex
termination_by (T.index pindex).nHeight
decreasing_by
  have hheight := T.height_child pindex pprev _hprev
  omega

/-- The interval a call uses: one under the new difficulty protocol, the
parameters' own interval before it. -/
def retargetInterval (nHeight : ℕ) (params : Params) : Except Fault ℤ :=
  if nHeight ≥ 4000000 then .ok 1 else params.difficultyAdjustmentInterval

def retarget (T : BlockTree Ptr) (pindexLast : Ptr) (interval : ℤ) (params : Params) :
    Except Fault UInt32 := do
  let nHeight := (T.index pindexLast).nHeight
  let blockstogoback := if (nHeight : ℤ) + 1 ≠ interval then interval else interval - 1
  let nHeightFirst := (nHeight : ℤ) - blockstogoback
  assertThat (nHeightFirst ≥ 0) "nHeightFirst >= 0"
  match ← getAncestor T.index pindexLast nHeightFirst with
  | none => .error (.assertFailed "pindexFirst")
  | some pindexFirst =>
    calculateCoinyecoinNextWorkRequired (T.index pindexLast)
      (T.index pindexFirst).getBlockTime params

/-- `GetNextWorkRequired`; `none` is the null tip. -/
def getNextWorkRequired (T : BlockTree Ptr) (pindexLast : Option Ptr)
    (pblock : CPureBlockHeader) (params : Params) : Except Fault UInt32 :=
  let nProofOfWorkLimit := getCompact params.powLimit
  match pindexLast with
  | none => .ok nProofOfWorkLimit
  | some pindexLast =>
    let last := T.index pindexLast
    if allowDigishieldMinDifficultyForBlock last pblock params then .ok nProofOfWorkLimit
    else do
      let interval ← retargetInterval last.nHeight params
      let rest ← checkedMod (last.nHeight + 1) interval
      if rest ≠ 0 then
        if params.fPowAllowMinDifficultyBlocks then
          if pblock.getBlockTime > last.getBlockTime + params.nPowTargetSpacing * 2 then
            return nProofOfWorkLimit
          else
            let pindex ← lastNonSpecialBlock T params nProofOfWorkLimit pindexLast
            return (T.index pindex).nBits
        else return last.nBits
      else retarget T pindexLast interval params

variable {params : Params} {interval : ℤ}

theorem lastNonSpecialBlock_returns (T : BlockTree Ptr) (params : Params)
    (nProofOfWorkLimit : UInt32)
    (hinterval : params.difficultyAdjustmentInterval = .ok interval) (hne : interval ≠ 0)
    (pindex : Ptr) :
    ∃ q, lastNonSpecialBlock T params nProofOfWorkLimit pindex = .ok q := by
  induction hn : (T.index pindex).nHeight using Nat.strongRecOn generalizing pindex with
  | _ n ih =>
    rw [lastNonSpecialBlock]
    split
    · exact ⟨pindex, rfl⟩
    · rename_i pprev hprev
      have hheight := T.height_child pindex pprev hprev
      simp only [hinterval, checkedMod_of_ne_zero hne, ok_bind]
      split_ifs
      · exact ih _ (by omega) pprev rfl
      · exact ⟨pindex, rfl⟩

theorem calculateCoinyecoinNextWorkRequired_returns (pindexLast : CBlockIndex Ptr)
    (nFirstBlockTime : ℤ)
    (htimespan : BitVec.ofNat 256 (params.nPowTargetTimespan % 2 ^ 64).toNat ≠ 0) :
    ∃ nBits, calculateCoinyecoinNextWorkRequired pindexLast nFirstBlockTime params =
      .ok nBits := by
  simp only [calculateCoinyecoinNextWorkRequired, if_neg htimespan]
  exact ⟨_, rfl⟩

section

variable (T : BlockTree Ptr) (pindexLast : Ptr)
include T pindexLast

theorem retarget_returns (hpos : 1 ≤ interval)
    (hdvd : interval ∣ ((T.index pindexLast).nHeight : ℤ) + 1)
    (htimespan : BitVec.ofNat 256 (params.nPowTargetTimespan % 2 ^ 64).toNat ≠ 0) :
    ∃ nBits, retarget T pindexLast interval params = .ok nBits := by
  obtain ⟨k, hk⟩ := hdvd
  have hkpos : 0 < k := by
    by_contra hle
    have hmul : interval * k ≤ 0 := mul_nonpos_of_nonneg_of_nonpos (by omega) (by omega)
    omega
  have hfirst : 0 ≤ ((T.index pindexLast).nHeight : ℤ) -
      (if ((T.index pindexLast).nHeight : ℤ) + 1 ≠ interval then interval else interval - 1) := by
    split_ifs with hne
    · have hk2 : 2 ≤ k := by
        by_contra hlt
        have hk1 : k = 1 := by omega
        exact hne (by rw [hk, hk1, mul_one])
      have hmul : interval * 2 ≤ interval * k := mul_le_mul_of_nonneg_left hk2 (by omega)
      omega
    · omega
  obtain ⟨q, hq, -, -⟩ := T.getAncestor_spec pindexLast _ hfirst (by split_ifs <;> omega)
  simp only [retarget, assertThat_of_true hfirst, hq, ok_bind]
  exact calculateCoinyecoinNextWorkRequired_returns _ _ htimespan

variable (pblock : CPureBlockHeader)

theorem getNextWorkRequired_returns
    (hinterval : retargetInterval (T.index pindexLast).nHeight params = .ok interval)
    (hpos : 1 ≤ interval)
    (htimespan : BitVec.ofNat 256 (params.nPowTargetTimespan % 2 ^ 64).toNat ≠ 0) :
    ∃ nBits, getNextWorkRequired T (some pindexLast) pblock params = .ok nBits := by
  simp only [getNextWorkRequired, hinterval, ok_bind,
    checkedMod_of_ne_zero (show interval ≠ 0 by omega)]
  by_cases hallow : allowDigishieldMinDifficultyForBlock (T.index pindexLast) pblock params
  · simp only [hallow, if_true]
    exact ⟨_, rfl⟩
  · rw [if_neg hallow]
    split_ifs with hrest hmin htime
    · exact ⟨_, rfl⟩
    · -- Off the retarget heights the interval is not one, so it is the parameters' own.
      have hold : ¬ (T.index pindexLast).nHeight ≥ 4000000 := by
        intro hge
        simp only [retargetInterval, if_pos hge, Except.ok.injEq] at hinterval
        subst hinterval
        exact hrest (Int.tmod_one _)
      rw [retargetInterval, if_neg hold] at hinterval
      obtain ⟨q, hq⟩ := lastNonSpecialBlock_returns T params (getCompact params.powLimit)
        hinterval (by omega) pindexLast
      simp only [hq, ok_bind]
      exact ⟨_, rfl⟩
    · exact ⟨_, rfl⟩
    · exact retarget_returns T pindexLast hpos
        (Int.dvd_of_tmod_eq_zero (not_not.1 hrest)) htimespan

theorem getNextWorkRequired_divisionByZero
    (hallow : allowDigishieldMinDifficultyForBlock (T.index pindexLast) pblock params = false)
    (hinterval : retargetInterval (T.index pindexLast).nHeight params = .ok 0) :
    getNextWorkRequired T (some pindexLast) pblock params = .error .divisionByZero := by
  simp only [getNextWorkRequired, hallow, hinterval]
  rfl

end

end

/-! ## The three networks -/

/-- The heights of the previous block at which the interval of a call is
positive. The one main height left out is where the parameters have already
switched and the function has not; on test that gap is more than three million
blocks long. -/
def IntervalPositive : Network → ℕ → Prop
  | .main, nHeight => nHeight ≠ 3999999
  | .test, nHeight => nHeight < 144999 ∨ 4000000 ≤ nHeight
  | .regtest, _ => True

/-- The calls that are answered before the interval is used. -/
def AnsweredEarly {Ptr : Type} (net : Network) (pindexLast : CBlockIndex Ptr)
    (pblock : CPureBlockHeader) : Prop :=
  net = .test ∧ 157500 ≤ pindexLast.nHeight ∧
    pblock.getBlockTime > pindexLast.getBlockTime + 180

variable (net : Network) (h : ℕ)

theorem timespan_ne_zero :
    BitVec.ofNat 256 ((net.getConsensus h).nPowTargetTimespan % 2 ^ 64).toNat ≠ 0 := by
  cases net with
  | main => rw [getConsensus_main]; split_ifs <;> decide
  | test => rw [getConsensus_test]; split_ifs <;> decide
  | regtest => rw [getConsensus_regtest]; split_ifs <;> decide

theorem retargetInterval_eq :
    (IntervalPositive net h →
      ∃ i, retargetInterval h (net.getConsensus (h + 1)) = .ok i ∧ 1 ≤ i) ∧
    (¬ IntervalPositive net h →
      retargetInterval h (net.getConsensus (h + 1)) = .ok 0) := by
  by_cases hnew : h ≥ 4000000
  · have hpos : IntervalPositive net h := by
      cases net <;> simp only [IntervalPositive] <;> omega
    exact ⟨fun _ => ⟨1, by simp [retargetInterval, hnew], le_rfl⟩, fun hn => absurd hpos hn⟩
  · cases net with
    | main =>
      rw [getConsensus_main, retargetInterval, if_neg hnew]
      simp only [IntervalPositive]
      split_ifs
      · exact ⟨fun _ => ⟨480, rfl, by decide⟩, fun hn => absurd hn (by omega)⟩
      · exact ⟨fun hn => absurd hn (by omega), fun _ => rfl⟩
      · omega
    | test =>
      rw [getConsensus_test, retargetInterval, if_neg hnew]
      simp only [IntervalPositive]
      split_ifs
      · exact ⟨fun _ => ⟨480, rfl, by decide⟩, fun hn => absurd hn (by omega)⟩
      all_goals exact ⟨fun hn => absurd hn (by omega), fun _ => rfl⟩
    | regtest =>
      rw [getConsensus_regtest, retargetInterval, if_neg hnew]
      simp only [IntervalPositive]
      split_ifs
      · exact ⟨fun _ => ⟨43200, rfl, by decide⟩, fun hn => absurd trivial hn⟩
      all_goals exact ⟨fun _ => ⟨1, rfl, le_rfl⟩, fun hn => absurd trivial hn⟩

theorem allowDigishieldMinDifficultyForBlock_iff {Ptr : Type}
    (pindexLast : CBlockIndex Ptr) (pblock : CPureBlockHeader)
    (h : ¬ IntervalPositive net pindexLast.nHeight) :
    allowDigishieldMinDifficultyForBlock pindexLast pblock
        (net.getConsensus (pindexLast.nHeight + 1)) = true ↔
      AnsweredEarly net pindexLast pblock := by
  cases net with
  | main =>
    simp only [IntervalPositive, not_not] at h
    simp [AnsweredEarly, getConsensus_main, h, allowDigishieldMinDifficultyForBlock,
      mainDigishieldConsensus, mainConsensus]
  | test =>
    simp only [IntervalPositive] at h
    simp only [AnsweredEarly, true_and, allowDigishieldMinDifficultyForBlock, getConsensus_test]
    by_cases hlow : pindexLast.nHeight < 157500
    · simp [hlow]
    · have hmin : ∀ c : Prop, ∀ [Decidable c], (if c then testMinDifficultyConsensus
          else testAuxpowConsensus).fPowAllowMinDifficultyBlocks = true := by
        intro c _
        split_ifs <;> rfl
      have hspacing : ∀ c : Prop, ∀ [Decidable c], (if c then testMinDifficultyConsensus
          else testAuxpowConsensus).nPowTargetSpacing = 90 := by
        intro c _
        split_ifs <;> rfl
      rw [if_neg (show ¬ pindexLast.nHeight + 1 < 145000 by omega),
        if_neg (show ¬ pindexLast.nHeight + 1 < 157500 by omega)]
      simp [hmin, hspacing, hlow, Nat.le_of_not_lt hlow]
  | regtest => exact absurd trivial h

/-- At which tips of which network the next work is computed without a fault:
where the interval is positive, or where the minimum-difficulty rule answers
first. -/
theorem getNextWorkRequired_returns_iff {Ptr : Type} (net : Network) (T : BlockTree Ptr)
    (pindexLast : Ptr) (pblock : CPureBlockHeader) :
    ((∃ nBits, getNextWorkRequired T (some pindexLast) pblock
        (net.getConsensus ((T.index pindexLast).nHeight + 1)) = .ok nBits) ↔
      IntervalPositive net (T.index pindexLast).nHeight ∨
        AnsweredEarly net (T.index pindexLast) pblock) ∧
    ((∃ i, retargetInterval (T.index pindexLast).nHeight
        (net.getConsensus ((T.index pindexLast).nHeight + 1)) = .ok i ∧ 1 ≤ i) ↔
      IntervalPositive net (T.index pindexLast).nHeight) := by
  obtain ⟨hpos, hzero⟩ := retargetInterval_eq net (T.index pindexLast).nHeight
  by_cases h : IntervalPositive net (T.index pindexLast).nHeight
  · obtain ⟨i, hi, hi₁⟩ := hpos h
    have hreturns := getNextWorkRequired_returns T pindexLast pblock hi hi₁
      (timespan_ne_zero net _)
    exact ⟨⟨fun _ => Or.inl h, fun _ => hreturns⟩, ⟨fun _ => h, fun _ => ⟨i, hi, hi₁⟩⟩⟩
  · have hearly := allowDigishieldMinDifficultyForBlock_iff net (T.index pindexLast) pblock h
    refine ⟨⟨?_, ?_⟩, ⟨?_, fun hp => absurd hp h⟩⟩
    · rintro ⟨nBits, hret⟩
      by_contra hnot
      have hallow := (Bool.not_eq_true _).mp (mt hearly.1 fun he => hnot (Or.inr he))
      rw [getNextWorkRequired_divisionByZero T pindexLast pblock hallow (hzero h)] at hret
      cases hret
    · rintro (hp | he)
      · exact absurd hp h
      · simp only [getNextWorkRequired, hearly.2 he, if_true]
        exact ⟨_, rfl⟩
    · rintro ⟨i, hi, hi₁⟩
      rw [hzero h] at hi
      cases hi
      omega

section

variable {Ptr : Type}

def IsLate (last : CBlockIndex Ptr) (pblock : CPureBlockHeader) (params : Params) : Prop :=
  pblock.getBlockTime > last.getBlockTime + params.nPowTargetSpacing * 2

/-- A late block has the minimum difficulty: where such blocks are allowed, from the
height 157500 of the previous block on and before it unless there is a retarget. -/
def LateRule (last : CBlockIndex Ptr) (params : Params) : Prop :=
  params.fPowAllowMinDifficultyBlocks = true ∧
    (157500 ≤ last.nHeight ∨ ∃ interval, retargetInterval last.nHeight params = .ok interval ∧
      ¬ interval ∣ (last.nHeight : ℤ) + 1)

variable {T : BlockTree Ptr} {pindexLast : Ptr} {pblock pblock' : CPureBlockHeader}
  {params : Params} {nBits : UInt32}

theorem getNextWorkRequired_congr (hlate : IsLate (T.index pindexLast) pblock params ↔
      IsLate (T.index pindexLast) pblock' params) :
    getNextWorkRequired T (some pindexLast) pblock params =
      getNextWorkRequired T (some pindexLast) pblock' params := by
  unfold IsLate at hlate
  by_cases h : pblock'.getBlockTime >
      (T.index pindexLast).getBlockTime + params.nPowTargetSpacing * 2
  · simp only [getNextWorkRequired, allowDigishieldMinDifficultyForBlock, hlate.2 h, h]
  · simp only [getNextWorkRequired, allowDigishieldMinDifficultyForBlock, mt hlate.1 h, h]

theorem getNextWorkRequired_late (hrule : LateRule (T.index pindexLast) params)
    (hlate : IsLate (T.index pindexLast) pblock params)
    (hinterval : retargetInterval (T.index pindexLast).nHeight params ≠ .ok 0) :
    getNextWorkRequired T (some pindexLast) pblock params = .ok (getCompact params.powLimit) := by
  obtain ⟨hallow, hrule⟩ := hrule
  unfold IsLate at hlate
  by_cases hheight : 157500 ≤ (T.index pindexLast).nHeight
  · have hdigi : allowDigishieldMinDifficultyForBlock (T.index pindexLast) pblock params = true := by
      simp [allowDigishieldMinDifficultyForBlock, hallow, hlate, not_lt.2 hheight]
    simp only [getNextWorkRequired, hdigi, if_true]
  · have hdigi : allowDigishieldMinDifficultyForBlock (T.index pindexLast) pblock params =
        false := by
      simp [allowDigishieldMinDifficultyForBlock, hallow, not_le.1 hheight]
    obtain ⟨interval, hi, hdvd⟩ := hrule.resolve_left hheight
    have hne : interval ≠ 0 := by
      rintro rfl
      exact hinterval hi
    have hrest : ((T.index pindexLast).nHeight + 1 : ℤ).tmod interval ≠ 0 := fun hzero =>
      hdvd (Int.dvd_of_tmod_eq_zero hzero)
    simp only [getNextWorkRequired, hdigi, hi, ok_bind, checkedMod_of_ne_zero hne, if_pos hrest,
      hallow, if_pos hlate]
    rfl

theorem getNextWorkRequired_of_not_lateRule (hrule : ¬ LateRule (T.index pindexLast) params)
    (h : getNextWorkRequired T (some pindexLast) pblock params = .ok nBits) :
    getNextWorkRequired T (some pindexLast) pblock' params = .ok nBits := by
  by_cases hallow : params.fPowAllowMinDifficultyBlocks = true
  · have hnot := not_or.1 fun hr => hrule ⟨hallow, hr⟩
    have hdigi (b : CPureBlockHeader) :
        allowDigishieldMinDifficultyForBlock (T.index pindexLast) b params = false := by
      simp [allowDigishieldMinDifficultyForBlock, hallow, not_le.1 hnot.1]
    simp only [getNextWorkRequired, hdigi] at h ⊢
    rw [if_neg Bool.false_ne_true] at h ⊢
    obtain ⟨interval, hi, h⟩ := bind_eq_ok.1 h
    obtain ⟨rest, hrest, h⟩ := bind_eq_ok.1 h
    have hzero : rest = 0 := by
      have hdvd : interval ∣ ((T.index pindexLast).nHeight : ℤ) + 1 := by
        by_contra hdvd
        exact hnot.2 ⟨interval, hi, hdvd⟩
      unfold checkedMod at hrest
      split_ifs at hrest
      cases hrest
      exact Int.tmod_eq_zero_of_dvd hdvd
    rw [hi, ok_bind, hrest, ok_bind, if_neg (not_not.2 hzero)]
    rwa [if_neg (not_not.2 hzero)] at h
  · have hdigi (b : CPureBlockHeader) :
        allowDigishieldMinDifficultyForBlock (T.index pindexLast) b params = false := by
      simp [allowDigishieldMinDifficultyForBlock, hallow]
    simp only [getNextWorkRequired, hdigi, hallow] at h ⊢
    exact h

theorem getNextWorkRequired_rolled (hle : pblock.getBlockTime ≤ pblock'.getBlockTime)
    (h : getNextWorkRequired T (some pindexLast) pblock params = .ok nBits) :
    getNextWorkRequired T (some pindexLast) pblock' params = .ok nBits ↔
      (LateRule (T.index pindexLast) params → ¬ IsLate (T.index pindexLast) pblock params →
        IsLate (T.index pindexLast) pblock' params → nBits = getCompact params.powLimit) := by
  by_cases hrule : LateRule (T.index pindexLast) params
  · by_cases hlate : IsLate (T.index pindexLast) pblock params
    · have hlate' : IsLate (T.index pindexLast) pblock' params := lt_of_lt_of_le hlate hle
      rw [← getNextWorkRequired_congr (iff_of_true hlate hlate')]
      exact iff_of_true h fun _ hnot => absurd hlate hnot
    · by_cases hlate' : IsLate (T.index pindexLast) pblock' params
      · have hinterval : retargetInterval (T.index pindexLast).nHeight params ≠ .ok 0 := by
          intro hzero
          have hdigi : allowDigishieldMinDifficultyForBlock (T.index pindexLast) pblock params =
              false := by
            unfold IsLate at hlate
            simp [allowDigishieldMinDifficultyForBlock, hlate]
          rw [getNextWorkRequired_divisionByZero T pindexLast pblock hdigi hzero] at h
          cases h
        rw [getNextWorkRequired_late hrule hlate' hinterval, Except.ok.injEq]
        exact ⟨fun heq _ _ _ => heq.symm, fun himp => (himp hrule hlate hlate').symm⟩
      · rw [← getNextWorkRequired_congr (iff_of_false hlate hlate')]
        exact iff_of_true h fun _ _ hnot => absurd hnot hlate'
  · exact iff_of_true (getNextWorkRequired_of_not_lateRule hrule h) fun hr => absurd hr hrule

end

def straightChain (nTime nBits : UInt32) : BlockTree ℕ where
  index n :=
    { pprev := if n = 0 then none else some (n - 1)
      pskip := none
      nHeight := n
      nVersion := 1
      nTime := nTime
      nBits := nBits }
  height_genesis p h := by
    by_contra hp
    simp [hp] at h
  height_child p q h := by
    split_ifs at h with hp
    cases h
    simp only
    omega
  skip_ancestor p s h := by cases h

/-- The first main block under the second era, and the first test block under
it, cannot be given a difficulty: the remainder is taken by `60 / 90 = 0`. -/
theorem getNextWorkRequired_era_boundary :
    getNextWorkRequired (straightChain 1388907427 0x1e0ffff0) (some 3999999)
        ⟨3, 0, 0, 1388907500, 0x1e0ffff0, 0⟩ (Network.main.getConsensus 4000000) =
      .error .divisionByZero ∧
    getNextWorkRequired (straightChain 1388906266 0x1e0ffff0) (some 144999)
        ⟨3, 0, 0, 1388906300, 0x1e0ffff0, 0⟩ (Network.test.getConsensus 145000) =
      .error .divisionByZero :=
  ⟨getNextWorkRequired_divisionByZero _ _ _ (by decide)
      ((retargetInterval_eq .main 3999999).2 (by simp [IntervalPositive])),
    getNextWorkRequired_divisionByZero _ _ _ (by decide)
      ((retargetInterval_eq .test 144999).2 (by simp [IntervalPositive]))⟩

end Pow

end Coinyecoin
