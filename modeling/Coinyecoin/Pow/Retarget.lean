import Coinyecoin.Arith.CompactWords
import Coinyecoin.Pow.NextWork

/-!
# The retarget in words

`CalculateCoinyecoinNextWorkRequired` as `arith_uint256` computes it: the old
target is multiplied by a timespan of 32 bits and divided by another. At the
heights where a network retargets the product fits 256 bits, so the result is
that of the numbers, cut off at the limit and rounded by the compact format. On
regtest the limit fills 255 bits, and only a timespan of one second keeps the
product in range.
-/

namespace Coinyecoin

open Foundation Consensus CBlockIndex ArithUint256

namespace Pow

variable {nActualTimespan : ℤ}

variable {Ptr : Type}

/-- `CalculateCoinyecoinNextWorkRequired`, with the operators of `arith_uint256`. -/
def calculateInWords (pindexLast : CBlockIndex Ptr) (nFirstBlockTime : ℤ) (params : Params) :
    Except Fault UInt32 := do
  let nActualTimespan := pindexLast.getBlockTime - nFirstBlockTime
  let nModulatedTimespan := modulatedTimespan (pindexLast.nHeight + 1) nActualTimespan params
  let bnPowLimit := BaseUint.ofUint256 params.powLimit
  let bnNew := BaseUint.setCompact pindexLast.nBits
  let bnNew := bnNew.mulUInt32 (UInt32.ofNat (nModulatedTimespan % 2 ^ 32).toNat)
  let bnNew ← bnNew.div (BaseUint.ofUInt64 (UInt64.ofNat (params.nPowTargetTimespan % 2 ^ 64).toNat))
  (if bnNew.compareTo bnPowLimit = .gt then bnPowLimit else bnNew).getCompact

def Retargets (net : Network) (h : ℕ) : Prop :=
  ∃ interval, retargetInterval h (net.getConsensus (h + 1)) = .ok interval ∧ interval ≠ 0 ∧
    interval ∣ (h : ℤ) + 1

theorem toUint256_eq {a : ArithWords} {x : uint256} (h : a.toNat = x.toNat) : a.toUint256 = x :=
  BitVec.eq_of_toNat_eq ((BaseUint.toNat_toUint256 a).trans h)

theorem divCompact_eq {a b : ArithWords} (hb : b.toNat ≠ 0) (powLimit : uint256) :
    (a.div b >>= fun bnNew => (if bnNew.compareTo (BaseUint.ofUint256 powLimit) = .gt then
        BaseUint.ofUint256 powLimit else bnNew).getCompact) =
      .ok (getCompact (BitVec.ofNat 256 (min powLimit.toNat (a.toNat / b.toNat)))) := by
  obtain ⟨bnNew, hrun, hvalue⟩ := BaseUint.exists_div (a := a) hb
  rw [hrun, ok_bind, BaseUint.getCompact_eq, ← hvalue]
  congr 2
  refine toUint256_eq ?_
  have hlt : min powLimit.toNat bnNew.toNat < 2 ^ 256 :=
    (Nat.min_le_left _ _).trans_lt powLimit.isLt
  have hgt : bnNew.compareTo (BaseUint.ofUint256 powLimit) = .gt ↔
      powLimit.toNat < bnNew.toNat := by
    rw [BaseUint.compareTo_eq, compare_gt_iff_gt, BaseUint.toNat_ofUint256]
  rw [BitVec.toNat_ofNat, Nat.mod_eq_of_lt hlt]
  by_cases h : bnNew.compareTo (BaseUint.ofUint256 powLimit) = .gt
  · rw [if_pos h, BaseUint.toNat_ofUint256]
    exact (Nat.min_eq_left (hgt.1 h).le).symm
  · rw [if_neg h]
    exact (Nat.min_eq_right (not_lt.1 (mt hgt.2 h))).symm

/-- The words compute what `calculateCoinyecoinNextWorkRequired` does. -/
theorem calculateInWords_eq (pindexLast : CBlockIndex Ptr) (nFirstBlockTime : ℤ)
    (params : Params) : calculateInWords pindexLast nFirstBlockTime params =
      calculateCoinyecoinNextWorkRequired pindexLast nFirstBlockTime params := by
  unfold calculateInWords calculateCoinyecoinNextWorkRequired
  dsimp only
  generalize modulatedTimespan _ _ params = t
  have hdivisor : (BaseUint.ofUInt64 (UInt64.ofNat (params.nPowTargetTimespan % 2 ^ 64).toNat) :
      ArithWords).toNat = (BitVec.ofNat 256 (params.nPowTargetTimespan % 2 ^ 64).toNat).toNat := by
    rw [BaseUint.toNat_ofUInt64, UInt64.toNat_ofNat', BitVec.toNat_ofNat,
      Nat.mod_eq_of_lt (by omega), Nat.mod_eq_of_lt (by omega)]
  have hproduct : ((BaseUint.setCompact pindexLast.nBits).mulUInt32
      (UInt32.ofNat (t % 2 ^ 32).toNat)).toNat =
        ((setCompact pindexLast.nBits).1 * BitVec.ofNat 256 (t % 2 ^ 32).toNat).toNat := by
    have hfactor : (t % 2 ^ 32).toNat < UInt32.size := by
      rw [UInt32.size]
      omega
    rw [BaseUint.toNat_mulUInt32, BaseUint.toNat_setCompact, UInt32.toNat_ofNat_of_lt' hfactor,
      BitVec.toNat_mul, BitVec.toNat_ofNat, Nat.mul_comm, Nat.mul_mod_mod]
  by_cases hzero : BitVec.ofNat 256 (params.nPowTargetTimespan % 2 ^ 64).toNat = 0
  · rw [hzero] at hdivisor
    rw [if_pos hzero, BaseUint.div, if_pos ((BaseUint.bits_eq _).trans
      (BaseUint.bitLength_eq_zero.2 hdivisor))]
    rfl
  · rw [if_neg hzero, divCompact_eq (hdivisor ▸ fun h => hzero (BitVec.eq_of_toNat_eq h)), hproduct,
      hdivisor, ← BitVec.toNat_udiv]
    congr 2
    split_ifs with hover
    · rw [Nat.min_eq_left (BitVec.lt_def.1 hover).le, BitVec.ofNat_toNat, BitVec.setWidth_eq]
    · rw [Nat.min_eq_right (not_lt.1 (mt BitVec.lt_def.2 hover)), BitVec.ofNat_toNat,
        BitVec.setWidth_eq]

section

def dampedTimespan (params : Params) (nActualTimespan : ℤ) : ℤ :=
  if params.fDigishieldDifficultyCalculation then
    params.nPowTargetTimespan + (nActualTimespan - params.nPowTargetTimespan).tdiv 8
  else nActualTimespan

/-- The interval of the timespan does not depend on the timespan. -/
def timespanInterval (nHeight : ℕ) (params : Params) : ℤ × ℤ := (timespanBounds nHeight 0 params).2

variable {params : Params} {nHeight : ℕ}

theorem timespanBounds_eq (nActualTimespan : ℤ) :
    timespanBounds nHeight nActualTimespan params =
      (dampedTimespan params nActualTimespan, timespanInterval nHeight params) := by
  unfold timespanInterval timespanBounds dampedTimespan
  dsimp only
  split_ifs <;> rfl

theorem modulatedTimespan_eq
    (hle : (timespanInterval nHeight params).1 ≤ (timespanInterval nHeight params).2) :
    modulatedTimespan nHeight nActualTimespan params =
      max (timespanInterval nHeight params).1
        (min (timespanInterval nHeight params).2 (dampedTimespan params nActualTimespan)) := by
  rw [modulatedTimespan, timespanBounds_eq]
  generalize timespanInterval nHeight params = interval at hle
  obtain ⟨nMinTimespan, nMaxTimespan⟩ := interval
  dsimp only at hle ⊢
  split_ifs <;> omega

theorem dampedTimespan_mono {a b : ℤ} (h : a ≤ b) :
    dampedTimespan params a ≤ dampedTimespan params b := by
  unfold dampedTimespan
  split_ifs
  · exact Int.add_le_add_left (Int.tdiv_le_tdiv (by decide) (Int.sub_le_sub_right h _)) _
  · exact h

/-- What keeps the product of target and timespan in range. -/
structure InRange (nHeight : ℕ) (params : Params) : Prop where
  timespan : 1 ≤ params.nPowTargetTimespan ∧ params.nPowTargetTimespan < 2 ^ 32
  interval : (timespanInterval nHeight params).1 ≤ (timespanInterval nHeight params).2
  lower : 0 ≤ (timespanInterval nHeight params).1
  upper : (timespanInterval nHeight params).2 < 2 ^ 32
  product : (params.powLimit.toNat : ℤ) * (timespanInterval nHeight params).2 < 2 ^ 256

theorem inRange_of_plain (hdigishield : params.fDigishieldDifficultyCalculation = false)
    (hpos : 1 ≤ params.nPowTargetTimespan) (hlt : params.nPowTargetTimespan * 4 < 2 ^ 32)
    (hproduct : (params.powLimit.toNat : ℤ) * (params.nPowTargetTimespan * 4) < 2 ^ 256) :
    InRange nHeight params := by
  have hquarter : ∀ k : ℤ, 1 ≤ k → 0 ≤ params.nPowTargetTimespan.tdiv k ∧
      params.nPowTargetTimespan.tdiv k ≤ params.nPowTargetTimespan := fun k hk =>
    ⟨Int.tdiv_nonneg (by omega) (by omega), Int.tdiv_le_self _ (by omega)⟩
  have hinterval : ∃ k : ℤ, 1 ≤ k ∧ timespanInterval nHeight params =
      (params.nPowTargetTimespan.tdiv k, params.nPowTargetTimespan * 4) := by
    unfold timespanInterval timespanBounds
    simp only [hdigishield, Bool.false_eq_true, if_false]
    split_ifs
    · exact ⟨4, by decide, rfl⟩
    · exact ⟨8, by decide, rfl⟩
    · exact ⟨16, by decide, rfl⟩
  obtain ⟨k, hk, hinterval⟩ := hinterval
  obtain ⟨hlow, hle⟩ := hquarter k hk
  exact ⟨⟨hpos, by omega⟩, by rw [hinterval]; dsimp only; omega, by rw [hinterval]; exact hlow,
    by rw [hinterval]; exact hlt, by rw [hinterval]; exact hproduct⟩

theorem inRange_of_digishield (hdigishield : params.fDigishieldDifficultyCalculation = true)
    (hpos : 1 ≤ params.nPowTargetTimespan) (hlt : params.nPowTargetTimespan * 2 < 2 ^ 32)
    (hproduct : (params.powLimit.toNat : ℤ) *
      (params.nPowTargetTimespan + params.nPowTargetTimespan.tdiv 2) < 2 ^ 256) :
    InRange nHeight params := by
  have hinterval : timespanInterval nHeight params =
      (params.nPowTargetTimespan - params.nPowTargetTimespan.tdiv 4,
        params.nPowTargetTimespan + params.nPowTargetTimespan.tdiv 2) := by
    unfold timespanInterval timespanBounds
    rw [if_pos hdigishield]
  have hquarter := Int.tdiv_le_self (a := params.nPowTargetTimespan) 4 (by omega)
  have hquarter₀ := Int.tdiv_nonneg (a := params.nPowTargetTimespan) (b := 4) (by omega) (by omega)
  have hhalf := Int.tdiv_le_self (a := params.nPowTargetTimespan) 2 (by omega)
  have hhalf₀ := Int.tdiv_nonneg (a := params.nPowTargetTimespan) (b := 2) (by omega) (by omega)
  exact ⟨⟨hpos, by omega⟩, by rw [hinterval]; dsimp only; omega, by rw [hinterval]; dsimp only; omega,
    by rw [hinterval]; dsimp only; omega, by rw [hinterval]; exact hproduct⟩

theorem inRange_of_retargets {net : Network} {h : ℕ} (hret : Retargets net h) :
    InRange (h + 1) (net.getConsensus (h + 1)) := by
  obtain ⟨interval, hinterval, -, hdvd⟩ := hret
  cases net with
  | main =>
    rw [getConsensus_main]
    split_ifs
    · exact inRange_of_plain rfl (by decide) (by decide) (by decide)
    · exact inRange_of_plain rfl (by decide) (by decide) (by decide)
    · exact inRange_of_plain rfl (by decide) (by decide) (by decide)
  | test =>
    rw [getConsensus_test]
    split_ifs
    · exact inRange_of_plain rfl (by decide) (by decide) (by decide)
    · exact inRange_of_digishield rfl (by decide) (by decide) (by decide)
    · exact inRange_of_digishield rfl (by decide) (by decide) (by decide)
    · exact inRange_of_digishield rfl (by decide) (by decide) (by decide)
  | regtest =>
    rw [getConsensus_regtest]
    split_ifs with hfirst
    · rw [getConsensus_regtest, if_pos hfirst, retargetInterval, if_neg (by omega)] at hinterval
      have hinterval : interval = 43200 := (Except.ok.inj hinterval).symm
      subst hinterval
      exact absurd (Int.le_of_dvd (by omega) hdvd) (by omega)
    · exact inRange_of_digishield rfl (by decide) (by decide) (by decide)
    · exact inRange_of_digishield rfl (by decide) (by decide) (by decide)

end

section

def scaledTarget (params : Params) (target : ℕ) (timespan : ℤ) : ℕ :=
  min params.powLimit.toNat (target * timespan.toNat / params.nPowTargetTimespan.toNat)

variable {params : Params} {pindexLast : CBlockIndex Ptr}

theorem mul_lt_of_inRange (hrange : InRange (pindexLast.nHeight + 1) params)
    (hlimit : (BaseUint.setCompact pindexLast.nBits).toNat ≤ params.powLimit.toNat) :
    let t := modulatedTimespan (pindexLast.nHeight + 1) nActualTimespan params
    0 ≤ t ∧ t < 2 ^ 32 ∧ (BaseUint.setCompact pindexLast.nBits).toNat * t.toNat < 2 ^ 256 := by
  intro t
  have ht : t = _ := modulatedTimespan_eq hrange.interval
  have hlower := hrange.lower
  have hupper := hrange.upper
  have hinterval := hrange.interval
  have hle : t ≤ (timespanInterval (pindexLast.nHeight + 1) params).2 := by omega
  refine ⟨by omega, by omega, ?_⟩
  have hmul : (BaseUint.setCompact pindexLast.nBits).toNat * t.toNat ≤
      params.powLimit.toNat * (timespanInterval (pindexLast.nHeight + 1) params).2.toNat :=
    Nat.mul_le_mul hlimit (by omega)
  have hproduct := hrange.product
  have hcast : ((timespanInterval (pindexLast.nHeight + 1) params).2.toNat : ℤ) =
      (timespanInterval (pindexLast.nHeight + 1) params).2 := Int.toNat_of_nonneg (by omega)
  rw [← hcast] at hproduct
  exact hmul.trans_lt (by exact_mod_cast hproduct)

theorem factor_eq {t : ℤ} (h₀ : 0 ≤ t) (hlt : t < 2 ^ 32) : (t % 2 ^ 32).toNat = t.toNat := by
  rw [Int.emod_eq_of_lt h₀ hlt]

section

variable (hrange : InRange (pindexLast.nHeight + 1) params)
  (hlimit : (BaseUint.setCompact pindexLast.nBits).toNat ≤ params.powLimit.toNat)
include hrange hlimit

theorem toNat_product (nActualTimespan : ℤ) :
    let t := modulatedTimespan (pindexLast.nHeight + 1) nActualTimespan params
    ((BaseUint.setCompact pindexLast.nBits).mulUInt32 (UInt32.ofNat (t % 2 ^ 32).toNat)).toNat =
      (BaseUint.setCompact pindexLast.nBits).toNat * t.toNat := by
  intro t
  obtain ⟨h₀, hlt, hmul⟩ := mul_lt_of_inRange hrange hlimit
  rw [BaseUint.toNat_mulUInt32, UInt32.toNat_ofNat', factor_eq h₀ hlt,
    Nat.mod_eq_of_lt (show t.toNat < 2 ^ 32 by omega), Nat.mul_comm]
  exact Nat.mod_eq_of_lt hmul

theorem calculateInWords_of_inRange (nFirstBlockTime : ℤ) :
    calculateInWords pindexLast nFirstBlockTime params =
      .ok (getCompact (BitVec.ofNat 256 (scaledTarget params
        (BaseUint.setCompact pindexLast.nBits).toNat (modulatedTimespan (pindexLast.nHeight + 1)
          (pindexLast.getBlockTime - nFirstBlockTime) params)))) := by
  have hproduct := toNat_product hrange hlimit (pindexLast.getBlockTime - nFirstBlockTime)
  obtain ⟨hpos, hlt⟩ := hrange.timespan
  have hdivisor : (BaseUint.ofUInt64 (UInt64.ofNat (params.nPowTargetTimespan % 2 ^ 64).toNat) :
      ArithWords).toNat = params.nPowTargetTimespan.toNat := by
    rw [Int.emod_eq_of_lt (by omega) (by omega), BaseUint.toNat_ofUInt64, UInt64.toNat_ofNat']
    exact Nat.mod_eq_of_lt (by omega)
  unfold calculateInWords
  dsimp only
  rw [divCompact_eq (by rw [hdivisor]; omega), hproduct, hdivisor]
  rfl

end

theorem toNat_scaledTarget (params : Params) (target : ℕ) (timespan : ℤ) :
    (BitVec.ofNat 256 (scaledTarget params target timespan)).toNat =
      scaledTarget params target timespan := by
  rw [BitVec.toNat_ofNat]
  exact Nat.mod_eq_of_lt ((Nat.min_le_left _ _).trans_lt params.powLimit.isLt)

theorem scaledTarget_mono {target : ℕ} {s t : ℤ} (h : s ≤ t) :
    scaledTarget params target s ≤ scaledTarget params target t :=
  min_le_min le_rfl (Nat.div_le_div_right (Nat.mul_le_mul_left _ (Int.toNat_le_toNat h)))

/-- At every height where a network retargets: the product does not wrap, the result is the compact
form of the scaled target, which is at most the limit and does not shrink as the actual timespan
grows. -/
theorem calculateInWords_exact (net : Network) (h : ℕ) (hret : Retargets net h)
    (pindexLast : CBlockIndex Ptr) (hheight : pindexLast.nHeight = h)
    (hlimit : (BaseUint.setCompact pindexLast.nBits).toNat ≤
      (net.getConsensus (h + 1)).powLimit.toNat) (nFirstBlockTime : UInt32) :
    let params := net.getConsensus (h + 1)
    let bnOld := BaseUint.setCompact pindexLast.nBits
    let nActualTimespan := pindexLast.getBlockTime - nFirstBlockTime.toNat
    let t := max (timespanInterval (h + 1) params).1
      (min (timespanInterval (h + 1) params).2 (dampedTimespan params nActualTimespan))
    (bnOld.mulUInt32 (UInt32.ofNat (modulatedTimespan (h + 1) nActualTimespan params %
        2 ^ 32).toNat)).toNat = bnOld.toNat * t.toNat ∧
      ∃ nBits, calculateInWords pindexLast nFirstBlockTime.toNat params = .ok nBits ∧
        nBits = getCompact (BitVec.ofNat 256 (scaledTarget params bnOld.toNat t)) ∧
        (setCompact nBits).1.toNat ≤ params.powLimit.toNat ∧
        ∀ (pindexLast' : CBlockIndex Ptr) (nFirstBlockTime' : UInt32),
          pindexLast'.nHeight = h → pindexLast'.nBits = pindexLast.nBits →
          nActualTimespan ≤ pindexLast'.getBlockTime - nFirstBlockTime'.toNat →
          ∃ nBits', calculateInWords pindexLast' nFirstBlockTime'.toNat params = .ok nBits' ∧
            (setCompact nBits).1.toNat ≤ (setCompact nBits').1.toNat := by
  intro params bnOld nActualTimespan t
  subst hheight
  have hrange : InRange (pindexLast.nHeight + 1) params := inRange_of_retargets hret
  have ht : modulatedTimespan (pindexLast.nHeight + 1) nActualTimespan params = t :=
    modulatedTimespan_eq hrange.interval
  have hproduct := toNat_product hrange hlimit nActualTimespan
  have hrun := calculateInWords_of_inRange hrange hlimit nFirstBlockTime.toNat
  dsimp only at hproduct
  rw [ht] at hproduct hrun
  refine ⟨by rw [ht]; exact hproduct, _, hrun, rfl, ?_, ?_⟩
  · rw [toNat_setCompact_getCompact, toNat_scaledTarget]
    exact (Nat.div_mul_le_self _ _).trans (Nat.min_le_left _ _)
  · intro pindexLast' nFirstBlockTime' hheight' hbits' hle
    rw [← hheight'] at hrange
    rw [← hbits'] at hlimit
    have hrun' := calculateInWords_of_inRange hrange hlimit nFirstBlockTime'.toNat
    refine ⟨_, hrun', toNat_setCompact_getCompact_mono ?_⟩
    rw [toNat_scaledTarget, toNat_scaledTarget, hheight', hbits',
      modulatedTimespan_eq (hheight' ▸ hrange.interval)]
    refine scaledTarget_mono (max_le_max le_rfl (min_le_min le_rfl (dampedTimespan_mono hle)))

def beforeRetarget : CBlockIndex ℕ where
  pprev := some 478
  pskip := none
  nHeight := 479
  nVersion := 1
  nTime := 1388950000
  nBits := 0x1e0ffff0

theorem calculateInWords_exact_first :
    Retargets .main 479 ∧
      ∃ nBits, calculateInWords beforeRetarget (1388907427 : UInt32).toNat
          (Network.main.getConsensus 480) = .ok nBits ∧
        (setCompact nBits).1.toNat ≤ (Network.main.getConsensus 480).powLimit.toNat := by
  have hret : Retargets .main 479 := ⟨480, rfl, by decide, by decide⟩
  have hlimit : (BaseUint.setCompact beforeRetarget.nBits).toNat ≤
      (Network.main.getConsensus 480).powLimit.toNat := by
    rw [BaseUint.toNat_setCompact]
    decide
  obtain ⟨-, nBits, hrun, -, hle, -⟩ :=
    calculateInWords_exact .main 479 hret beforeRetarget rfl hlimit 1388907427
  exact ⟨hret, nBits, hrun, hle⟩

end

end Pow

end Coinyecoin
