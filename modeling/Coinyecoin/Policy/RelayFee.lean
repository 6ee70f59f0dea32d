import Coinyecoin.Policy.FeeRate
import Coinyecoin.Primitives.Serialize
import Coinyecoin.Script.SigOps

/-!
# Dust

An output is dust if spending it would cost a third of it or more at the dust rate. The
threshold is computed in the reading of amounts it is given; where it returns, it returns
the exact value.
-/

namespace Coinyecoin

open Foundation

structure DraftOut where
  nValue : ℤ
  scriptPubKey : CScript
deriving DecidableEq, Repr

namespace CFeeRate

def feeFor (R : AmountReading) (rate : CFeeRate) (nBytes : ℕ) : Except Fault ℤ :=
  match R with
  | .int64 => rate.getFee nBytes
  | .unbounded => .ok (rate.exactFee nBytes)

def HasFee (R : AmountReading) (rate : CFeeRate) (nBytes : ℕ) : Prop :=
  R.Has (rate.nSatoshisPerK * (1000 * thousands nBytes))

variable {R : AmountReading} {rate : CFeeRate} {nBytes : ℕ} {nFee : ℤ}

theorem sizeOf_eq_ok {nSize : ℤ} (h : sizeOf nBytes = .ok nSize) : nSize = nBytes := by
  obtain ⟨u, -, hsize⟩ := bind_eq_ok.1 h
  exact (Except.ok.inj hsize).symm

theorem roundUp_eq_ok {nSize : ℤ} (h : roundUp nBytes = .ok nSize) :
    nSize = 1000 * thousands nBytes := by
  have hmod : (nBytes : ℤ).tmod 1000 = (nBytes % 1000 : ℕ) := by
    rw [Int.tmod_eq_emod_of_nonneg (Int.natCast_nonneg nBytes)]
    omega
  unfold roundUp at h
  rw [hmod] at h
  unfold thousands
  split_ifs at h with hpos
  · obtain ⟨nNext, hnext, hsize⟩ := bind_eq_ok.1 h
    obtain ⟨-, rfl⟩ := checkedInt64_eq_ok.1 hnext
    have := Except.ok.inj hsize
    omega
  · have := Except.ok.inj h
    omega

theorem feeFor_eq_ok (h : rate.feeFor R nBytes = .ok nFee) :
    rate.HasFee R nBytes ∧ nFee = rate.exactFee nBytes := by
  cases R with
  | int64 =>
    obtain ⟨nSize, hsize, h⟩ := bind_eq_ok.1 h
    obtain ⟨nRounded, hround, h⟩ := bind_eq_ok.1 h
    obtain ⟨nProduct, hproduct, h⟩ := bind_eq_ok.1 h
    obtain rfl := sizeOf_eq_ok hsize
    obtain rfl := roundUp_eq_ok hround
    obtain ⟨hfits, rfl⟩ := checkedInt64_eq_ok.1 hproduct
    exact ⟨hfits, (Except.ok.inj h).symm.trans (atLeastOne_mul _ _)⟩
  | unbounded => exact ⟨trivial, (Except.ok.inj h).symm⟩

end CFeeRate

section

variable (R : AmountReading)

def spendingSize (script : CScript) : ℕ :=
  (writeTxOut ⟨0, script⟩).length +
    if (script.isWitnessProgram).isSome then 32 + 4 + 1 + 107 / WITNESS_SCALE_FACTOR + 4
    else 32 + 4 + 1 + 107 + 4

/-- `GetDustThreshold`, which does not depend on the value. -/
def getDustThreshold (minRelayTxFee : CFeeRate) (script : CScript) : Except Fault ℤ :=
  if script.isUnspendable then .ok 0
  else do
    let nFee ← minRelayTxFee.feeFor R (spendingSize script)
    R.value (3 * nFee)

end

section

variable {R : AmountReading} {rate : CFeeRate}

def dustThreshold (rate : CFeeRate) (script : CScript) : ℤ :=
  if script.isUnspendable then 0 else 3 * rate.exactFee (spendingSize script)

theorem getDustThreshold_eq_ok {script : CScript} {t : ℤ}
    (h : getDustThreshold R rate script = .ok t) : t = dustThreshold rate script := by
  unfold getDustThreshold at h
  unfold dustThreshold
  split_ifs at h ⊢
  · exact (Except.ok.inj h).symm
  · obtain ⟨nFee, hfee, h⟩ := bind_eq_ok.1 h
    obtain ⟨-, rfl⟩ := CFeeRate.feeFor_eq_ok hfee
    exact (AmountReading.value_eq_ok.1 h).2

end

end Coinyecoin
