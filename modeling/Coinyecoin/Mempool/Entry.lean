import Coinyecoin.Foundation.MachineSum
import Coinyecoin.Primitives.Serialize
import Coinyecoin.Validation.CheckBlock

/-!
# Entries of the memory pool

`CTxMemPoolEntry`: a transaction with its fee, weight and signature operation
cost, and the totals of these over the transactions of the pool that it depends
on and that depend on it. The totals are 64-bit and wrap around; the cost of
signature operations goes through an `int` on its way into a total.
-/

namespace Coinyecoin

open Foundation

structure PoolEnv where
  hash : Bytes → uint256
  nBytesPerSigOp : UInt32

def getTransactionWeight (tx : CTransaction) : ℕ :=
  (serializeTransaction false tx).length * (WITNESS_SCALE_FACTOR - 1) +
    (serializeTransaction true tx).length

def MAX_STANDARD_TX_WEIGHT : ℕ := 400000

def getVirtualTransactionSize (env : PoolEnv) (nWeight nSigOpCost : ℤ) : ℤ :=
  (max nWeight (nSigOpCost * env.nBytesPerSigOp.toNat) + WITNESS_SCALE_FACTOR - 1).tdiv
    WITNESS_SCALE_FACTOR

structure CTxMemPoolEntry where
  tx : CTransaction
  nFee : Int64
  nTxWeight : ℕ
  sigOpCost : Int64
  feeDelta : Int64
  nCountWithDescendants : UInt64
  nSizeWithDescendants : UInt64
  nModFeesWithDescendants : Int64
  nCountWithAncestors : UInt64
  nSizeWithAncestors : UInt64
  nModFeesWithAncestors : Int64
  nSigOpCostWithAncestors : Int64
deriving DecidableEq, Repr

namespace CTxMemPoolEntry

variable (env : PoolEnv)

def virtualSize (entry : CTxMemPoolEntry) : ℤ :=
  getVirtualTransactionSize env entry.nTxWeight entry.sigOpCost.toInt

def getTxSize (entry : CTxMemPoolEntry) : UInt64 := UInt64.ofInt (entry.virtualSize env)

def getModifiedFee (entry : CTxMemPoolEntry) : Int64 := entry.nFee + entry.feeDelta

def create (tx : CTransaction) (nFee sigOpsCost : Int64) : CTxMemPoolEntry :=
  let nTxWeight := getTransactionWeight tx
  let nTxSize :=
    UInt64.ofInt (getVirtualTransactionSize env nTxWeight sigOpsCost.toInt)
  { tx := tx
    nFee := nFee
    nTxWeight := nTxWeight
    sigOpCost := sigOpsCost
    feeDelta := 0
    nCountWithDescendants := 1
    nSizeWithDescendants := nTxSize
    nModFeesWithDescendants := nFee
    nCountWithAncestors := 1
    nSizeWithAncestors := nTxSize
    nModFeesWithAncestors := nFee
    nSigOpCostWithAncestors := sigOpsCost }

def updateFeeDelta (entry : CTxMemPoolEntry) (newFeeDelta : Int64) : CTxMemPoolEntry :=
  { entry with
    nModFeesWithDescendants := entry.nModFeesWithDescendants + (newFeeDelta - entry.feeDelta)
    nModFeesWithAncestors := entry.nModFeesWithAncestors + (newFeeDelta - entry.feeDelta)
    feeDelta := newFeeDelta }

def updateDescendantState (modifySize modifyFee modifyCount : Int64) (entry : CTxMemPoolEntry) :
    Except Fault CTxMemPoolEntry := do
  let nSizeWithDescendants := entry.nSizeWithDescendants + modifySize.toUInt64
  assertThat (0 < nSizeWithDescendants.toInt64) "int64_t(nSizeWithDescendants) > 0"
  let nCountWithDescendants := entry.nCountWithDescendants + modifyCount.toUInt64
  assertThat (0 < nCountWithDescendants.toInt64) "int64_t(nCountWithDescendants) > 0"
  return { entry with
    nSizeWithDescendants := nSizeWithDescendants
    nModFeesWithDescendants := entry.nModFeesWithDescendants + modifyFee
    nCountWithDescendants := nCountWithDescendants }

/-- The cost of signature operations arrives as an `int`. -/
def updateAncestorState (modifySize modifyFee modifyCount : Int64) (modifySigOps : Int32)
    (entry : CTxMemPoolEntry) : Except Fault CTxMemPoolEntry := do
  let nSizeWithAncestors := entry.nSizeWithAncestors + modifySize.toUInt64
  assertThat (0 < nSizeWithAncestors.toInt64) "int64_t(nSizeWithAncestors) > 0"
  let nCountWithAncestors := entry.nCountWithAncestors + modifyCount.toUInt64
  assertThat (0 < nCountWithAncestors.toInt64) "int64_t(nCountWithAncestors) > 0"
  let nSigOpCostWithAncestors := entry.nSigOpCostWithAncestors + modifySigOps.toInt64
  assertThat (0 ≤ nSigOpCostWithAncestors.toInt32) "int(nSigOpCostWithAncestors) >= 0"
  return { entry with
    nSizeWithAncestors := nSizeWithAncestors
    nModFeesWithAncestors := entry.nModFeesWithAncestors + modifyFee
    nCountWithAncestors := nCountWithAncestors
    nSigOpCostWithAncestors := nSigOpCostWithAncestors }

end CTxMemPoolEntry

abbrev Totals := UInt64 × UInt64 × Int64

def Totals.Positive (totals : Totals) : Prop :=
  0 < totals.1.toInt64 ∧ 0 < totals.2.1.toInt64

/-- The same for totals with a cost of signature operations. -/
def CostPositive (totals : Totals × Int64) : Prop :=
  totals.1.Positive ∧ 0 ≤ totals.2.toInt32

namespace CTxMemPoolEntry

variable (env : PoolEnv)

def own (entry : CTxMemPoolEntry) : Totals := (1, entry.getTxSize env, entry.getModifiedFee)

/-- The same with the cost of signature operations, which only ancestors are summed up for. -/
def ownCost (entry : CTxMemPoolEntry) : Totals × Int64 := (entry.own env, entry.sigOpCost)

def withDescendants (entry : CTxMemPoolEntry) : Totals :=
  (entry.nCountWithDescendants, entry.nSizeWithDescendants, entry.nModFeesWithDescendants)

def withAncestors (entry : CTxMemPoolEntry) : Totals × Int64 :=
  ((entry.nCountWithAncestors, entry.nSizeWithAncestors, entry.nModFeesWithAncestors),
    entry.nSigOpCostWithAncestors)

def setDescendants (entry : CTxMemPoolEntry) (totals : Totals) : CTxMemPoolEntry :=
  { entry with
    nCountWithDescendants := totals.1
    nSizeWithDescendants := totals.2.1
    nModFeesWithDescendants := totals.2.2 }

def setAncestors (entry : CTxMemPoolEntry) (totals : Totals × Int64) : CTxMemPoolEntry :=
  { entry with
    nCountWithAncestors := totals.1.1
    nSizeWithAncestors := totals.1.2.1
    nModFeesWithAncestors := totals.1.2.2
    nSigOpCostWithAncestors := totals.2 }

variable {env} {entry : CTxMemPoolEntry}

@[simp] theorem withDescendants_setDescendants (totals : Totals) :
    (entry.setDescendants totals).withDescendants = totals := rfl

variable (totals : Totals × Int64)

@[simp] theorem withAncestors_setAncestors :
    (entry.setAncestors totals).withAncestors = totals := rfl

@[simp] theorem withDescendants_setAncestors :
    (entry.setAncestors totals).withDescendants = entry.withDescendants := rfl

@[simp] theorem setDescendants_setDescendants (first second : Totals) :
    (entry.setDescendants first).setDescendants second = entry.setDescendants second := rfl

@[simp] theorem setAncestors_setAncestors (first second : Totals × Int64) :
    (entry.setAncestors first).setAncestors second = entry.setAncestors second := rfl

variable {modifySize modifyFee modifyCount : Int64} {modifySigOps : Int32}

theorem updateDescendantState_eq {change : Totals}
    (hchange : (modifyCount.toUInt64, modifySize.toUInt64, modifyFee) = change)
    (h : Totals.Positive (entry.withDescendants + change)) :
    entry.updateDescendantState modifySize modifyFee modifyCount =
      .ok (entry.setDescendants (entry.withDescendants + change)) := by
  subst hchange
  obtain ⟨hcount, hsize⟩ : 0 < (entry.nCountWithDescendants + modifyCount.toUInt64).toInt64 ∧
    0 < (entry.nSizeWithDescendants + modifySize.toUInt64).toInt64 := h
  simp only [updateDescendantState, assertThat_of_true hsize, assertThat_of_true hcount, ok_bind]
  rfl

theorem updateAncestorState_eq {change : Totals × Int64}
    (hchange : ((modifyCount.toUInt64, modifySize.toUInt64, modifyFee), modifySigOps.toInt64) =
      change)
    (h : CostPositive (entry.withAncestors + change)) :
    entry.updateAncestorState modifySize modifyFee modifyCount modifySigOps =
      .ok (entry.setAncestors (entry.withAncestors + change)) := by
  subst hchange
  obtain ⟨⟨hcount, hsize⟩, hcost⟩ :
    (0 < (entry.nCountWithAncestors + modifyCount.toUInt64).toInt64 ∧
      0 < (entry.nSizeWithAncestors + modifySize.toUInt64).toInt64) ∧
    0 ≤ (entry.nSigOpCostWithAncestors + modifySigOps.toInt64).toInt32 := h
  simp only [updateAncestorState, assertThat_of_true hsize, assertThat_of_true hcount,
    assertThat_of_true hcost, ok_bind]
  rfl

theorem costPositive_of_updateAncestorState {after : CTxMemPoolEntry}
    (h : entry.updateAncestorState modifySize modifyFee modifyCount modifySigOps = .ok after) :
    CostPositive (entry.withAncestors +
      ((modifyCount.toUInt64, modifySize.toUInt64, modifyFee), modifySigOps.toInt64)) := by
  rw [updateAncestorState] at h
  obtain ⟨_, hsize, h⟩ := bind_eq_ok.1 h
  obtain ⟨_, hcount, h⟩ := bind_eq_ok.1 h
  obtain ⟨_, hcost, -⟩ := bind_eq_ok.1 h
  rw [assertThat_eq_ok] at hsize hcount hcost
  exact ⟨⟨hcount, hsize⟩, hcost⟩

end CTxMemPoolEntry

end Coinyecoin
