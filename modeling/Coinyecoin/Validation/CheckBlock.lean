import Coinyecoin.Primitives.PureHeader
import Coinyecoin.Primitives.Transaction

/-!
# Context-free checks

`CheckTransaction` and `CheckBlock`. A check that fails stops with the verdict
that `CValidationState` records: the misbehaviour level, the reject code, the
reject reason and whether the data may have been corrupted in transit. The text
for the debug log is left out, and so is `fChecked`, which remembers that a
block passed the same checks before.

What the checks compute from other parts of the node (sizes, the merkle root,
proof of work, signature operations) is a parameter, `CheckEnv`.
-/

namespace Coinyecoin

structure Reject where
  nDoS : ℕ
  chRejectCode : ℕ
  strRejectReason : String
  corruptionPossible : Bool
deriving DecidableEq, Repr

/-- How a validation function can stop short: by a fault, by a verdict, or by an
error that is only logged. -/
inductive Failure where
  | fault (f : Fault)
  | invalid (r : Reject)
  | error (msg : String)
deriving DecidableEq, Repr

def REJECT_INVALID : ℕ := 0x10

/-- `state.DoS(level, false, REJECT_INVALID, reason)`. -/
def dos {α : Type} (level : ℕ) (reason : String) (corruptionIn : Bool) : Except Failure α :=
  .error (.invalid ⟨level, REJECT_INVALID, reason, corruptionIn⟩)

/-- Stops with `stop` if the condition is met. -/
def rejectIf {α : Type} (cond : Bool) (stop : Except α Unit) : Except α Unit :=
  if cond then stop else .ok ()

/-- A computation that can only fault, among those that also give verdicts. -/
def orFault {α : Type} (x : Except Fault α) : Except Failure α := x.mapError .fault

theorem orFault_eq_ok {α : Type} {x : Except Fault α} {a : α} : orFault x = .ok a ↔ x = .ok a :=
  mapError_eq_ok

variable {u : Unit}

theorem rejectIf_eq_ok {cond : Bool} {stop : Failure} :
    rejectIf cond (.error stop) = .ok u ↔ cond = false := by
  cases cond <;> simp [rejectIf]

def MAX_BLOCK_BASE_SIZE : ℕ := 1000000

def MAX_BLOCK_SIGOPS_COST : ℤ := 80000

def WITNESS_SCALE_FACTOR : ℕ := 4

structure CBlock where
  header : CPureBlockHeader
  vtx : List CTransaction
deriving DecidableEq, Repr

/-- The parts of the node that the checks rely on. Every output takes at least
one byte of a serialized transaction. -/
structure CheckEnv where
  getHash : CTransaction → uint256
  getSerializeSize : CTransaction → ℕ
  vout_length_le : ∀ tx, tx.vout.length ≤ getSerializeSize tx
  getBlockSize : CBlock → ℕ
  checkAuxPowProofOfWork : CBlock → Bool
  blockMerkleRoot : CBlock → uint256 × Bool
  getLegacySigOpCount : CTransaction → ℕ

variable {env : CheckEnv} {block : CBlock} {fCheckPOW fCheckMerkleRoot : Bool}

def checkOutputValues (nValueOut : ℤ) : List CTxOut → Except Failure Unit
  | [] => .ok ()
  | txout :: vout => do
    rejectIf (txout.nValue.toInt < 0) (dos 100 "bad-txns-vout-negative" false)
    rejectIf (txout.nValue.toInt > MAX_MONEY) (dos 100 "bad-txns-vout-toolarge" false)
    let nValueOut := nValueOut + txout.nValue.toInt
    rejectIf (!moneyRange nValueOut) (dos 100 "bad-txns-txouttotal-toolarge" false)
    checkOutputValues nValueOut vout

def checkTransaction (env : CheckEnv) (tx : CTransaction) (fCheckDuplicateInputs : Bool) :
    Except Failure Unit := do
  rejectIf tx.vin.isEmpty (dos 10 "bad-txns-vin-empty" false)
  rejectIf tx.vout.isEmpty (dos 10 "bad-txns-vout-empty" false)
  rejectIf (env.getSerializeSize tx > MAX_BLOCK_BASE_SIZE) (dos 100 "bad-txns-oversize" false)
  checkOutputValues 0 tx.vout
  rejectIf (fCheckDuplicateInputs && !decide (tx.vin.map CTxIn.prevout).Nodup)
    (dos 100 "bad-txns-inputs-duplicate" false)
  if tx.isCoinBase then
    rejectIf (tx.vin.head?.any fun txin =>
        txin.scriptSig.length < 2 || txin.scriptSig.length > 100)
      (dos 100 "bad-cb-length" false)
  else
    rejectIf (tx.vin.any fun txin => txin.prevout.isNull) (dos 10 "bad-txns-prevout-null" false)

def checkBlockHeader (env : CheckEnv) (block : CBlock) (fCheckPOW : Bool) :
    Except Failure Unit :=
  rejectIf (fCheckPOW && !env.checkAuxPowProofOfWork block) (dos 50 "high-hash" false)

def checkBlock (env : CheckEnv) (block : CBlock) (fCheckPOW fCheckMerkleRoot : Bool) :
    Except Failure Unit := do
  checkBlockHeader env block fCheckPOW
  rejectIf (fCheckMerkleRoot && block.header.hashMerkleRoot != (env.blockMerkleRoot block).1)
    (dos 100 "bad-txnmrklroot" true)
  rejectIf (fCheckMerkleRoot && (env.blockMerkleRoot block).2)
    (dos 100 "bad-txns-duplicate" true)
  rejectIf (block.vtx.isEmpty || block.vtx.length > MAX_BLOCK_BASE_SIZE ||
    env.getBlockSize block > MAX_BLOCK_BASE_SIZE) (dos 100 "bad-blk-length" false)
  rejectIf (!block.vtx.head?.any CTransaction.isCoinBase) (dos 100 "bad-cb-missing" false)
  rejectIf (block.vtx.tail.any CTransaction.isCoinBase) (dos 100 "bad-cb-multiple" false)
  block.vtx.forM fun tx => checkTransaction env tx true
  let nSigOps := (block.vtx.map env.getLegacySigOpCount).sum
  rejectIf (decide ((nSigOps * WITNESS_SCALE_FACTOR : ℕ) > MAX_BLOCK_SIGOPS_COST))
    (dos 100 "bad-blk-sigops" false)

/-- What the later steps rely on in a transaction that passed its checks. -/
structure CTransaction.Checked (tx : CTransaction) : Prop where
  values : ∀ txout ∈ tx.vout, 0 ≤ txout.nValue.toInt ∧ txout.nValue.toInt ≤ MAX_MONEY
  vout_length : tx.vout.length ≤ MAX_BLOCK_BASE_SIZE
  nodup : (tx.vin.map CTxIn.prevout).Nodup

theorem checkOutputValues_values {nValueOut : ℤ} {vout : List CTxOut}
    (h : checkOutputValues nValueOut vout = .ok u) :
    ∀ txout ∈ vout, 0 ≤ txout.nValue.toInt ∧ txout.nValue.toInt ≤ MAX_MONEY := by
  induction vout generalizing nValueOut with
  | nil => exact fun _ hmem => nomatch hmem
  | cons txout vout ih =>
    simp only [checkOutputValues, dos, Foundation.bind_eq_ok, rejectIf_eq_ok, exists_const,
      decide_eq_false_iff_not] at h
    obtain ⟨hneg, hlarge, -, hrest⟩ := h
    rw [List.forall_mem_cons]
    exact ⟨⟨by omega, by omega⟩, ih hrest⟩

theorem checkTransaction_checked {tx : CTransaction}
    (h : checkTransaction env tx true = .ok u) : tx.Checked := by
  simp only [checkTransaction, dos, Foundation.bind_eq_ok, rejectIf_eq_ok, exists_const,
    decide_eq_false_iff_not, Bool.true_and, Bool.not_eq_false', decide_eq_true_eq] at h
  obtain ⟨-, -, hsize, _, hvalues, hnodup, -⟩ := h
  have hle := env.vout_length_le tx
  exact ⟨checkOutputValues_values hvalues, by omega, hnodup⟩

theorem checkBlock_eq_ok :
    checkBlock env block fCheckPOW fCheckMerkleRoot = .ok u ↔
      (fCheckPOW = true → env.checkAuxPowProofOfWork block = true) ∧
        (fCheckMerkleRoot = true → block.header.hashMerkleRoot = (env.blockMerkleRoot block).1 ∧
          (env.blockMerkleRoot block).2 = false) ∧
        (block.vtx.length ≤ MAX_BLOCK_BASE_SIZE ∧ env.getBlockSize block ≤ MAX_BLOCK_BASE_SIZE) ∧
        (∃ tx rest, block.vtx = tx :: rest ∧ tx.isCoinBase = true ∧
          ∀ tx' ∈ rest, tx'.isCoinBase = false) ∧
        (∀ tx ∈ block.vtx, checkTransaction env tx true = .ok ()) ∧
        (((block.vtx.map env.getLegacySigOpCount).sum * WITNESS_SCALE_FACTOR : ℕ) : ℤ) ≤
          MAX_BLOCK_SIGOPS_COST := by
  simp only [checkBlock, checkBlockHeader, dos, Foundation.bind_eq_ok, rejectIf_eq_ok,
    exists_const, Foundation.forM_eq_ok, decide_eq_false_iff_not, gt_iff_lt]
  cases hvtx : block.vtx with
  | nil => simp
  | cons tx rest =>
    cases fCheckPOW <;> cases fCheckMerkleRoot <;> simp [and_assoc]

/-- What the later steps rely on in a block that passed its checks. -/
structure CBlock.Checked (block : CBlock) : Prop where
  coinbase : ∃ tx rest, block.vtx = tx :: rest ∧ tx.isCoinBase = true ∧
    ∀ tx' ∈ rest, tx'.isCoinBase = false
  transactions : ∀ tx ∈ block.vtx, tx.Checked

theorem checkBlock_checked
    (h : checkBlock env block fCheckPOW fCheckMerkleRoot = .ok u) : block.Checked := by
  obtain ⟨-, -, -, hcoinbase, htxs, -⟩ := checkBlock_eq_ok.1 h
  exact ⟨hcoinbase, fun tx htx => checkTransaction_checked (htxs tx htx)⟩

end Coinyecoin
