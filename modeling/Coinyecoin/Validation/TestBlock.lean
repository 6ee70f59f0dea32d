import Coinyecoin.Script.SigOps
import Coinyecoin.Validation.ConnectBlock
import Coinyecoin.Validation.Contextual

/-!
# Testing a block on the tip

`TestBlockValidity`, and the sizes, hashes and signature operations that the checks
of a block compute. The block is one without an auxpow, as the node's own templates
and candidates are.
-/

namespace Coinyecoin

open Foundation Consensus

variable {block : CBlock}

def serializeBlock (fAllowWitness : Bool) (block : CBlock) : Bytes :=
  writePureBlockHeader block.header ++ writeVector (serializeTransaction fAllowWitness) block.vtx

/-- `GetSerializeSize` of a block, with or without its witness data. -/
def blockSize (fAllowWitness : Bool) (block : CBlock) : ℕ :=
  (serializeBlock fAllowWitness block).length

theorem length_le_flatMap {α : Type} (write : α → Bytes) (hpos : ∀ a, 1 ≤ (write a).length)
    (l : List α) : l.length ≤ (l.flatMap write).length := by
  induction l with
  | nil => exact Nat.le_refl 0
  | cons a l ih =>
    have hhead := hpos a
    rw [List.flatMap_cons, List.length_append, List.length_cons]
    omega

theorem vout_length_le_serialize (tx : CTransaction) :
    tx.vout.length ≤ (serializeTransaction false tx).length := by
  have hout := length_le_flatMap writeTxOut
    (fun txout => by simp [writeTxOut, writeInt64]; omega) tx.vout
  simp only [serializeTransaction, Bool.false_and, writeInputsOutputs, writeVector,
    List.length_append, Bool.false_eq_true, if_false]
  omega

def blockChecks (hash : Bytes → uint256) (hashPair : uint256 → uint256 → uint256)
    (checkAuxPowProofOfWork : CBlock → Bool) : CheckEnv where
  getHash := CTransaction.getHash hash
  getSerializeSize tx := (serializeTransaction false tx).length
  vout_length_le := vout_length_le_serialize
  getBlockSize := blockSize false
  checkAuxPowProofOfWork := checkAuxPowProofOfWork
  blockMerkleRoot := Merkle.blockMerkleRoot hashPair (CTransaction.getHash hash)
  getLegacySigOpCount := CTransaction.getLegacySigOpCount

theorem blockSize_eq (fAllowWitness : Bool) (block : CBlock) :
    blockSize fAllowWitness block = 80 + (writeCompactSize block.vtx.length).length +
      (block.vtx.map fun tx => (serializeTransaction fAllowWitness tx).length).sum := by
  simp [blockSize, serializeBlock, writePureBlockHeader, writeVector, writeInt32, writeUInt32,
    writeUint256, List.length_flatMap]
  omega

theorem blockSize_true (h : ∀ tx ∈ block.vtx, tx.hasWitness = false) :
    blockSize true block = blockSize false block := by
  rw [blockSize_eq, blockSize_eq]
  have hmap : (block.vtx.map fun tx => (serializeTransaction true tx).length) =
      block.vtx.map fun tx => (serializeTransaction false tx).length := by
    refine List.map_congr_left fun tx htx => ?_
    rw [serializeTransaction_of_not_hasWitness (h tx htx),
      serializeTransaction_of_not_hasWitness (h tx htx)]
  rw [hmap]

section

variable {B : CCoinsView} (env : ConnectEnv) (hash : Bytes → uint256)
  (hashPair : uint256 → uint256 → uint256) {Ptr : Type} [DecidableEq Ptr] (T : BlockTree Ptr)

/-- `TestBlockValidity` for a block on the tip `pindexPrev`, whose hash and ancestor at
the BIP34 height are given. The check against the checkpoints is left out. -/
def testBlockValidity (block : CBlock) (pindexPrev : Ptr) (hashPrev : uint256)
    (hashBIP34 : Option uint256) (nAdjustedTime : ℤ) (caches : VersionBitsCache Ptr)
    (view : ViewStack B) (fCheckPOW fCheckMerkleRoot : Bool) : Except Failure Unit := do
  contextualCheckBlockHeader env.network T block.header (some pindexPrev) nAdjustedTime
  checkBlock env.toCheckEnv block fCheckPOW fCheckMerkleRoot
  (contextualCheckBlock hash hashPair blockSize env.network T block (some pindexPrev) caches).1
  let _ ← connectBlock env ⟨true, true, true, true⟩ block
    ⟨Int32.ofNat ((T.index pindexPrev).nHeight + 1), 0, some hashPrev, hashBIP34⟩ view
  return ()

variable {env hash hashPair T}

theorem testBlockValidity_eq_ok {pindexPrev : Ptr} {hashPrev : uint256}
    {hashBIP34 : Option uint256} {nAdjustedTime : ℤ} {caches : VersionBitsCache Ptr}
    {view : ViewStack B} {fCheckPOW fCheckMerkleRoot : Bool}
    (h : testBlockValidity env hash hashPair T block pindexPrev hashPrev hashBIP34 nAdjustedTime
      caches view fCheckPOW fCheckMerkleRoot = .ok ()) :
    contextualCheckBlockHeader env.network T block.header (some pindexPrev) nAdjustedTime =
        .ok () ∧
      checkBlock env.toCheckEnv block fCheckPOW fCheckMerkleRoot = .ok () ∧
      (contextualCheckBlock hash hashPair blockSize env.network T block (some pindexPrev)
        caches).1 = .ok () := by
  simp only [testBlockValidity, bind_eq_ok] at h
  obtain ⟨_, hheader, _, hcheck, _, hcontext, -⟩ := h
  exact ⟨hheader, hcheck, hcontext⟩

end

end Coinyecoin
