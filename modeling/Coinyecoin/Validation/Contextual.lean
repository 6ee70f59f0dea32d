import Coinyecoin.AuxPow.Check
import Coinyecoin.Chain.VersionBits
import Coinyecoin.Consensus.Merkle
import Coinyecoin.Pow.NextWork
import Coinyecoin.Script.Push
import Coinyecoin.Util.StrEncodings

/-!
# Contextual checks

`CheckBlockHeader`, `ContextualCheckBlockHeader` and `ContextualCheckBlock`: what a
header and a block have to meet on top of a given previous block. The last one asks
for the states of two deployments, and keeps them in the cache even if it rejects
the block.
-/

namespace Coinyecoin

open Foundation Consensus CBlockIndex

variable {block : CBlock} {u : Unit}

def REJECT_OBSOLETE : ℕ := 0x11

/-- `state.Invalid(false, code, reason)`, a verdict without a misbehaviour level. -/
def invalid {α : Type} (code : ℕ) (reason : String) : Except Failure α :=
  .error (.invalid ⟨0, code, reason, false⟩)

/-- The version without the auxpow flag and the chain ID: a remainder that keeps the
sign. -/
def getBaseVersion (nVersion : Int32) : ℤ :=
  nVersion.toInt.tmod CPureBlockHeader.VERSION_AUXPOW.toInt

section

variable (hash : Bytes → uint256) (hashPair : uint256 → uint256 → uint256)
  (getPoWHash : CPureBlockHeader → uint256) (net : Network)

/-- `CheckBlockHeader`, with the parameters of the first era at every height. -/
def CBlockHeader.checkBlockHeader (block : CBlockHeader) (fCheckPOW : Bool) :
    Except Failure Unit :=
  if fCheckPOW then
    match checkAuxPowProofOfWork hash hashPair getPoWHash block (net.getConsensus 0) with
    | .ok () => .ok ()
    | .error (.fault f) => .error (.fault f)
    | .error _ => dos 50 "high-hash" false
  else .ok ()

variable {Ptr : Type} (T : BlockTree Ptr)

/-- The blocks of at least version `minVersion` among the last `n`, up to `nRequired`
of them. -/
def countVersions (minVersion : ℤ) (nRequired : ℕ) : ℕ → ℕ → Option Ptr → ℕ
  | 0, nFound, _ => nFound
  | _ + 1, nFound, none => nFound
  | n + 1, nFound, some pstart =>
    if nFound < nRequired then
      countVersions minVersion nRequired n
        (if getBaseVersion (T.index pstart).nVersion ≥ minVersion then nFound + 1 else nFound)
        (T.index pstart).pprev
    else nFound

def isSuperMajority (minVersion : ℤ) (pstart : Option Ptr) (nRequired : ℕ) (params : Params) :
    Bool :=
  decide (countVersions T minVersion nRequired params.nMajorityWindow 0 pstart ≥ nRequired)

/-- `pindexPrev == NULL ? 0 : pindexPrev->nHeight + 1`. -/
def heightAfter (pindexPrev : Option Ptr) : ℕ :=
  match pindexPrev with
  | none => 0
  | some p => (T.index p).nHeight + 1

def badVersion (nVersion : ℤ) : String :=
  "bad-version(0x" ++
    String.ofList ((format08x (UInt32.ofInt nVersion)).map fun c => Char.ofNat c.toNat) ++ ")"

/-- `ContextualCheckBlockHeader`. The time of the previous block is read through a
pointer that may be null. -/
def contextualCheckBlockHeader (block : CPureBlockHeader) (pindexPrev : Option Ptr)
    (nAdjustedTime : ℤ) : Except Failure Unit := do
  let nHeight := heightAfter T pindexPrev
  let consensusParams := net.getConsensus nHeight
  rejectIf (!consensusParams.fAllowLegacyBlocks && block.isLegacy)
    (dos 100 "late-legacy-block" false)
  rejectIf (consensusParams.fAllowLegacyBlocks && block.isAuxpow)
    (dos 100 "early-auxpow-block" false)
  let nBits ← orFault (Pow.getNextWorkRequired T pindexPrev block consensusParams)
  rejectIf (block.nBits != nBits) (dos 100 "bad-diffbits" false)
  match pindexPrev with
  | none => .error (.fault .indexOutOfRange)
  | some p => do
    rejectIf (block.getBlockTime ≤ getMedianTimePast T p) (invalid REJECT_INVALID "time-too-old")
    rejectIf (block.getBlockTime > nAdjustedTime + 2 * 60 * 60)
      (invalid REJECT_INVALID "time-too-new")
    rejectIf (getBaseVersion block.nVersion < 3 && nHeight ≥ consensusParams.BIP66Height)
      (invalid REJECT_OBSOLETE (badVersion (getBaseVersion block.nVersion)))
    rejectIf (getBaseVersion block.nVersion < 4 &&
        isSuperMajority T 4 pindexPrev consensusParams.nMajorityRejectBlockOutdated
          consensusParams)
      (invalid REJECT_OBSOLETE "bad-version")

variable {net T}

theorem contextualCheckBlockHeader_rolled {block block' : CPureBlockHeader} {pindexPrev : Ptr}
    {nAdjustedTime nAdjustedTime' : ℤ} (hversion : block'.nVersion = block.nVersion)
    (hbits : block'.nBits = block.nBits) (hle : block.getBlockTime ≤ block'.getBlockTime)
    (hnew : block'.getBlockTime ≤ nAdjustedTime' + 2 * 60 * 60)
    (h : contextualCheckBlockHeader net T block (some pindexPrev) nAdjustedTime = .ok ()) :
    contextualCheckBlockHeader net T block' (some pindexPrev) nAdjustedTime' = .ok () ↔
      (Pow.LateRule (T.index pindexPrev) (net.getConsensus (heightAfter T (some pindexPrev))) →
        ¬ Pow.IsLate (T.index pindexPrev) block
          (net.getConsensus (heightAfter T (some pindexPrev))) →
        Pow.IsLate (T.index pindexPrev) block'
          (net.getConsensus (heightAfter T (some pindexPrev))) →
        block.nBits = ArithUint256.getCompact
          (net.getConsensus (heightAfter T (some pindexPrev))).powLimit) := by
  have hlegacy : block'.isLegacy = block.isLegacy := by
    simp only [CPureBlockHeader.isLegacy, CPureBlockHeader.getChainId, hversion]
  have hauxpow : block'.isAuxpow = block.isAuxpow := by
    simp only [CPureBlockHeader.isAuxpow, hversion]
  simp only [contextualCheckBlockHeader, dos, invalid, bind_eq_ok, orFault_eq_ok, rejectIf_eq_ok,
    exists_const, bne_eq_false_iff_eq, decide_eq_false_iff_not, hversion, hlegacy, hauxpow,
    hbits] at h ⊢
  obtain ⟨hearly, hlate, nBits, hwork, rfl, hold, -, hobsolete, hmajority⟩ := h
  rw [← Pow.getNextWorkRequired_rolled hle hwork]
  constructor
  · rintro ⟨-, -, nBits, hwork', hbits', -⟩
    rw [hbits', hwork']
  · intro hwork'
    exact ⟨hearly, hlate, _, hwork', rfl, by omega, by omega, hobsolete, hmajority⟩

end

def LOCKTIME_THRESHOLD : ℕ := 500000000

def CTxIn.SEQUENCE_FINAL : UInt32 := 0xffffffff

def isFinalTx (tx : CTransaction) (nBlockHeight nBlockTime : ℤ) : Bool :=
  tx.nLockTime == 0 ||
    decide ((tx.nLockTime.toNat : ℤ) <
      if tx.nLockTime.toNat < LOCKTIME_THRESHOLD then nBlockHeight else nBlockTime) ||
    tx.vin.all fun txin => txin.nSequence == CTxIn.SEQUENCE_FINAL

theorem isFinalTx_mono {tx : CTransaction} {nBlockHeight t t' : ℤ} (hle : t ≤ t')
    (h : isFinalTx tx nBlockHeight t = true) : isFinalTx tx nBlockHeight t' = true := by
  unfold isFinalTx at h ⊢
  rw [Bool.or_eq_true, Bool.or_eq_true, decide_eq_true_eq] at h ⊢
  refine Or.imp_left (Or.imp_right fun hlt => ?_) h
  split_ifs at hlt ⊢ <;> omega

section

variable (hash : Bytes → uint256) (hashPair : uint256 → uint256 → uint256)

/-- Always off in this chain. -/
def isWitnessEnabled {Ptr : Type} (_pindexPrev : Option Ptr) (_params : Params) : Bool := false

/-- The input of the coinbase, which the source reads without a check. -/
def coinbaseInput (block : CBlock) : Except Fault CTxIn :=
  match block.vtx with
  | [] => .error .indexOutOfRange
  | coinbase :: _ =>
    match coinbase.vin with
    | [] => .error .indexOutOfRange
    | txin :: _ => .ok txin

def isWitnessCommitment (script : CScript) : Bool :=
  script.length ≥ 38 && script.take 6 == [CScript.OP_RETURN, 0x24, 0xaa, 0x21, 0xa9, 0xed]

def getWitnessCommitmentIndex (block : CBlock) : Option ℕ :=
  match block.vtx with
  | [] => none
  | coinbase :: _ =>
    coinbase.vout.zipIdx.foldl (fun commitpos out =>
      if isWitnessCommitment out.1.scriptPubKey then some out.2 else commitpos) none

def CTransaction.getWitnessHash (tx : CTransaction) : uint256 :=
  if !tx.hasWitness then tx.getHash hash else hash (serializeTransaction true tx)

/-- The witness hash of the coinbase is zero. -/
def blockWitnessMerkleRoot (block : CBlock) : uint256 × Bool :=
  Merkle.computeMerkleRoot hashPair
    (0 :: block.vtx.tail.map (CTransaction.getWitnessHash hash))

/-- The commitment to the witness data, if there is one, has to be right. -/
def checkWitnessCommitment (block : CBlock) : Except Failure Bool :=
  match getWitnessCommitmentIndex block with
  | none => return false
  | some commitpos => do
    let hashWitness := (blockWitnessMerkleRoot hash hashPair block).1
    let txin ← orFault (coinbaseInput block)
    match txin.scriptWitness with
    | [nonce] => do
      rejectIf (nonce.length != 32) (dos 100 "bad-witness-nonce-size" true)
      let hashWitness := hash (writeUint256 hashWitness ++ nonce)
      let script := ((block.vtx.head?.bind (·.vout[commitpos]?)).map (·.scriptPubKey)).getD []
      rejectIf (writeUint256 hashWitness != (script.drop 6).take 32)
        (dos 100 "bad-witness-merkle-match" true)
      return true
    | _ => dos 100 "bad-witness-nonce-size" true

variable (getBlockSize : Bool → CBlock → ℕ) (net : Network)

def MAX_BLOCK_WEIGHT : ℕ := 4000000

/-- `GetBlockWeight`, given the size of a block without and with its witness data. -/
def getBlockWeight (block : CBlock) : ℕ :=
  getBlockSize false block * (WITNESS_SCALE_FACTOR - 1) + getBlockSize true block

/-- The last part of `ContextualCheckBlock`: witness data only under a commitment, and the weight. -/
def checkWitness (block : CBlock) (segwit : ThresholdState) : Except Failure Unit := do
  let fHaveWitness ←
    if segwit = .active then checkWitnessCommitment hash hashPair block else .ok false
  rejectIf (!fHaveWitness && block.vtx.any CTransaction.hasWitness)
    (dos 100 "unexpected-witness" true)
  rejectIf (getBlockWeight getBlockSize block > MAX_BLOCK_WEIGHT) (dos 100 "bad-blk-weight" false)

variable {Ptr : Type} [DecidableEq Ptr] (T : BlockTree Ptr)

/-- The time that lock times are compared with: the median time past once CSV is
active. -/
def lockTimeCutoff (block : CBlock) (pindexPrev : Option Ptr) (csv : ThresholdState) :
    Except Fault ℤ :=
  if csv = .active then
    match pindexPrev with
    | none => .error .indexOutOfRange
    | some p => .ok (getMedianTimePast T p)
  else .ok block.header.getBlockTime

/-- The first part of `ContextualCheckBlock`: all transactions are final, and the
coinbase starts with the height. -/
def checkFinality (block : CBlock) (pindexPrev : Option Ptr) (csv : ThresholdState) :
    Except Failure Unit := do
  let nHeight := heightAfter T pindexPrev
  let nLockTimeCutoff ← orFault (lockTimeCutoff T block pindexPrev csv)
  rejectIf (block.vtx.any fun tx => !isFinalTx tx nHeight nLockTimeCutoff)
    (dos 10 "bad-txns-nonfinal" false)
  if (nHeight : ℤ) ≥ (net.getConsensus nHeight).BIP34Height then
    let txin ← orFault (coinbaseInput block)
    rejectIf (!(CScript.pushInt64 (Int64.ofNat nHeight)).isPrefixOf txin.scriptSig)
      (dos 100 "bad-cb-height" false)

/-- `ContextualCheckBlock`: its verdict, and the caches after it. -/
def contextualCheckBlock (block : CBlock) (pindexPrev : Option Ptr)
    (caches : VersionBitsCache Ptr) : Except Failure Unit × VersionBitsCache Ptr :=
  let params := net.getConsensus (heightAfter T pindexPrev)
  match versionBitsState T pindexPrev params .csv caches with
  | .error f => (.error (.fault f), caches)
  | .ok (csv, caches) =>
    match checkFinality net T block pindexPrev csv with
    | .error e => (.error e, caches)
    | .ok () =>
      match versionBitsState T pindexPrev params .segwit caches with
      | .error f => (.error (.fault f), caches)
      | .ok (segwit, caches) =>
        (checkWitness hash hashPair getBlockSize block segwit, caches)

variable {hash hashPair getBlockSize net T}

theorem contextualCheckBlock_eq_ok {pindexPrev : Option Ptr}
    {caches : VersionBitsCache Ptr} (hreached : CachesReached net T caches) :
    (contextualCheckBlock hash hashPair getBlockSize net T block pindexPrev caches).1 = .ok u ↔
      ∃ csv segwit, deploymentState net T .csv pindexPrev = .ok csv ∧
        checkFinality net T block pindexPrev csv = .ok () ∧
        deploymentState net T .segwit pindexPrev = .ok segwit ∧
        checkWitness hash hashPair getBlockSize block segwit = .ok () := by
  obtain ⟨csv, caches₁, hcsv, hfirst, hreached₁⟩ :=
    versionBitsState_spec hreached .csv pindexPrev (heightAfter T pindexPrev)
  obtain ⟨segwit, caches₂, hsegwit, hsecond, -⟩ :=
    versionBitsState_spec hreached₁ .segwit pindexPrev (heightAfter T pindexPrev)
  simp only [contextualCheckBlock, hfirst, hcsv, hsegwit, Except.ok.injEq, exists_eq_left',
    exists_and_left]
  split
  · rename_i e hfinal
    simp [hfinal]
  · rename_i hfinal
    simp [hfinal, hsecond]

theorem hasWitness_of_checkWitness {segwit : ThresholdState}
    (hsegwit : segwit ≠ .active) (h : checkWitness hash hashPair getBlockSize block segwit = .ok u) :
    ∀ tx ∈ block.vtx, tx.hasWitness = false := by
  simp only [checkWitness, if_neg hsegwit, ok_bind, dos, bind_eq_ok, rejectIf_eq_ok,
    exists_const, Bool.not_false, Bool.true_and] at h
  intro tx htx
  exact Bool.eq_false_iff.2 (List.any_eq_false.1 h.1 tx htx)

end

end Coinyecoin
