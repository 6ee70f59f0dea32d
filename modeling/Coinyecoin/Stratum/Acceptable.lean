import Coinyecoin.Coins.CacheStack
import Coinyecoin.Stratum.Candidate
import Coinyecoin.Validation.SegWit
import Coinyecoin.Validation.TestBlock

/-!
# Acceptable candidates

The template of a job was tested on the tip. The candidate that `HandleSubmit` makes
of it has another coinbase script, payout, time, nonce and merkle root, and is not
tested before the work is handed out.

Most checks carry over: the coinbase is well formed and keeps the values and the lock
time of the template, and a later time keeps transactions final. What can go wrong is
listed by `candidate_acceptable_iff`: the minimum-difficulty rule may ask for other
work at the rolled time, the payout script may take the block over the limits, and
the merkle tree may have equal siblings.
-/

namespace Coinyecoin

namespace Stratum

open Foundation Consensus List

variable {D : Type} {senv : StratumEnv D} {job : StratumJob} {payoutScript : CScript}

def announcedBlock (job : StratumJob) (payoutScript : CScript) : CBlock :=
  ⟨job.tmpl.header, coinbaseTx job payoutScript EXTRANONCE_MAGIC :: job.tmpl.txs⟩

def sigOpsCost (vtx : List CTransaction) : ℕ :=
  (vtx.map CTransaction.getLegacySigOpCount).sum * WITNESS_SCALE_FACTOR

/-- The time does not change the work required: unless the template was late already,
a late candidate under the minimum-difficulty rule has to have the least work. -/
def KeepsWork {Ptr : Type} (T : BlockTree Ptr) (tip : Ptr) (params : Params) (job : StratumJob)
    (nTime : UInt32) : Prop :=
  Pow.LateRule (T.index tip) params → ¬ Pow.IsLate (T.index tip) job.tmpl.header params →
    Pow.IsLate (T.index tip) { job.tmpl.header with nTime := nTime } params →
      job.nBits = ArithUint256.getCompact params.powLimit

section

variable {extranonce : Bytes}

theorem length_serialize_coinbaseTx (hlen : extranonce.length = 8) {fAllowWitness : Bool} :
    (serializeTransaction fAllowWitness (coinbaseTx job payoutScript extranonce)).length =
      (serializeTransaction false (coinbaseTx job payoutScript EXTRANONCE_MAGIC)).length := by
  have hformat (e : Bytes) (fAllow : Bool) :
      serializeTransaction fAllow (coinbaseTx job payoutScript e) =
        serializeTransaction true (coinbaseTx job payoutScript e) := by
    rw [serializeTransaction_of_not_hasWitness (hasWitness_coinbaseTx job payoutScript e),
      serializeTransaction_of_not_hasWitness (hasWitness_coinbaseTx job payoutScript e)]
  rw [hformat, hformat _ false, serialize_coinbaseTx hlen, serialize_coinbaseTx (by decide)]
  simp only [length_append, hlen]
  rfl

theorem getLegacySigOpCount_coinbaseTx (hlen : extranonce.length = 8) :
    (coinbaseTx job payoutScript extranonce).getLegacySigOpCount =
      ((coinbaseOutputs job payoutScript).map fun txout =>
        CScript.getSigOpCount txout.scriptPubKey false).sum := by
  have htag : (extranonce ++ COINBASE_TAG).length < 76 := by
    rw [length_append, hlen]
    decide
  have hscript : CScript.getSigOpCount (coinbaseScript job extranonce) false = 0 :=
    CScript.getSigOpCount_pushes (CScript.isPush_pushInt64 (toInt_natAbs_lt job.nHeight))
      (CScript.isPush_pushData htag) false
  simp [CTransaction.getLegacySigOpCount, coinbaseTx, hscript]

theorem checkOutputValues_coinbaseOutputs (nValueOut : ℤ) :
    checkOutputValues nValueOut (coinbaseOutputs job payoutScript) =
      checkOutputValues nValueOut job.tmpl.coinbase.vout := by
  unfold coinbaseOutputs
  cases job.tmpl.coinbase.vout <;> rfl

theorem coinbaseOutputs_isEmpty :
    (coinbaseOutputs job payoutScript).isEmpty = job.tmpl.coinbase.vout.isEmpty := by
  unfold coinbaseOutputs
  cases job.tmpl.coinbase.vout <;> rfl

theorem checkTransaction_coinbaseTx {env : CheckEnv} (hlen : extranonce.length = 8)
    (htmpl : checkTransaction env job.tmpl.coinbase true = .ok ())
    (hsize : env.getSerializeSize (coinbaseTx job payoutScript extranonce) ≤ MAX_BLOCK_BASE_SIZE) :
    checkTransaction env (coinbaseTx job payoutScript extranonce) true = .ok () := by
  have hheight := CScript.length_pushInt64 (toInt_natAbs_lt job.nHeight)
  have hscript : (coinbaseScript job extranonce).length =
      (CScript.pushInt64 job.nHeight.toInt64).length + 21 := length_coinbaseScript hlen
  simp only [checkTransaction, dos, bind_eq_ok, rejectIf_eq_ok, exists_const] at htmpl ⊢
  obtain ⟨-, hvout, -, u, hvalues, -⟩ := htmpl
  refine ⟨rfl, ?_, ?_, u, ?_, ?_, ?_⟩
  · exact coinbaseOutputs_isEmpty.trans hvout
  · simpa using hsize
  · exact (checkOutputValues_coinbaseOutputs 0).trans hvalues
  · simp [coinbaseTx]
  · have hcb : (coinbaseTx job payoutScript extranonce).isCoinBase = true := rfl
    have hshort : 1 < (coinbaseScript job extranonce).length := by omega
    have hlong : ¬ 100 < (coinbaseScript job extranonce).length := by omega
    rw [if_pos hcb, rejectIf_eq_ok]
    simp [coinbaseTx, hshort, hlong]

theorem isFinalTx_coinbaseTx (hcb : job.tmpl.coinbase.isCoinBase = true) (nHeight t : ℤ) :
    isFinalTx (coinbaseTx job payoutScript extranonce) nHeight t =
      isFinalTx job.tmpl.coinbase nHeight t := by
  unfold CTransaction.isCoinBase at hcb
  split at hcb
  · rename_i txin hvin
    have hseq : job.tmpl.nSequence = txin.nSequence := by simp [CBlockTemplate.nSequence, hvin]
    simp [isFinalTx, coinbaseTx, hvin, hseq]
  · cases hcb

variable {nTime nNonce : UInt32} {pow : CBlock → Bool}

theorem candidateBlock_vtx (cbTx : CTransaction) :
    (candidateBlock senv job cbTx nTime nNonce).vtx = cbTx :: job.tmpl.txs := rfl

theorem blockSize_candidate (senv : StratumEnv D) (job : StratumJob) (payoutScript : CScript)
    (hlen : extranonce.length = 8) (nTime nNonce : UInt32) :
    blockSize false (candidateBlock senv job (coinbaseTx job payoutScript extranonce) nTime nNonce) =
      blockSize false (announcedBlock job payoutScript) := by
  rw [blockSize_eq, blockSize_eq, candidateBlock_vtx, announcedBlock]
  simp only [map_cons, sum_cons, length_cons, length_serialize_coinbaseTx hlen]

theorem sigOpsCost_candidate (job : StratumJob) (payoutScript : CScript)
    (hlen : extranonce.length = 8) :
    sigOpsCost (coinbaseTx job payoutScript extranonce :: job.tmpl.txs) =
      sigOpsCost (announcedBlock job payoutScript).vtx := by
  have hmagic : EXTRANONCE_MAGIC.length = 8 := by decide
  simp only [sigOpsCost, announcedBlock, map_cons, sum_cons,
    getLegacySigOpCount_coinbaseTx hlen, getLegacySigOpCount_coinbaseTx hmagic]

theorem checkBlock_candidate (hlen : extranonce.length = 8)
    (htmpl : checkBlock (blockChecks senv.hash senv.hashPair pow) job.tmpl.block false false =
      .ok ()) :
    checkBlock (blockChecks senv.hash senv.hashPair pow)
        (candidateBlock senv job (coinbaseTx job payoutScript extranonce) nTime nNonce) false true =
          .ok () ↔
      blockSize false (announcedBlock job payoutScript) ≤ MAX_BLOCK_BASE_SIZE ∧
        (sigOpsCost (announcedBlock job payoutScript).vtx : ℤ) ≤ MAX_BLOCK_SIGOPS_COST ∧
        MerkleTree.SiblingsDiffer senv.hashPair
          ((coinbaseTx job payoutScript extranonce :: job.tmpl.txs).map
            (CTransaction.getHash senv.hash)) := by
  obtain ⟨-, -, ⟨hcount, -⟩, ⟨cb, rest, hvtx, -, hrest⟩, htxs, -⟩ := checkBlock_eq_ok.1 htmpl
  obtain ⟨rfl, rfl⟩ := List.cons.inj hvtx
  have hsize := blockSize_candidate senv job payoutScript hlen nTime nNonce
  have hsigops := sigOpsCost_candidate job payoutScript hlen
  have hmutated := Merkle.computeMerkleRoot_mutated senv.hashPair
    ((coinbaseTx job payoutScript extranonce :: job.tmpl.txs).map (CTransaction.getHash senv.hash))
  rw [checkBlock_eq_ok, ← hsize, ← hsigops, ← hmutated]
  constructor
  · rintro ⟨-, hroot, ⟨-, hfits⟩, -, -, hcost⟩
    exact ⟨hfits, hcost, (hroot rfl).2⟩
  · rintro ⟨hfits, hcost, hflag⟩
    refine ⟨(fun h => nomatch h), fun _ => ⟨rfl, hflag⟩, ⟨hcount, hfits⟩,
      ⟨_, _, rfl, rfl, hrest⟩, forall_mem_cons.2 ⟨?_, ?_⟩, hcost⟩
    · refine checkTransaction_coinbaseTx hlen (htxs _ mem_cons_self) (le_trans ?_ hfits)
      change (serializeTransaction false _).length ≤ blockSize false _
      rw [blockSize_eq, candidateBlock_vtx, map_cons, sum_cons]
      omega
    · exact fun tx htx => htxs tx (mem_cons_of_mem _ htx)

variable {Ptr : Type} {T : BlockTree Ptr} {net : Network} {tip : Ptr}

theorem contextualCheckBlockHeader_candidate {nTestTime nAdjustedTime : ℤ}
    (hjob : job.FromTemplate senv) (cbTx : CTransaction)
    (htime : job.tmpl.header.getBlockTime ≤ nTime.toNat)
    (hnew : (nTime.toNat : ℤ) ≤ nAdjustedTime + 2 * 60 * 60)
    (htmpl : contextualCheckBlockHeader net T job.tmpl.header (some tip) nTestTime = .ok ()) :
    contextualCheckBlockHeader net T (candidateBlock senv job cbTx nTime nNonce).header (some tip)
        nAdjustedTime = .ok () ↔
      KeepsWork T tip (net.getConsensus ((T.index tip).nHeight + 1)) job nTime := by
  have hversion : (candidateBlock senv job cbTx nTime nNonce).header.nVersion =
      job.tmpl.header.nVersion := hjob.nVersion
  rw [contextualCheckBlockHeader_rolled hversion rfl htime hnew htmpl, KeepsWork, hjob.nBits]
  rfl

theorem ofNat_heightAfter (hheight : job.nHeight.toInt = (T.index tip).nHeight + 1) :
    Int64.ofNat (heightAfter T (some tip)) = job.nHeight.toInt64 := by
  have hlt := job.nHeight.toInt_lt
  rw [← Int64.toInt_inj, Int32.toInt_toInt64, hheight, Int64.toInt_ofNat_of_lt]
  · simp [heightAfter]
  · simp only [heightAfter]
    omega

theorem checkFinality_candidate {csv : ThresholdState} (hcb : job.tmpl.coinbase.isCoinBase = true)
    (htime : job.tmpl.header.getBlockTime ≤ nTime.toNat)
    (hheight : job.nHeight.toInt = (T.index tip).nHeight + 1)
    (htmpl : checkFinality net T job.tmpl.block (some tip) csv = .ok ()) :
    checkFinality net T
      (candidateBlock senv job (coinbaseTx job payoutScript extranonce) nTime nNonce) (some tip)
        csv = .ok () := by
  simp only [checkFinality, dos, bind_eq_ok, orFault_eq_ok, rejectIf_eq_ok, exists_const]
    at htmpl ⊢
  obtain ⟨cutoff, hcutoff, hfinal, -⟩ := htmpl
  have hlater : ∃ cutoff', lockTimeCutoff T
      (candidateBlock senv job (coinbaseTx job payoutScript extranonce) nTime nNonce) (some tip)
        csv = .ok cutoff' ∧ cutoff ≤ cutoff' := by
    unfold lockTimeCutoff at hcutoff ⊢
    split_ifs at hcutoff ⊢
    · exact ⟨cutoff, hcutoff, le_rfl⟩
    · cases hcutoff
      exact ⟨_, rfl, htime⟩
  obtain ⟨cutoff', hcutoff', hle⟩ := hlater
  have hfinal' : ∀ tx ∈ job.tmpl.block.vtx,
      isFinalTx tx (heightAfter T (some tip)) cutoff' = true := by
    intro tx htx
    have h := any_eq_false.1 hfinal tx htx
    exact isFinalTx_mono hle (by simpa using h)
  obtain ⟨hfirst, hothers⟩ := forall_mem_cons.1 hfinal'
  refine ⟨cutoff', hcutoff', ?_, ?_⟩
  · rw [candidateBlock_vtx, any_eq_false, forall_mem_cons, isFinalTx_coinbaseTx hcb, hfirst]
    exact ⟨by decide, fun tx htx => by simp [hothers tx htx]⟩
  · split_ifs
    · refine bind_eq_ok.2 ⟨_, rfl, ?_⟩
      rw [rejectIf_eq_ok, ofNat_heightAfter hheight, Bool.not_eq_false', isPrefixOf_iff_prefix]
      exact prefix_append _ _
    · rfl

theorem checkWitness_candidate {segwit : ThresholdState} (hlen : extranonce.length = 8)
    (hsegwit : segwit ≠ .active) (htmpl : ∀ tx ∈ job.tmpl.txs, tx.hasWitness = false)
    (hsize : blockSize false (announcedBlock job payoutScript) ≤ MAX_BLOCK_BASE_SIZE) :
    checkWitness senv.hash senv.hashPair blockSize
      (candidateBlock senv job (coinbaseTx job payoutScript extranonce) nTime nNonce) segwit =
        .ok () := by
  have hwitness : ∀ tx ∈ (candidateBlock senv job (coinbaseTx job payoutScript extranonce) nTime
      nNonce).vtx, tx.hasWitness = false :=
    forall_mem_cons.2 ⟨hasWitness_coinbaseTx job payoutScript extranonce, htmpl⟩
  simp only [checkWitness, if_neg hsegwit, ok_bind, dos, bind_eq_ok, rejectIf_eq_ok, exists_const,
    decide_eq_false_iff_not, not_lt, getBlockWeight, blockSize_true hwitness,
    blockSize_candidate senv job payoutScript hlen]
  constructor
  · rw [Bool.not_false, Bool.true_and, any_eq_false]
    exact fun tx htx => by simp [hwitness tx htx]
  · have hlimit : MAX_BLOCK_BASE_SIZE * 4 = MAX_BLOCK_WEIGHT := rfl
    have hfactor : WITNESS_SCALE_FACTOR - 1 = 3 := rfl
    rw [hfactor]
    omega

end

/-- The candidate of a job whose template passed `TestBlockValidity` on the tip, with any
payout script, extranonce and time that `HandleSubmit` lets through, passes its checks
on that tip exactly if the time keeps the work, the announced block is within the
limits of size and signature operations, and the merkle tree has no equal siblings. -/
theorem candidate_acceptable_iff {D : Type} (senv : StratumEnv D) (env : ConnectEnv)
    (pow : CBlock → Bool) (henv : env.toCheckEnv = blockChecks senv.hash senv.hashPair pow)
    {Ptr : Type} [DecidableEq Ptr] (T : BlockTree Ptr) (tip : Ptr)
    (hheaders : HeadersChecked senv.hash senv.hashPair senv.getPoWHash env.network T)
    (caches caches' : VersionBitsCache Ptr) (hcaches : CachesReached env.network T caches)
    (hcaches' : CachesReached env.network T caches')
    (job : StratumJob) (hjob : job.FromTemplate senv)
    (hheight : job.nHeight.toInt = (T.index tip).nHeight + 1)
    {B : CCoinsView} (view : ViewStack B) (hashPrev : uint256) (hashBIP34 : Option uint256)
    (nTestTime : ℤ)
    (htest : testBlockValidity env senv.hash senv.hashPair T job.tmpl.block tip hashPrev hashBIP34
      nTestTime caches view false false = .ok ())
    (client : StratumClient D) (vchEn2 : Bytes) (hlen : vchEn2.length = 4) (cbTx : CTransaction)
    (hrebuild : rebuildCoinbase job client vchEn2 = .ok cbTx)
    (clock : Clock) (nTime nNonce : UInt32)
    (hrange : ¬ (nTime < job.nTime ∨ (nTime.toNat : ℤ) > clock.getAdjustedTime + 2 * 60 * 60))
    (nAdjustedTime : ℤ) (hclock : clock.getAdjustedTime ≤ nAdjustedTime) :
    (checkBlock env.toCheckEnv (candidateBlock senv job cbTx nTime nNonce) false true = .ok () ∧
      contextualCheckBlockHeader env.network T
        (candidateBlock senv job cbTx nTime nNonce).header (some tip) nAdjustedTime = .ok () ∧
      (contextualCheckBlock senv.hash senv.hashPair blockSize env.network T
        (candidateBlock senv job cbTx nTime nNonce) (some tip) caches').1 = .ok ()) ↔
      KeepsWork T tip (env.network.getConsensus ((T.index tip).nHeight + 1)) job nTime ∧
        blockSize false (announcedBlock job client.payoutScript) ≤ MAX_BLOCK_BASE_SIZE ∧
        (sigOpsCost (announcedBlock job client.payoutScript).vtx : ℤ) ≤ MAX_BLOCK_SIGOPS_COST ∧
        MerkleTree.SiblingsDiffer senv.hashPair
          ((cbTx :: job.tmpl.txs).map (CTransaction.getHash senv.hash)) := by
  have hextra := length_extraNonces client.nExtraNonce1 hlen
  obtain ⟨rfl, -⟩ := rebuildCoinbase_eq_ok hlen hrebuild
  obtain ⟨hold, hnew⟩ := not_or.1 hrange
  obtain ⟨hheader, hcheck, hcontext⟩ := testBlockValidity_eq_ok htest
  obtain ⟨csv, segwit, hcsv, hfinal, hsegwit, hwitness⟩ :=
    (contextualCheckBlock_eq_ok hcaches).1 hcontext
  have hdormant := (segwit_dormant hheaders hsegwit).ne_active
  obtain ⟨-, hnone⟩ := forall_mem_cons.1 (hasWitness_of_checkWitness hdormant hwitness)
  have htime : job.tmpl.header.getBlockTime ≤ (nTime.toNat : ℤ) := by
    rw [hjob.nTime, UInt32.not_lt, UInt32.le_iff_toNat_le] at hold
    exact Int.ofNat_le.2 hold
  have hcb : job.tmpl.coinbase.isCoinBase = true := by
    obtain ⟨-, -, -, ⟨cb, rest, hvtx, hcb, -⟩, -⟩ := checkBlock_eq_ok.1 hcheck
    obtain ⟨rfl, rfl⟩ := List.cons.inj hvtx
    exact hcb
  rw [henv] at hcheck ⊢
  rw [checkBlock_candidate hextra hcheck,
    contextualCheckBlockHeader_candidate hjob _ htime (by omega) hheader,
    contextualCheckBlock_eq_ok hcaches']
  constructor
  · rintro ⟨⟨hsize, hsigops, hsiblings⟩, hwork, -⟩
    exact ⟨hwork, hsize, hsigops, hsiblings⟩
  · rintro ⟨hwork, hsize, hsigops, hsiblings⟩
    exact ⟨⟨hsize, hsigops, hsiblings⟩, hwork, csv, segwit, hcsv,
      checkFinality_candidate hcb htime hheight hfinal, hsegwit,
      checkWitness_candidate hextra hdormant hnone hsize⟩

def testnetEnv : ConnectEnv :=
  { blockChecks sampleEnv.hash sampleEnv.hashPair fun _ => true with
    network := .test
    getBlockHash := fun block => block.header.getHash sampleHash
    hashGenesisBlock := 7
    blockHeight := fun _ => some 0
    scriptCheck := fun _ _ _ => true
    getTransactionSigOpCost := fun _ _ => 0
    sequenceLocks := fun _ _ => true }

def genesisTip : BlockTree Unit where
  index _ := ⟨none, none, 0, 1, 1388906266, 0x1e0ffff0⟩
  height_genesis _ _ := rfl
  height_child _ _ h := nomatch h
  skip_ancestor _ _ h := nomatch h

def genesisJob : StratumJob :=
  jobOfTemplate sampleEnv
    { header := ⟨4, 7, 0, 1388906326, 0x1e0ffff0, 0⟩
      coinbase := sampleCoinbase
      txs := []
      vin_ne_nil := sampleTemplate.vin_ne_nil } 0 1

def payoutClient : StratumClient Unit :=
  { StratumClient.new sampleEnv 1 0 with
    payoutScript := [0x76, 0xa9, 0x14] ++ List.replicate 20 0 ++ [0x88, 0xac] }

def genesisView : ViewStack coinsMapView :=
  ViewStack.start (B := coinsMapView) { CoinsMap.empty with hashBestBlock := 7 } 0

theorem genesisJob_tested :
    testBlockValidity testnetEnv sampleEnv.hash sampleEnv.hashPair genesisTip
      genesisJob.tmpl.block () 7 none 1388906326 (fun _ _ => none) genesisView false false =
        .ok () := by
  decide +kernel

/-- With a time that is not late the candidate passes. -/
theorem candidate_acceptable_iff_sample :
    ∃ cbTx, rebuildCoinbase genesisJob payoutClient [0, 0, 0, 10] = .ok cbTx ∧
      checkBlock testnetEnv.toCheckEnv (candidateBlock sampleEnv genesisJob cbTx 1388906337 0) false
        true = .ok () ∧
      contextualCheckBlockHeader testnetEnv.network genesisTip
        (candidateBlock sampleEnv genesisJob cbTx 1388906337 0).header (some ()) 1388906337 =
          .ok () ∧
      (contextualCheckBlock sampleEnv.hash sampleEnv.hashPair blockSize testnetEnv.network genesisTip
        (candidateBlock sampleEnv genesisJob cbTx 1388906337 0) (some ()) fun _ _ => none).1 =
          .ok () := by
  have hrebuild : rebuildCoinbase genesisJob payoutClient [0, 0, 0, 10] =
      .ok (coinbaseTx genesisJob payoutClient.payoutScript [0, 0, 0, 1, 0, 0, 0, 10]) := by
    decide +kernel
  refine ⟨_, hrebuild, ?_⟩
  rw [candidate_acceptable_iff sampleEnv testnetEnv (fun _ => true) rfl genesisTip ()
    (fun _ _ h => nomatch h) _ _ .clear .clear genesisJob ⟨rfl, rfl, rfl, rfl, rfl⟩ rfl genesisView
    7 none 1388906326 genesisJob_tested payoutClient _ rfl _ hrebuild ⟨1388906337, 1388906337⟩ _ 0
    (by decide) 1388906337 (by decide)]
  have hintime : ¬ Pow.IsLate (genesisTip.index ()) ⟨4, 7, 0, 1388906337, 0x1e0ffff0, 0⟩
      (testnetEnv.network.getConsensus 1) := by
    unfold Pow.IsLate
    decide +kernel
  refine ⟨fun _ _ hlate => absurd hlate hintime, by decide +kernel, by decide +kernel, ?_⟩
  exact (Merkle.computeMerkleRoot_mutated _ _).1 rfl

/-- Rolled past three minutes after the tip, the time of the candidate asks for the
least work, and the candidate is rejected. -/
theorem candidate_rolled_rejected :
    testBlockValidity testnetEnv sampleEnv.hash sampleEnv.hashPair genesisTip
        genesisJob.tmpl.block () 7 none 1388906326 (fun _ _ => none) genesisView false false =
          .ok () ∧
      (((checkShare sampleEnv ⟨1388906447, 1388906447⟩ genesisJob payoutClient [0, 0, 0, 10]
        1388906447 0).toOption.bind Share.candidate).map fun block =>
          contextualCheckBlockHeader .test genesisTip block.header (some ()) 1388906447) =
        some (dos 100 "bad-diffbits" false) := by
  refine ⟨genesisJob_tested, ?_⟩
  decide +kernel

end Stratum

end Coinyecoin
