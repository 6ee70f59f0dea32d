import Coinyecoin.Stratum.Candidate

/-!
# The coinbase of a client

`BuildCoinbaseParts` finds the place of the extranonces by searching the serialized
coinbase for a marker, and `HandleSubmit` puts the pieces together again and parses
them. The marker is found in the input script whatever the height, the outputs and
the payout script are, and what is parsed is the coinbase with the extranonces in
place of the marker. The parser takes up to `MAX_SIZE` outputs and scripts of up to
`MAX_SIZE` bytes, which the serializer does not ask for.
-/

namespace Coinyecoin

namespace Stratum

open Foundation List

variable {job : StratumJob} {payoutScript : CScript}

section

variable (job)

/-- The bytes of the coinbase before the input script: the version, the number of
inputs, the prevout and the length of the script. -/
def beforeScript : Bytes :=
  writeInt32 job.tmpl.coinbase.nVersion ++ (writeCompactSize 1 ++ (writeUint256 0 ++
    (writeUInt32 0xffffffff ++
      writeCompactSize (coinbaseScript job EXTRANONCE_MAGIC).length)))

variable {job}

theorem coinb1_eq : coinb1 job =
    beforeScript job ++ (CScript.pushInt64 job.nHeight.toInt64 ++ [20]) := by
  simp only [coinb1, beforeScript, append_assoc]

theorem exists_afterScript {job : StratumJob} {payoutScript : CScript} :
    ∃ after, serializeTransaction true (coinbaseTx job payoutScript EXTRANONCE_MAGIC) =
      beforeScript job ++ (coinbaseScript job EXTRANONCE_MAGIC ++ after) := by
  have hlen : EXTRANONCE_MAGIC.length = 8 := by decide
  refine ⟨writeUInt32 job.tmpl.nSequence ++ (writeVector writeTxOut
    (coinbaseOutputs job payoutScript) ++ writeUInt32 job.tmpl.coinbase.nLockTime), ?_⟩
  rw [serialize_coinbaseTx hlen, coinb1_eq, coinbaseScript_eq hlen, coinb2]
  simp only [append_assoc, cons_append, nil_append]

theorem findMagic_coinbaseTx {job : StratumJob} {payoutScript : CScript} :
    findMagic (serializeTransaction true (coinbaseTx job payoutScript EXTRANONCE_MAGIC)) =
      some ((beforeScript job).length + ((CScript.pushInt64 job.nHeight.toInt64).length + 1)) := by
  rw [serialize_coinbaseTx (by decide), findMagic_coinb1, coinb1_eq]
  simp only [length_append, length_singleton]

end

/-- The outputs are not more, and their scripts not longer, than the parser takes. -/
structure OutputsWithinLimits (job : StratumJob) (payoutScript : CScript) : Prop where
  length : (coinbaseOutputs job payoutScript).length ≤ MAX_SIZE
  scripts : ∀ txout ∈ coinbaseOutputs job payoutScript, txout.scriptPubKey.length ≤ MAX_SIZE

theorem withinLimits_coinbaseTx (h : OutputsWithinLimits job payoutScript) {extranonce : Bytes}
    (hlen : extranonce.length = 8) : (coinbaseTx job payoutScript extranonce).WithinLimits where
  vin := Nat.le_of_lt (by decide : 1 < MAX_SIZE)
  vout := h.length
  scriptSig := by
    intro txin hmem
    rw [mem_singleton.1 hmem]
    have hheight := CScript.length_pushInt64 (toInt_natAbs_lt job.nHeight)
    have hscript := @length_coinbaseScript job _ hlen
    have hlimit : 27 ≤ MAX_SIZE := by decide
    dsimp only
    omega
  scriptPubKey := h.scripts

theorem refuses_long_payoutScript (hout : job.tmpl.coinbase.vout ≠ [])
    (hlong : MAX_SIZE < payoutScript.length) (extranonce : Bytes) :
    Refuses (unserializeTransaction true)
      (serializeTransaction true (coinbaseTx job payoutScript extranonce)) := by
  obtain ⟨txout, vout, hvout⟩ := exists_cons_of_ne_nil hout
  have houtputs : coinbaseOutputs job payoutScript =
      { txout with scriptPubKey := payoutScript } :: vout := by
    rw [coinbaseOutputs, hvout]
  have hfirst : Refuses readTxOut (writeTxOut { txout with scriptPubKey := payoutScript }) :=
    .bind_right (readInt64_write txout.nValue).inverts ((readBytes_refuses hlong).bind _)
  have hvector : Refuses (readVector readTxOut)
      (writeVector writeTxOut (coinbaseOutputs job payoutScript)) := by
    rw [houtputs, writeVector, flatMap_cons]
    exact .bind_right (readCompactSize_write _) ((hfirst.append _).bind _)
  rw [serializeTransaction_of_not_hasWitness (hasWitness_coinbaseTx job payoutScript extranonce)]
  refine .bind_right (readInt32_write _).inverts (.bind ?_ _)
  refine .bind_right (readInputs_write _) ?_
  exact (hvector.append _).bind _

section

theorem parts_around {vchCoinb1 vchCoinb2 extranonce1 extranonce2 : Bytes}
    (hparts : buildCoinbaseParts job payoutScript = some (vchCoinb1, vchCoinb2))
    (hlen1 : extranonce1.length = 4) (hlen2 : extranonce2.length = 4) :
    vchCoinb1 ++ extranonce1 ++ extranonce2 ++ vchCoinb2 =
      serializeTransaction true (coinbaseTx job payoutScript (extranonce1 ++ extranonce2)) := by
  have hlen : (extranonce1 ++ extranonce2).length = 8 := by
    rw [length_append, hlen1, hlen2]
  rw [buildCoinbaseParts_eq] at hparts
  split_ifs at hparts
  cases hparts
  rw [serialize_coinbaseTx hlen]
  simp only [append_assoc]

variable (hash : Bytes → uint256) (job : StratumJob) (payoutScript : CScript)
  (vchCoinb1 vchCoinb2 extranonce1 extranonce2 : Bytes)

/-- If the parts of a coinbase were built, then the first marker was the one in the
input script, and the parts with any extranonces in between are parsed, to the last
byte, as the coinbase with these extranonces; its id is the hash of those bytes. -/
theorem coinbase_parts_parsed
    (hparts : buildCoinbaseParts job payoutScript = some (vchCoinb1, vchCoinb2))
    (hlen1 : extranonce1.length = 4) (hlen2 : extranonce2.length = 4)
    (hlimits : OutputsWithinLimits job payoutScript) :
    (∃ after, serializeTransaction true (coinbaseTx job payoutScript EXTRANONCE_MAGIC) =
      beforeScript job ++ (coinbaseScript job EXTRANONCE_MAGIC ++ after)) ∧
    findMagic (serializeTransaction true (coinbaseTx job payoutScript EXTRANONCE_MAGIC)) =
      some ((beforeScript job).length + ((CScript.pushInt64 job.nHeight.toInt64).length + 1)) ∧
    ∃ tx, unserializeTransaction true (vchCoinb1 ++ extranonce1 ++ extranonce2 ++ vchCoinb2) =
        .ok (tx, []) ∧
      tx.vin = [{
        prevout := ⟨0, 0xffffffff⟩
        scriptSig := CScript.pushInt64 job.nHeight.toInt64 ++
          CScript.pushData (extranonce1 ++ extranonce2 ++ COINBASE_TAG)
        nSequence := job.tmpl.nSequence
        scriptWitness := [] }] ∧
      tx.vout = coinbaseOutputs job payoutScript ∧
      tx.nVersion = job.tmpl.coinbase.nVersion ∧ tx.nLockTime = job.tmpl.coinbase.nLockTime ∧
      tx.getHash hash = hash (vchCoinb1 ++ extranonce1 ++ extranonce2 ++ vchCoinb2) := by
  have hlen : (extranonce1 ++ extranonce2).length = 8 := by
    rw [length_append, hlen1, hlen2]
  have hread := unserializeTransaction_reads (by simp [coinbaseTx])
    (withinLimits_coinbaseTx hlimits hlen)
    (CTransaction.witnessWithinLimits_of_not_hasWitness (hasWitness_coinbaseTx job payoutScript _))
    []
  rw [parts_around hparts hlen1 hlen2]
  refine ⟨exists_afterScript, findMagic_coinbaseTx,
    coinbaseTx job payoutScript (extranonce1 ++ extranonce2), ?_, rfl, rfl, rfl, rfl, ?_⟩
  · rwa [append_nil] at hread
  · rw [getHash_coinbaseTx hash hlen, serialize_coinbaseTx hlen]

theorem long_payoutScript_refused {job : StratumJob} {payoutScript : CScript}
    (hout : job.tmpl.coinbase.vout ≠ []) (hlong : MAX_SIZE < payoutScript.length)
    {extranonce1 extranonce2 : Bytes} (hlen1 : extranonce1.length = 4)
    (hlen2 : extranonce2.length = 4) :
    ∃ vchCoinb1 vchCoinb2,
      buildCoinbaseParts job payoutScript = some (vchCoinb1, vchCoinb2) ∧
      ∀ out, unserializeTransaction true
        (vchCoinb1 ++ extranonce1 ++ extranonce2 ++ vchCoinb2) ≠ .ok out := by
  have hparts : buildCoinbaseParts job payoutScript =
      some (coinb1 job, coinb2 job payoutScript) := by
    rw [buildCoinbaseParts_eq, if_neg]
    obtain ⟨txout, vout, hvout⟩ := exists_cons_of_ne_nil hout
    simp [coinbaseOutputs, hvout]
  refine ⟨_, _, hparts, fun out => ?_⟩
  have hrefuses := refuses_long_payoutScript hout hlong (extranonce1 ++ extranonce2) [] out
  rw [append_nil] at hrefuses
  rwa [parts_around hparts hlen1 hlen2]

end

def sampleJob : StratumJob := { jobOfTemplate sampleEnv sampleTemplate 100 8 with id := str "1" }

theorem coinbase_parts_parsed_sample :
    ∃ vchCoinb1 vchCoinb2, buildCoinbaseParts sampleJob [0x51] = some (vchCoinb1, vchCoinb2) ∧
      ∃ tx, unserializeTransaction true
          (vchCoinb1 ++ [0, 0, 0, 1] ++ [0, 0, 0, 2] ++ vchCoinb2) = .ok (tx, []) ∧
        tx.vout = [⟨50, [0x51]⟩] := by
  have hparts : buildCoinbaseParts sampleJob [0x51] =
      some (coinb1 sampleJob, coinb2 sampleJob [0x51]) := by
    rw [buildCoinbaseParts_eq]
    rfl
  have hlimits : OutputsWithinLimits sampleJob [0x51] := ⟨by decide, by decide⟩
  obtain ⟨-, -, tx, hread, -, hvout, -⟩ := coinbase_parts_parsed sampleEnv.hash sampleJob [0x51] _ _
    [0, 0, 0, 1] [0, 0, 0, 2] hparts rfl rfl hlimits
  exact ⟨_, _, hparts, tx, hread, hvout⟩

/-- The parts for a payout script of more than 32 MiB. -/
theorem huge_payoutScript_not_parsed :
    ∃ vchCoinb1 vchCoinb2,
      buildCoinbaseParts sampleJob (List.replicate (MAX_SIZE + 1) 0) =
        some (vchCoinb1, vchCoinb2) ∧
      ∀ out, unserializeTransaction true
        (vchCoinb1 ++ [0, 0, 0, 1] ++ [0, 0, 0, 2] ++ vchCoinb2) ≠ .ok out := by
  have hlong : MAX_SIZE < (List.replicate (MAX_SIZE + 1) (0 : UInt8)).length := by
    rw [length_replicate]
    exact Nat.lt_succ_self _
  exact long_payoutScript_refused (cons_ne_nil _ _) hlong rfl rfl

end Stratum

end Coinyecoin
