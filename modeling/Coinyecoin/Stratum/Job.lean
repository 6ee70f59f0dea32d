import Coinyecoin.Mining.Template
import Coinyecoin.Util.StrEncodings

/-!
# Stratum jobs

A job keeps a block template and what the miners need of it. `ComputeMerkleSteps`
lists the hashes a miner folds the coinbase hash through. `BuildCoinbaseParts`
writes the coinbase of a client with a marker in place of the extranonces and
cuts the bytes around the marker.
-/

namespace Coinyecoin

namespace Stratum

open Foundation List MerkleTree

section

variable (hashPair : uint256 → uint256 → uint256)

/-- The loop of `ComputeMerkleSteps`; the first argument bounds its rounds. -/
def merkleStepsLoop : ℕ → List uint256 → List uint256
  | 0, _ => []
  | _, [] => []
  | fuel + 1, step :: vLevel =>
    let vLevel := if vLevel.length % 2 = 1 then vLevel ++ vLevel.getLast?.toList else vLevel
    step :: merkleStepsLoop fuel (MerkleTree.pairs hashPair vLevel)

def computeMerkleSteps (getHash : CTransaction → uint256) (block : CBlock) : List uint256 :=
  let vLevel := block.vtx.tail.map getHash
  merkleStepsLoop hashPair vLevel.length vLevel

def merkleRootFromSteps (cbHash : uint256) (vSteps : List uint256) : uint256 :=
  vSteps.foldl hashPair cbHash

theorem pairs_doubled (vLevel : List uint256) :
    pairs hashPair
        (if vLevel.length % 2 = 1 then vLevel ++ vLevel.getLast?.toList else vLevel) =
      pairUp hashPair vLevel := by
  rw [pairUp_eq]
  have hleft := leftover_eq vLevel
  split_ifs with hodd
  · rw [if_pos hodd] at hleft
    cases hlast : vLevel.getLast? with
    | none =>
      rw [getLast?_eq_none_iff.1 hlast] at hodd
      exact absurd hodd (by decide)
    | some last =>
      rw [hlast] at hleft
      rw [Option.toList_some, pairs_append, hleft]
      rfl
  · rw [if_neg hodd] at hleft
    simp [hleft]

theorem merkleStepsLoop_eq {fuel : ℕ} {vLevel : List uint256} (hfuel : vLevel.length ≤ fuel) :
    merkleStepsLoop hashPair fuel vLevel = steps hashPair vLevel := by
  induction fuel generalizing vLevel with
  | zero =>
    rw [length_eq_zero_iff.1 (Nat.le_zero.1 hfuel), steps_nil]
    rfl
  | succ fuel ih =>
    cases vLevel with
    | nil =>
      rw [steps_nil]
      rfl
    | cons step vLevel =>
      have hnext : (pairUp hashPair vLevel).length ≤ fuel := by
        rw [length_pairUp]
        rw [length_cons] at hfuel
        omega
      rw [merkleStepsLoop, pairs_doubled, ih hnext, steps_cons]

theorem merkleRootFromSteps_computeMerkleSteps (getHash : CTransaction → uint256)
    (template block : CBlock) (coinbase : CTransaction)
    (hvtx : block.vtx = coinbase :: template.vtx.tail) :
    merkleRootFromSteps hashPair (getHash coinbase)
        (computeMerkleSteps hashPair getHash template) =
      (Merkle.blockMerkleRoot hashPair getHash block).1 := by
  have hroot : some (Merkle.blockMerkleRoot hashPair getHash block).1 =
      root hashPair (block.vtx.map getHash) :=
    Merkle.computeMerkleRoot_root (by simp [hvtx])
  rw [hvtx, map_cons, root_cons, Option.some_inj] at hroot
  rw [hroot, merkleRootFromSteps, computeMerkleSteps, merkleStepsLoop_eq hashPair le_rfl]

end

structure StratumJob where
  id : StdString
  tmpl : CBlockTemplate
  hashPrevBlock : uint256
  nVersion : Int32
  nBits : UInt32
  nTime : UInt32
  nHeight : Int32
  vMerkleSteps : List uint256
  nCreated : ℤ
deriving DecidableEq

def EXTRANONCE_MAGIC : Bytes := [0xf1, 0x5b, 0x57, 0x1c, 0xc5, 0x0d, 0xab, 0xe5]

def COINBASE_TAG : StdString := str "/Fishsticks/"

/-- `CScript() << nHeight << (extranonce ++ tag)`. -/
def coinbaseScript (job : StratumJob) (extranonce : Bytes) : CScript :=
  CScript.pushInt64 job.nHeight.toInt64 ++ CScript.pushData (extranonce ++ COINBASE_TAG)

/-- The outputs of the template, the first of them paying to `payoutScript`. -/
def coinbaseOutputs (job : StratumJob) (payoutScript : CScript) : List CTxOut :=
  match job.tmpl.coinbase.vout with
  | [] => []
  | txout :: vout => { txout with scriptPubKey := payoutScript } :: vout

/-- The coinbase of a client for a job, with the bytes `extranonce` in its
script. -/
def coinbaseTx (job : StratumJob) (payoutScript : CScript) (extranonce : Bytes) :
    CTransaction where
  nVersion := job.tmpl.coinbase.nVersion
  vin := [⟨⟨0, 0xffffffff⟩, coinbaseScript job extranonce, job.tmpl.nSequence, []⟩]
  vout := coinbaseOutputs job payoutScript
  nLockTime := job.tmpl.coinbase.nLockTime

def findMagic : Bytes → Option ℕ
  | [] => none
  | b :: bytes =>
    if (b :: bytes).take 8 = EXTRANONCE_MAGIC then some 0
    else (findMagic bytes).map (· + 1)

/-- `BuildCoinbaseParts`; `none` where the source returns false. -/
def buildCoinbaseParts (job : StratumJob) (payoutScript : CScript) : Option (Bytes × Bytes) :=
  if (coinbaseScript job EXTRANONCE_MAGIC).length > 100 then none
  else if (coinbaseOutputs job payoutScript).isEmpty then none
  else
    let vchFull := serializeTransaction true (coinbaseTx job payoutScript EXTRANONCE_MAGIC)
    match findMagic vchFull with
    | none => none
    | some nPos => some (vchFull.take nPos, vchFull.drop (nPos + 8))

section

variable (job : StratumJob) (payoutScript : CScript)

def coinb1 : Bytes :=
  writeInt32 job.tmpl.coinbase.nVersion ++ (writeCompactSize 1 ++ (writeUint256 0 ++
    (writeUInt32 0xffffffff ++ (writeCompactSize
      (coinbaseScript job EXTRANONCE_MAGIC).length ++
        (CScript.pushInt64 job.nHeight.toInt64 ++ [20])))))

def coinb2 : Bytes :=
  COINBASE_TAG ++ (writeUInt32 job.tmpl.nSequence ++
    (writeVector writeTxOut (coinbaseOutputs job payoutScript) ++
      writeUInt32 job.tmpl.coinbase.nLockTime))

variable {job payoutScript} {extranonce : Bytes}

theorem coinbaseScript_eq (hlen : extranonce.length = 8) :
    coinbaseScript job extranonce =
      CScript.pushInt64 job.nHeight.toInt64 ++ 20 :: (extranonce ++ COINBASE_TAG) := by
  have htotal : (extranonce ++ COINBASE_TAG).length = 20 := by
    rw [length_append, hlen]
    decide
  rw [coinbaseScript, CScript.pushData_of_short (by omega), htotal]
  rfl

theorem length_coinbaseScript (hlen : extranonce.length = 8) :
    (coinbaseScript job extranonce).length =
      (CScript.pushInt64 job.nHeight.toInt64).length + 21 := by
  have htag : COINBASE_TAG.length = 12 := by decide
  rw [coinbaseScript_eq hlen, length_append, length_cons, length_append, hlen, htag]

theorem hasWitness_coinbaseTx (job : StratumJob) (payoutScript : CScript) (extranonce : Bytes) :
    (coinbaseTx job payoutScript extranonce).hasWitness = false := rfl

theorem serialize_coinbaseTx (hlen : extranonce.length = 8) :
    serializeTransaction true (coinbaseTx job payoutScript extranonce) =
      coinb1 job ++ (extranonce ++ coinb2 job payoutScript) := by
  have hscript : (coinbaseScript job extranonce).length =
      (coinbaseScript job EXTRANONCE_MAGIC).length := by
    rw [length_coinbaseScript hlen, length_coinbaseScript (by decide)]
  rw [serializeTransaction_of_not_hasWitness (hasWitness_coinbaseTx job payoutScript extranonce)]
  simp only [coinbaseTx, writeVector, writeTxIn, writeBytes, coinb1, coinb2, flatMap_cons,
    flatMap_nil, append_nil, append_assoc, length_singleton, hscript]
  rw [coinbaseScript_eq hlen]
  simp only [append_assoc, cons_append, nil_append]

section

theorem findMagic_append {l : Bytes} (hl : l.length < 8) {b : UInt8} (hb : b ∉ EXTRANONCE_MAGIC)
    (bytes : Bytes) :
    findMagic (l ++ b :: bytes) = (findMagic bytes).map (· + (l.length + 1)) := by
  have hmiss (l : Bytes) (hl : l.length < 8) : (l ++ b :: bytes).take 8 ≠ EXTRANONCE_MAGIC := by
    intro h
    apply hb
    rw [← h, take_append]
    refine mem_append_right _ ?_
    obtain ⟨k, hk⟩ : ∃ k, 8 - l.length = k + 1 := ⟨7 - l.length, by omega⟩
    rw [hk, take_succ_cons]
    exact mem_cons_self
  induction l with
  | nil => exact if_neg (hmiss [] (by decide))
  | cons a l ih =>
    have hstep : findMagic (a :: l ++ b :: bytes) = (findMagic (l ++ b :: bytes)).map (· + 1) :=
      if_neg (hmiss (a :: l) hl)
    rw [hstep, ih (Nat.lt_of_succ_lt hl), Option.map_map]
    rfl

theorem findMagic_append_of_forall {l : Bytes} (hl : ∀ b ∈ l, b ∉ EXTRANONCE_MAGIC)
    (bytes : Bytes) : findMagic (l ++ bytes) = (findMagic bytes).map (· + l.length) := by
  induction l with
  | nil => simp
  | cons a l ih =>
    have hfirst := findMagic_append (l := []) (by decide) (hl a mem_cons_self) (l ++ bytes)
    rw [nil_append] at hfirst
    rw [cons_append, hfirst, ih fun b hb => hl b (mem_cons_of_mem a hb), Option.map_map]
    rfl

variable (bytes : Bytes)

theorem findMagic_magic : findMagic (EXTRANONCE_MAGIC ++ bytes) = some 0 := by
  have hlen : EXTRANONCE_MAGIC.length = 8 := by decide
  have htake : (EXTRANONCE_MAGIC ++ bytes).take 8 = EXTRANONCE_MAGIC := by
    rw [← hlen, take_left]
  exact if_pos htake

theorem toInt_natAbs_lt (n : Int32) : n.toInt64.toInt.natAbs < 256 ^ 4 := by
  have hlt := n.toInt_lt
  have hge := n.le_toInt
  rw [Int32.toInt_toInt64]
  omega

/-- The marker is found where it was put. Before it stand four arbitrary bytes, a
run of bytes the marker does not have, and the height. -/
theorem findMagic_coinb1 :
    findMagic (coinb1 job ++ (EXTRANONCE_MAGIC ++ bytes)) = some (coinb1 job).length := by
  have hheight := CScript.length_pushInt64 (toInt_natAbs_lt job.nHeight)
  have hsize : writeCompactSize (coinbaseScript job EXTRANONCE_MAGIC).length =
      [UInt8.ofNat ((CScript.pushInt64 job.nHeight.toInt64).length + 21)] := by
    rw [length_coinbaseScript (by decide), writeCompactSize, if_pos (by omega), leBytes, leBytes,
      Nat.mod_eq_of_lt (by omega)]
  have hmarks : ∀ b ∈ writeUint256 0 ++ (writeUInt32 0xffffffff ++
      [UInt8.ofNat ((CScript.pushInt64 job.nHeight.toInt64).length + 21)]),
      b ∉ EXTRANONCE_MAGIC := by
    have hlen : ∀ k ≤ 6, UInt8.ofNat (k + 21) ∉ EXTRANONCE_MAGIC := by decide
    have hnull : ∀ b ∈ writeUint256 0 ++ writeUInt32 0xffffffff, b ∉ EXTRANONCE_MAGIC := by
      decide +kernel
    intro b hb
    rw [← append_assoc, mem_append, mem_singleton] at hb
    rcases hb with hb | rfl
    · exact hnull b hb
    · exact hlen _ hheight.2
  have hsplit : coinb1 job ++ (EXTRANONCE_MAGIC ++ bytes) =
      writeInt32 job.tmpl.coinbase.nVersion ++ 1 :: ((writeUint256 0 ++ (writeUInt32 0xffffffff ++
        [UInt8.ofNat ((CScript.pushInt64 job.nHeight.toInt64).length + 21)])) ++
          (CScript.pushInt64 job.nHeight.toInt64 ++ 20 :: (EXTRANONCE_MAGIC ++ bytes))) := by
    have hone : writeCompactSize 1 = [1] := by decide
    simp only [coinb1, hsize, hone, append_assoc, cons_append, nil_append]
  have hlength : (coinb1 job).length =
      (CScript.pushInt64 job.nHeight.toInt64).length + 1 + 37 + 5 := by
    have h := congrArg List.length hsplit
    simp only [length_append, length_cons, writeInt32, writeUInt32, writeUint256,
      length_leBytes, length_nil] at h
    omega
  rw [hsplit, findMagic_append (by simp [writeInt32, writeUInt32]) (by decide),
    findMagic_append_of_forall hmarks, findMagic_append (by omega) (by decide), findMagic_magic,
    hlength]
  simp [writeInt32, writeUInt32, writeUint256]

end

theorem buildCoinbaseParts_eq (job : StratumJob) (payoutScript : CScript) :
    buildCoinbaseParts job payoutScript =
      if (coinbaseOutputs job payoutScript).isEmpty then none
      else some (coinb1 job, coinb2 job payoutScript) := by
  have hheight := CScript.length_pushInt64 (toInt_natAbs_lt job.nHeight)
  have hshort : ¬ (coinbaseScript job EXTRANONCE_MAGIC).length > 100 := by
    rw [length_coinbaseScript (by decide)]
    omega
  have hmagic : EXTRANONCE_MAGIC.length = 8 := by decide
  rw [buildCoinbaseParts, if_neg hshort, serialize_coinbaseTx hmagic]
  simp only [findMagic_coinb1]
  rw [take_left, ← hmagic, ← length_append, ← append_assoc, drop_left]

theorem unserialize_parts {extranonce : Bytes} (hlen : extranonce.length = 8) :
    Inverts (unserializeTransaction true)
      (coinb1 job ++ (extranonce ++ coinb2 job payoutScript))
      (coinbaseTx job payoutScript extranonce) := by
  rw [← serialize_coinbaseTx hlen]
  exact unserializeTransaction_serialize (by simp [coinbaseTx])

theorem getHash_coinbaseTx (hash : Bytes → uint256) {extranonce : Bytes}
    (hlen : extranonce.length = 8) :
    (coinbaseTx job payoutScript extranonce).getHash hash =
      hash (coinb1 job ++ (extranonce ++ coinb2 job payoutScript)) := by
  have hwit := hasWitness_coinbaseTx job payoutScript extranonce
  rw [← serialize_coinbaseTx hlen, CTransaction.getHash,
    serializeTransaction_of_not_hasWitness hwit, serializeTransaction_of_not_hasWitness hwit]

end

end Stratum

end Coinyecoin
