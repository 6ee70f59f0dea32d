import Coinyecoin.Consensus.Merkle
import Coinyecoin.Primitives.Serialize
import Coinyecoin.Script.Push

/-!
# Block templates

What `CreateNewBlock` hands out, and `IncrementExtraNonce`, which puts an
extranonce into the coinbase of a template. The function keeps the previous block
of its last call in a static variable, shared by all its callers.
-/

namespace Coinyecoin

open Foundation

structure CBlockTemplate where
  header : CPureBlockHeader
  coinbase : CTransaction
  txs : List CTransaction
  vin_ne_nil : coinbase.vin ≠ []
deriving DecidableEq

namespace CBlockTemplate

def block (tmpl : CBlockTemplate) : CBlock := ⟨tmpl.header, tmpl.coinbase :: tmpl.txs⟩

def nSequence (tmpl : CBlockTemplate) : UInt32 :=
  (tmpl.coinbase.vin.head tmpl.vin_ne_nil).nSequence

def scriptSig (tmpl : CBlockTemplate) : CScript :=
  (tmpl.coinbase.vin.head tmpl.vin_ne_nil).scriptSig

def setScriptSig (tmpl : CBlockTemplate) (scriptSig : CScript) : CBlockTemplate where
  header := tmpl.header
  coinbase := { tmpl.coinbase with
    vin := tmpl.coinbase.vin.modifyHead fun txin => { txin with scriptSig := scriptSig } }
  txs := tmpl.txs
  vin_ne_nil := by
    obtain ⟨txin, vin, hvin⟩ := List.exists_cons_of_ne_nil tmpl.vin_ne_nil
    simp [hvin]

end CBlockTemplate

section

/-- Never set to anything else. -/
def COINBASE_FLAGS : CScript := []

/-- `(CScript() << nHeight << CScriptNum(nExtraNonce)) + COINBASE_FLAGS`. -/
def extraNonceScript (nHeight nExtraNonce : UInt32) : CScript :=
  CScript.pushInt64 nHeight.toUInt64.toInt64 ++
    CScript.pushData (CScript.serializeNum nExtraNonce.toUInt64.toInt64) ++ COINBASE_FLAGS

variable (hash : Bytes → uint256) (hashPair : uint256 → uint256 → uint256)

/-- The template with the extranonce in its coinbase and the merkle root that
follows. -/
def CBlockTemplate.withScriptSig (tmpl : CBlockTemplate) (scriptSig : CScript) : CBlockTemplate :=
  let tmpl := tmpl.setScriptSig scriptSig
  let root := (Merkle.blockMerkleRoot hashPair (CTransaction.getHash hash) tmpl.block).1
  { tmpl with header := { tmpl.header with hashMerkleRoot := root } }

theorem CBlockTemplate.scriptSig_withScriptSig (tmpl : CBlockTemplate) (scriptSig : CScript) :
    (tmpl.withScriptSig hash hashPair scriptSig).scriptSig = scriptSig := by
  obtain ⟨txin, vin, hvin⟩ := List.exists_cons_of_ne_nil tmpl.vin_ne_nil
  simp [CBlockTemplate.scriptSig, withScriptSig, setScriptSig, hvin]

/-- `IncrementExtraNonce` for a block after one of height `nHeightPrev`: the static
variable, the extranonce and the template afterwards. -/
def incrementExtraNonce (hashPrevBlock : uint256) (tmpl : CBlockTemplate) (nHeightPrev : Int32)
    (nExtraNonce : UInt32) : Except Fault (uint256 × UInt32 × CBlockTemplate) := do
  let fNew := hashPrevBlock ≠ tmpl.header.hashPrevBlock
  let nExtraNonce := (if fNew then 0 else nExtraNonce) + 1
  let hashPrevBlock := if fNew then tmpl.header.hashPrevBlock else hashPrevBlock
  let nHeight := (nHeightPrev + 1).toUInt32
  let scriptSig := extraNonceScript nHeight nExtraNonce
  assertThat (scriptSig.length ≤ 100) "txCoinbase.vin[0].scriptSig.size() <= 100"
  return (hashPrevBlock, nExtraNonce, tmpl.withScriptSig hash hashPair scriptSig)

theorem natAbs_toInt64_lt (n : UInt32) : n.toUInt64.toInt64.toInt.natAbs < 256 ^ 4 := by
  have hlt := n.toNat_lt
  have hnat : n.toUInt64.toInt64.toBitVec.toNat = n.toNat := by
    rw [UInt64.toBitVec_toInt64]
    exact UInt32.toNat_toUInt64 n
  rw [Int64.toInt, BitVec.toInt_eq_toNat_of_lt (by omega), hnat, Int.natAbs_natCast]
  exact hlt

theorem length_extraNonceScript (nHeight nExtraNonce : UInt32) :
    (extraNonceScript nHeight nExtraNonce).length ≤ 100 := by
  have hheight := CScript.length_pushInt64 (natAbs_toInt64_lt nHeight)
  have hnonce := CScript.length_serializeNum_le (natAbs_toInt64_lt nExtraNonce)
  rw [extraNonceScript, COINBASE_FLAGS, List.append_nil, List.length_append,
    CScript.pushData_of_short (by omega), List.length_cons]
  omega

variable {hash hashPair}

theorem incrementExtraNonce_eq (hashPrevBlock : uint256) (tmpl : CBlockTemplate)
    (nHeightPrev : Int32) (nExtraNonce : UInt32) :
    incrementExtraNonce hash hashPair hashPrevBlock tmpl nHeightPrev nExtraNonce =
      .ok (tmpl.header.hashPrevBlock,
        (if hashPrevBlock ≠ tmpl.header.hashPrevBlock then 0 else nExtraNonce) + 1,
        tmpl.withScriptSig hash hashPair (extraNonceScript (nHeightPrev + 1).toUInt32
          ((if hashPrevBlock ≠ tmpl.header.hashPrevBlock then 0 else nExtraNonce) + 1))) := by
  unfold incrementExtraNonce
  dsimp only
  rw [assertThat_of_true (length_extraNonceScript _ _)]
  by_cases hnew : hashPrevBlock = tmpl.header.hashPrevBlock
  · simp [hnew]
  · simp [hnew]

end

end Coinyecoin
