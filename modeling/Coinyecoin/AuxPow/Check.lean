import Coinyecoin.Arith.Compact
import Coinyecoin.AuxPow.Format
import Coinyecoin.Consensus.Networks
import Coinyecoin.Foundation.Search
import Coinyecoin.Validation.CheckBlock

/-!
# Checking merged-mining data

`CAuxPow::check`. A check that fails is only logged, with the given text. Iterators
into the coinbase script are offsets, and moving or reading one beyond the end of
the script is a fault, as is an index outside a vector or a shift by the width of
the type.

After its first checks `check` looks at the first input of the parent coinbase,
which need not exist: this is the one way it can fault. `CheckAuxPowProofOfWork` calls
it before any proof of work was verified.
-/

namespace Coinyecoin

open Foundation

variable {script : CScript} {merkleHeight : ℕ}

section

variable {α β : Type}

/-- `return error(msg)` if the condition is met. -/
def errorIf (cond : Bool) (msg : String) : Except Failure Unit :=
  rejectIf cond (.error (.error msg))

variable {cond : Bool} {msg : String} {k : α → Except Failure β}

theorem errorIf_eq_ok {u : Unit} :
    errorIf cond msg = .ok u ↔ cond = false := rejectIf_eq_ok

/-- The function returned, if only to reject. -/
def Returns (x : Except Failure α) : Prop := ∀ f, x ≠ .error (.fault f)

theorem returns_errorIf {cond : Bool} {msg : String} : Returns (errorIf cond msg) := by
  cases cond <;> exact fun _ h => nomatch h

theorem Returns.bind {x : Except Failure α} (hx : Returns x)
    (hk : ∀ a, x = .ok a → Returns (k a)) : Returns (x >>= k) := by
  cases x with
  | ok a => exact hk a rfl
  | error e =>
    intro f h
    exact hx f (congrArg Except.error (Except.error.inj h))

theorem returns_errorIf_bind {k : Unit → Except Failure α} :
    Returns (errorIf cond msg >>= k) ↔ (cond = false → Returns (k ())) := by
  cases cond with
  | false => exact ⟨fun h _ => h, fun h => h rfl⟩
  | true => exact ⟨(fun _ h => nomatch h), (fun _ _ h => nomatch h)⟩

theorem returns_orFault_bind {x : Except Fault α} :
    Returns (orFault x >>= k) ↔ ∃ a, x = .ok a ∧ Returns (k a) := by
  cases x with
  | ok a => exact ⟨fun h => ⟨a, rfl, h⟩, fun ⟨_, ha, h⟩ => Except.ok.inj ha ▸ h⟩
  | error f => exact ⟨fun h => absurd rfl (h f), fun ⟨_, ha, _⟩ => nomatch ha⟩

end

def advance (script : CScript) (pc n : ℕ) : Except Fault ℕ :=
  if pc + n ≤ script.length then .ok (pc + n) else .error .readPastEnd

/-- Four bytes by `memcpy` and `le32toh`. -/
def copyLE32 (script : CScript) (pc : ℕ) : Except Fault UInt32 :=
  if pc + 4 ≤ script.length then .ok (UInt32.ofNat (leNat ((script.drop pc).take 4)))
  else .error .readPastEnd

def shiftOne (count : ℕ) : Except Fault UInt32 :=
  if count < 32 then .ok (UInt32.ofNat (2 ^ count)) else .error .shiftTooWide

def CTransaction.firstInput (tx : CTransaction) : Except Fault CTxIn :=
  match tx.vin with
  | txin :: _ => .ok txin
  | [] => .error .indexOutOfRange

theorem advance_of_le {pc n : ℕ} (h : pc + n ≤ script.length) :
    advance script pc n = .ok (pc + n) := if_pos h

theorem copyLE32_of_le {pc : ℕ} (h : pc + 4 ≤ script.length) :
    copyLE32 script pc = .ok (UInt32.ofNat (leNat ((script.drop pc).take 4))) := if_pos h

theorem shiftOne_of_lt {count : ℕ} (h : count < 32) :
    shiftOne count = .ok (UInt32.ofNat (2 ^ count)) := if_pos h

namespace CAuxPow

def pchMergedMiningHeader : Bytes := [0xfa, 0xbe, 0x6d, 0x6d]

/-- The slot of a chain in the merkle tree. The arithmetic wraps. -/
def getExpectedIndex (nNonce : UInt32) (nChainId : Int32) (h : ℕ) : Except Fault Int32 := do
  let rand := nNonce * 1103515245 + 12345
  let rand := rand + nChainId.toUInt32
  let rand := rand * 1103515245 + 12345
  let size ← shiftOne h
  return (rand % size).toInt32

section

variable (hashPair : uint256 → uint256 → uint256)

/-- The loop of `CheckMerkleBranch`; `nIndex >>= 1` is an arithmetic shift. -/
def foldBranch (hash : uint256) (nIndex : ℤ) : List uint256 → uint256
  | [] => hash
  | it :: vMerkleBranch =>
    let hash := if nIndex % 2 = 1 then hashPair it hash else hashPair hash it
    foldBranch hash (nIndex / 2) vMerkleBranch

def checkMerkleBranch (hash : uint256) (vMerkleBranch : List uint256) (nIndex : Int32) : uint256 :=
  if nIndex = -1 then 0 else foldBranch hashPair hash nIndex.toInt vMerkleBranch

end

/-- There is one merged-mining header, just before the chain merkle root at `pc`, or
none, and the root starts early. -/
def checkHeader (script : CScript) (pcHead pc : ℕ) : Except Failure Unit :=
  if pcHead ≠ script.length then do
    let pcNext ← orFault (advance script pcHead 1)
    errorIf (script.length ≠ pcNext + search pchMergedMiningHeader (script.drop pcNext))
      "Multiple merged mining headers in coinbase"
    let pcRoot ← orFault (advance script pcHead pchMergedMiningHeader.length)
    errorIf (pcRoot ≠ pc) "Merged mining header is not just before chain merkle root"
  else
    errorIf (pc > 20)
      "Aux POW chain merkle root must start in the first 20 bytes of the parent coinbase"

def checkSlot (script : CScript) (pc merkleHeight : ℕ) (nChainIndex nChainId : Int32) :
    Except Failure Unit := do
  errorIf (script.length - pc < 8)
    "Aux POW missing chain merkle tree size and nonce in parent coinbase"
  let nSize ← orFault (copyLE32 script pc)
  let size ← orFault (shiftOne merkleHeight)
  errorIf (nSize ≠ size) "Aux POW merkle branch size does not match parent coinbase"
  let nNonce ← orFault (copyLE32 script (pc + 4))
  let nExpectedIndex ← orFault (getExpectedIndex nNonce nChainId merkleHeight)
  errorIf (nChainIndex ≠ nExpectedIndex) "Aux POW wrong index"

def checkScript (script : CScript) (vchRootHash : Bytes) (merkleHeight : ℕ)
    (nChainIndex nChainId : Int32) : Except Failure Unit := do
  let pcHead := search pchMergedMiningHeader script
  let pc := search vchRootHash script
  errorIf (pc = script.length) "Aux POW missing chain merkle root in parent coinbase"
  checkHeader script pcHead pc
  let pc ← orFault (advance script pc vchRootHash.length)
  checkSlot script pc merkleHeight nChainIndex nChainId

section

variable (hash : Bytes → uint256) (hashPair : uint256 → uint256 → uint256)

def check (auxpow : CAuxPow) (hashAuxBlock : uint256) (nChainId : Int32)
    (params : Consensus.Params) : Except Failure Unit := do
  errorIf (auxpow.nIndex ≠ 0) "AuxPow is not a generate"
  errorIf (params.fStrictChainId && auxpow.parentBlock.getChainId == nChainId.toInt)
    "Aux POW parent has our chain ID"
  errorIf (auxpow.vChainMerkleBranch.length > 30) "Aux POW chain merkle branch too long"
  let nRootHash :=
    checkMerkleBranch hashPair hashAuxBlock auxpow.vChainMerkleBranch auxpow.nChainIndex
  let vchRootHash := (writeUint256 nRootHash).reverse
  errorIf (checkMerkleBranch hashPair (auxpow.tx.getHash hash) auxpow.vMerkleBranch auxpow.nIndex ≠
    auxpow.parentBlock.hashMerkleRoot) "Aux POW merkle root incorrect"
  let txin ← orFault auxpow.tx.firstInput
  checkScript txin.scriptSig vchRootHash auxpow.vChainMerkleBranch.length auxpow.nChainIndex
    nChainId

end

theorem returns_getExpectedIndex (nNonce : UInt32) {nChainId : Int32} {h : ℕ} (hh : h < 32) :
    ∃ nIndex, getExpectedIndex nNonce nChainId h = .ok nIndex := by
  rw [getExpectedIndex, shiftOne_of_lt hh]
  exact ⟨_, rfl⟩

theorem returns_checkHeader {pcHead : ℕ} (pc : ℕ)
    (hhead : pcHead ≠ script.length → pcHead + pchMergedMiningHeader.length ≤ script.length) :
    Returns (checkHeader script pcHead pc) := by
  unfold checkHeader
  split_ifs with hfound
  · have hle := hhead hfound
    have hnext : pcHead + 1 ≤ script.length :=
      (Nat.add_le_add_left (by decide) pcHead).trans hle
    refine returns_orFault_bind.2 ⟨_, advance_of_le hnext, ?_⟩
    refine returns_errorIf_bind.2 fun _ => ?_
    exact returns_orFault_bind.2 ⟨_, advance_of_le hle, returns_errorIf⟩
  · exact returns_errorIf

theorem returns_checkSlot {script : CScript} (pc : ℕ)
    (hheight : merkleHeight < 32) (nChainIndex nChainId : Int32) :
    Returns (checkSlot script pc merkleHeight nChainIndex nChainId) := by
  refine returns_errorIf_bind.2 fun hsize => ?_
  have hle : 8 ≤ script.length - pc := not_lt.1 (of_decide_eq_false hsize)
  refine returns_orFault_bind.2 ⟨_, copyLE32_of_le (by omega), ?_⟩
  refine returns_orFault_bind.2 ⟨_, shiftOne_of_lt hheight, ?_⟩
  refine returns_errorIf_bind.2 fun _ => ?_
  refine returns_orFault_bind.2 ⟨_, copyLE32_of_le (by omega), ?_⟩
  obtain ⟨nIndex, hindex⟩ := returns_getExpectedIndex _ hheight
  exact returns_orFault_bind.2 ⟨nIndex, hindex, returns_errorIf⟩

theorem returns_checkScript {script : CScript} (vchRootHash : Bytes)
    (hheight : merkleHeight < 32) (nChainIndex nChainId : Int32) :
    Returns (checkScript script vchRootHash merkleHeight nChainIndex nChainId) := by
  refine returns_errorIf_bind.2 fun hfound => ?_
  have hroot := search_add_length_le (of_decide_eq_false hfound)
  refine (returns_checkHeader _ search_add_length_le).bind fun _ _ => ?_
  refine returns_orFault_bind.2 ⟨_, advance_of_le hroot, ?_⟩
  exact returns_checkSlot _ hheight nChainIndex nChainId

structure ReachesScript (hash : Bytes → uint256) (hashPair : uint256 → uint256 → uint256)
    (auxpow : CAuxPow) (nChainId : Int32) (params : Consensus.Params) : Prop where
  nIndex : auxpow.nIndex = 0
  chainId : ¬ (params.fStrictChainId = true ∧ auxpow.parentBlock.getChainId = nChainId.toInt)
  length : auxpow.vChainMerkleBranch.length ≤ 30
  merkleRoot : checkMerkleBranch hashPair (auxpow.tx.getHash hash) auxpow.vMerkleBranch 0 =
    auxpow.parentBlock.hashMerkleRoot

theorem exists_firstInput_iff {tx : CTransaction} : (∃ txin, tx.firstInput = .ok txin) ↔
    tx.vin ≠ [] := by
  unfold CTransaction.firstInput
  cases tx.vin with
  | nil => simp
  | cons txin vin => simp

/-- For every auxpow, hash, chain ID and parameters, `check` returns unless the
transaction has no inputs and the checks before its first input is read all pass. In
particular no script is read beyond its end and no shift is too wide. -/
theorem check_returns_iff (hash : Bytes → uint256) (hashPair : uint256 → uint256 → uint256)
    (auxpow : CAuxPow) (hashAuxBlock : uint256) (nChainId : Int32) (params : Consensus.Params) :
    Returns (check hash hashPair auxpow hashAuxBlock nChainId params) ↔
      ¬ (auxpow.tx.vin = [] ∧ ReachesScript hash hashPair auxpow nChainId params) := by
  have hinput (vchRootHash : Bytes) (hlen : auxpow.vChainMerkleBranch.length ≤ 30) :
      Returns (do
        let txin ← orFault auxpow.tx.firstInput
        checkScript txin.scriptSig vchRootHash auxpow.vChainMerkleBranch.length auxpow.nChainIndex
          nChainId) ↔ auxpow.tx.vin ≠ [] := by
    rw [returns_orFault_bind, ← exists_firstInput_iff]
    refine exists_congr fun txin => and_iff_left ?_
    exact returns_checkScript _ (by omega) _ _
  unfold check
  simp only [returns_errorIf_bind]
  constructor
  · rintro h ⟨hvin, hindex, hchain, hlen, hroot⟩
    refine (hinput _ hlen).1 (h ?_ ?_ ?_ ?_) hvin
    · simp [hindex]
    · simpa using hchain
    · simpa using hlen
    · simp [hindex, hroot]
  · intro h hindex hchain hlen hroot
    simp only [ne_eq, decide_not, Bool.not_eq_false', decide_eq_true_eq] at hindex hroot
    have hlen' : auxpow.vChainMerkleBranch.length ≤ 30 := by simpa using hlen
    refine (hinput _ hlen').2 fun hvin => h ⟨hvin, hindex, by simpa using hchain, hlen', ?_⟩
    rwa [hindex] at hroot

def lengthHash (bytes : Bytes) : uint256 := BitVec.ofNat 256 bytes.length

/-- An auxpow as it is sent. The transaction has version 1 and lock time 0, and where
its inputs should be it has the marker for an empty `vin` and no flags. The parent
header has the hash of that transaction for its merkle root. -/
def emptyVinBytes : Bytes :=
  [1, 0, 0, 0, 0, 0, 0, 0, 0, 0] ++ List.replicate 32 0 ++ [0] ++ [0, 0, 0, 0] ++
    [0] ++ [0, 0, 0, 0] ++
    ([1, 0, 0, 0] ++ List.replicate 32 0 ++ (10 :: List.replicate 31 0) ++ List.replicate 12 0)

def emptyVinAuxPow : CAuxPow where
  tx := ⟨1, [], [], 0⟩
  hashBlock := 0
  vMerkleBranch := []
  nIndex := 0
  vChainMerkleBranch := []
  nChainIndex := 0
  parentBlock := ⟨1, 0, 10, 0, 0, 0⟩

/-- The transaction without inputs is read off the wire, and then `check` on the main
network indexes its first input. -/
theorem check_indexes_empty_vin :
    readAuxPow true emptyVinBytes = .ok (emptyVinAuxPow, []) ∧
      check lengthHash (fun x _ => x) emptyVinAuxPow 0 0x62
          (Consensus.Network.main.getConsensus 0) = .error (.fault .indexOutOfRange) := by
  decide +kernel

end CAuxPow

def checkProofOfWork (hash : uint256) (nBits : UInt32) (params : Consensus.Params) : Bool :=
  let bnTarget := (ArithUint256.setCompact nBits).1
  let fNegative := (ArithUint256.setCompact nBits).2.1
  let fOverflow := (ArithUint256.setCompact nBits).2.2
  if fNegative || bnTarget == 0 || fOverflow || bnTarget > params.powLimit then false
  else !decide (hash > bnTarget)

/-- A call whose `false` is turned into an error of its own. -/
def orError (x : Except Failure Unit) (msg : String) : Except Failure Unit :=
  match x with
  | .ok () => .ok ()
  | .error (.fault f) => .error (.fault f)
  | .error _ => .error (.error msg)

section

variable (hash : Bytes → uint256) (hashPair : uint256 → uint256 → uint256)
  (getPoWHash : CPureBlockHeader → uint256)

def chainIdError (block : CBlockHeader) (params : Consensus.Params) : String :=
  "CheckAuxPowProofOfWork : block does not have our chain ID (got " ++ toString block.getChainId ++
    ", expected " ++ toString params.nAuxpowChainId ++ ", full nVersion " ++
    toString block.nVersion.toInt ++ ")"

def checkAuxPowProofOfWork (block : CBlockHeader) (params : Consensus.Params) :
    Except Failure Unit := do
  errorIf (!block.isLegacy && params.fStrictChainId && block.getChainId != params.nAuxpowChainId)
    (chainIdError block params)
  match block.auxpow with
  | none =>
    errorIf block.isAuxpow "CheckAuxPowProofOfWork : no auxpow on block with auxpow version"
    errorIf (!checkProofOfWork (getPoWHash block.toCPureBlockHeader) block.nBits params)
      "CheckAuxPowProofOfWork : non-AUX proof of work failed"
  | some auxpow =>
    errorIf (!block.isAuxpow) "CheckAuxPowProofOfWork : auxpow on block with non-auxpow version"
    orError (auxpow.check hash hashPair (block.getHash hash) (Int32.ofInt block.getChainId) params)
      "CheckAuxPowProofOfWork : AUX POW is not valid"
    errorIf (!checkProofOfWork (getPoWHash auxpow.parentBlock) block.nBits params)
      "CheckAuxPowProofOfWork : AUX proof of work failed"

end

end Coinyecoin
