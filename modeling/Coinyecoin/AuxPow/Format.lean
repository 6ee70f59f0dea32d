import Coinyecoin.Primitives.Serialize

/-!
# Merged-mining data

`CMerkleTx`, `CAuxPow` and the block header that carries one, with their writers and
readers. An auxpow is read where the version of the header has the auxpow flag, and
nothing in the format keeps its transaction from having no inputs. A header is read
back from what is written for it as long as no vector in it is longer than a reader
takes.
-/

namespace Coinyecoin

open Foundation

/-- A transaction with a merkle branch that links it to a block. -/
structure CMerkleTx where
  tx : CTransaction
  hashBlock : uint256
  vMerkleBranch : List uint256
  nIndex : Int32
deriving DecidableEq, Repr

/-- The coinbase of a parent block, with the branch that links our block to it and
the header of the parent. -/
structure CAuxPow extends CMerkleTx where
  vChainMerkleBranch : List uint256
  nChainIndex : Int32
  parentBlock : CPureBlockHeader
deriving DecidableEq, Repr

structure CBlockHeader extends CPureBlockHeader where
  auxpow : Option CAuxPow
deriving DecidableEq, Repr

structure CWholeBlock where
  header : CBlockHeader
  vtx : List CTransaction
deriving DecidableEq, Repr

def writePureBlockHeader (header : CPureBlockHeader) : Bytes :=
  writeInt32 header.nVersion ++ (writeUint256 header.hashPrevBlock ++
    (writeUint256 header.hashMerkleRoot ++ (writeUInt32 header.nTime ++
      (writeUInt32 header.nBits ++ writeUInt32 header.nNonce))))

def writeMerkleTx (fAllowWitness : Bool) (merkleTx : CMerkleTx) : Bytes :=
  serializeTransaction fAllowWitness merkleTx.tx ++ (writeUint256 merkleTx.hashBlock ++
    (writeVector writeUint256 merkleTx.vMerkleBranch ++ writeInt32 merkleTx.nIndex))

/-- The transaction of an auxpow is written with its witnesses too. -/
def writeAuxPow (fAllowWitness : Bool) (auxpow : CAuxPow) : Bytes :=
  writeMerkleTx fAllowWitness auxpow.toCMerkleTx ++
    (writeVector writeUint256 auxpow.vChainMerkleBranch ++
      (writeInt32 auxpow.nChainIndex ++ writePureBlockHeader auxpow.parentBlock))

/-- The auxpow follows where the version announces it. -/
def writeBlockHeader (fAllowWitness : Bool) (header : CBlockHeader) : Bytes :=
  writePureBlockHeader header.toCPureBlockHeader ++
    if header.isAuxpow then (header.auxpow.map (writeAuxPow fAllowWitness)).getD [] else []

/-- Writing a header, which asserts that an announced auxpow is there. -/
def serializeBlockHeader (fAllowWitness : Bool) (header : CBlockHeader) : Except Fault Bytes := do
  assertThat (header.isAuxpow = true → header.auxpow.isSome = true) "auxpow"
  return writeBlockHeader fAllowWitness header

def CPureBlockHeader.getHash (hash : Bytes → uint256) (header : CPureBlockHeader) : uint256 :=
  hash (writePureBlockHeader header)

section

variable (fAllowWitness : Bool)

def readPureBlockHeader : Reader Fault CPureBlockHeader := do
  let nVersion ← readInt32
  let hashPrevBlock ← readUint256
  let hashMerkleRoot ← readUint256
  let nTime ← readUInt32
  let nBits ← readUInt32
  let nNonce ← readUInt32
  return ⟨nVersion, hashPrevBlock, hashMerkleRoot, nTime, nBits, nNonce⟩

def readMerkleTx : Reader Fault CMerkleTx := do
  let tx ← unserializeTransaction fAllowWitness
  let hashBlock ← readUint256
  let vMerkleBranch ← readVector readUint256
  let nIndex ← readInt32
  return ⟨tx, hashBlock, vMerkleBranch, nIndex⟩

def readAuxPow : Reader Fault CAuxPow := do
  let merkleTx ← readMerkleTx fAllowWitness
  let vChainMerkleBranch ← readVector readUint256
  let nChainIndex ← readInt32
  let parentBlock ← readPureBlockHeader
  return ⟨merkleTx, vChainMerkleBranch, nChainIndex, parentBlock⟩

def readBlockHeader : Reader Fault CBlockHeader := do
  let header ← readPureBlockHeader
  if header.isAuxpow then do
    let auxpow ← readAuxPow fAllowWitness
    return ⟨header, some auxpow⟩
  else return ⟨header, none⟩

end

section

theorem readPureBlockHeader_write {header : CPureBlockHeader} :
    Reads readPureBlockHeader (writePureBlockHeader header) header :=
  (readInt32_write header.nVersion).bind <| (readUint256_write header.hashPrevBlock).bind <|
    (readUint256_write header.hashMerkleRoot).bind <| (readUInt32_write header.nTime).bind <|
      (readUInt32_write header.nBits).bind <| (readUInt32_write header.nNonce).map _

theorem readBranch_write {vMerkleBranch : List uint256} (hlen : vMerkleBranch.length ≤ MAX_SIZE) :
    Reads (readVector readUint256) (writeVector writeUint256 vMerkleBranch) vMerkleBranch := by
  have h := readVector_reads (f := id) hlen fun hash _ => readUint256_write hash
  rwa [List.map_id] at h

structure CAuxPow.WithinLimits (auxpow : CAuxPow) : Prop where
  tx : auxpow.tx.WithinLimits
  witness : auxpow.tx.WitnessWithinLimits
  vMerkleBranch : auxpow.vMerkleBranch.length ≤ MAX_SIZE
  vChainMerkleBranch : auxpow.vChainMerkleBranch.length ≤ MAX_SIZE

variable {auxpow : CAuxPow} {header : CBlockHeader}

theorem readAuxPow_write (hvin : auxpow.tx.vin ≠ [])
    (h : auxpow.WithinLimits) : Reads (readAuxPow true) (writeAuxPow true auxpow) auxpow := by
  have hmerkle : Reads (readMerkleTx true) (writeMerkleTx true auxpow.toCMerkleTx)
      auxpow.toCMerkleTx :=
    (unserializeTransaction_reads hvin h.tx h.witness).bind <|
      (readUint256_write auxpow.hashBlock).bind <| (readBranch_write h.vMerkleBranch).bind <|
        (readInt32_write auxpow.nIndex).map _
  exact hmerkle.bind <| (readBranch_write h.vChainMerkleBranch).bind <|
    (readInt32_write auxpow.nChainIndex).bind <|
      (readPureBlockHeader_write).map _

/-- The auxpow pointer is set exactly when the version announces an auxpow. -/
def CBlockHeader.Carries (header : CBlockHeader) : Prop :=
  header.auxpow.isSome = header.isAuxpow

theorem serializeBlockHeader_of_carries (h : header.Carries) {fAllowWitness : Bool} :
    serializeBlockHeader fAllowWitness header = .ok (writeBlockHeader fAllowWitness header) := by
  rw [serializeBlockHeader, assertThat_of_true fun hflag => h.trans hflag]
  rfl

theorem readBlockHeader_write (h : header.Carries)
    (hauxpow : ∀ auxpow ∈ header.auxpow, auxpow.tx.vin ≠ [] ∧ auxpow.WithinLimits) :
    Reads (readBlockHeader true) (writeBlockHeader true header) header := by
  refine (readPureBlockHeader_write).bind ?_
  obtain ⟨pure, auxpow⟩ := header
  cases auxpow with
  | none =>
    have hflag : pure.isAuxpow = false := h.symm
    simp only [hflag, Bool.false_eq_true, if_false]
    exact Reads.pure_nil _
  | some auxpow =>
    have hflag : pure.isAuxpow = true := h.symm
    obtain ⟨hvin, hlimits⟩ := hauxpow auxpow rfl
    simp only [hflag, if_true, Option.map_some, Option.getD_some]
    exact (readAuxPow_write hvin hlimits).map _

theorem carries_of_readBlockHeader {fAllowWitness : Bool} {s rest : Bytes}
    (h : readBlockHeader fAllowWitness s = .ok (header, rest)) : header.Carries := by
  obtain ⟨⟨pure, mid⟩, -, h⟩ := bind_eq_ok.1 h
  dsimp only at h
  split_ifs at h with hflag
  · obtain ⟨⟨auxpow, end'⟩, -, h⟩ := bind_eq_ok.1 h
    cases h
    exact hflag.symm
  · cases h
    simpa [CBlockHeader.Carries] using hflag

/-- A header that carries an auxpow exactly if it announces one is read back from what is written
for it, whatever follows, and a header that was read is written again without an assert. -/
theorem blockHeader_readBack :
    (∀ header : CBlockHeader, header.Carries →
      (∀ auxpow ∈ header.auxpow, auxpow.tx.vin ≠ [] ∧ auxpow.WithinLimits) →
      ∃ bytes, serializeBlockHeader true header = .ok bytes ∧
        ∀ rest, readBlockHeader true (bytes ++ rest) = .ok (header, rest)) ∧
    ∀ (fAllowWitness : Bool) (s rest : Bytes) (header : CBlockHeader),
      readBlockHeader fAllowWitness s = .ok (header, rest) →
      header.Carries ∧
        ∀ fAllowWitness', ∃ bytes, serializeBlockHeader fAllowWitness' header = .ok bytes := by
  refine ⟨fun header h hauxpow => ?_, fun fAllowWitness s rest header h => ?_⟩
  · exact ⟨_, serializeBlockHeader_of_carries h, readBlockHeader_write h hauxpow⟩
  · have hcarries := carries_of_readBlockHeader h
    exact ⟨hcarries, fun _ => ⟨_, serializeBlockHeader_of_carries hcarries⟩⟩

def headerWithBranch (vMerkleBranch : List uint256) : CBlockHeader where
  nVersion := 0x100
  hashPrevBlock := 0
  hashMerkleRoot := 0
  nTime := 0
  nBits := 0
  nNonce := 0
  auxpow := some {
    tx := ⟨1, [⟨⟨0, 0xffffffff⟩, [], 0xffffffff, []⟩], [], 0⟩
    hashBlock := 0
    vMerkleBranch := vMerkleBranch
    nIndex := 0
    vChainMerkleBranch := []
    nChainIndex := 0
    parentBlock := ⟨1, 0, 0, 0, 0, 0⟩ }

theorem carries_headerWithBranch (vMerkleBranch : List uint256) :
    (headerWithBranch vMerkleBranch).Carries := by
  have hflag : ((0x100 : Int32) &&& CPureBlockHeader.VERSION_AUXPOW != 0) = true := by decide
  exact hflag.symm

theorem blockHeader_readBack_shortBranch :
    (headerWithBranch [1, 2]).Carries ∧
      ∃ bytes, serializeBlockHeader true (headerWithBranch [1, 2]) = .ok bytes ∧
        ∀ rest, readBlockHeader true (bytes ++ rest) = .ok (headerWithBranch [1, 2], rest) := by
  have hcarries := carries_headerWithBranch [1, 2]
  refine ⟨hcarries, blockHeader_readBack.1 _ hcarries fun auxpow hmem => ?_⟩
  obtain rfl := Option.some.inj hmem
  exact ⟨by decide, ⟨by decide, by decide, by decide, by decide⟩, ⟨by decide, by decide⟩,
    by decide, by decide⟩

theorem readBlockHeader_refuses {header : CPureBlockHeader}
    (hflag : header.isAuxpow = true) (hvin : auxpow.tx.vin ≠ [])
    (hlong : MAX_SIZE < auxpow.vMerkleBranch.length) :
    Refuses (readBlockHeader true) (writeBlockHeader true ⟨header, some auxpow⟩) := by
  have hmerkle : Refuses (readMerkleTx true) (writeMerkleTx true auxpow.toCMerkleTx) :=
    .bind_right (unserializeTransaction_serialize hvin) <|
      .bind_right (readUint256_write _).inverts (((readVector_refuses hlong).append _).bind _)
  refine Refuses.bind_right (readPureBlockHeader_write).inverts ?_
  simp only [hflag, if_true, Option.map_some, Option.getD_some]
  exact ((hmerkle.append _).bind _).bind _

/-- A branch of `MAX_SIZE + 1` hashes is written, and no reader takes it. -/
theorem longBranch_not_readBack :
    ∃ header : CBlockHeader, header.Carries ∧ (∀ auxpow ∈ header.auxpow, auxpow.tx.vin ≠ []) ∧
      ∃ bytes, serializeBlockHeader true header = .ok bytes ∧
        ∀ rest out, readBlockHeader true (bytes ++ rest) ≠ .ok out := by
  obtain ⟨vMerkleBranch, hlen⟩ : ∃ vMerkleBranch : List uint256,
      vMerkleBranch.length = MAX_SIZE + 1 := ⟨List.replicate _ 0, List.length_replicate⟩
  have hvin : ∀ auxpow ∈ (headerWithBranch vMerkleBranch).auxpow, auxpow.tx.vin ≠ [] := by
    intro auxpow hmem
    obtain rfl := Option.some.inj hmem
    exact List.cons_ne_nil _ _
  have hcarries := carries_headerWithBranch vMerkleBranch
  refine ⟨headerWithBranch vMerkleBranch, hcarries, hvin, _,
    serializeBlockHeader_of_carries hcarries, ?_⟩
  have hlong : MAX_SIZE < vMerkleBranch.length := by omega
  exact readBlockHeader_refuses hcarries.symm (hvin _ rfl) hlong

end

end Coinyecoin
