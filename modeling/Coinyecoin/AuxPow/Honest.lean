import Coinyecoin.AuxPow.Check
import Coinyecoin.Consensus.MerkleBranch

/-!
# Honest merged mining is accepted

A miner puts the hash of our block at its slot among the leaves of a full merkle tree of
chains, and the header, the root of that tree, its size and the nonce into the coinbase of
a parent block. The merged-mining data made from that block passes `CAuxPow::check`: the
two branches lead to the two roots, and the searches in the script find what was put
there.
-/

namespace Coinyecoin

open Foundation List

namespace CMerkleTx

def initMerkleBranch (hash : Bytes → uint256) (hashPair : uint256 → uint256 → uint256)
    (merkleTx : CMerkleTx) (block : CBlock) (posInBlock : Int32) : CMerkleTx :=
  { merkleTx with
    hashBlock := block.header.getHash hash
    nIndex := posInBlock
    vMerkleBranch := Merkle.blockMerkleBranch hashPair (CTransaction.getHash hash) block
      posInBlock.toUInt32 }

end CMerkleTx

namespace CAuxPow

section

variable {hashPair : uint256 → uint256 → uint256}

theorem foldBranch_natCast (hash : uint256) (i : ℕ) (vMerkleBranch : List uint256) :
    foldBranch hashPair hash i vMerkleBranch = MerkleTree.foldUp hashPair hash i vMerkleBranch := by
  induction vMerkleBranch generalizing hash i with
  | nil => rfl
  | cons it vMerkleBranch ih =>
    have hodd : (i : ℤ) % 2 = 1 ↔ i % 2 = 1 := by omega
    have hhalf : (i : ℤ) / 2 = (i / 2 : ℕ) := by omega
    simp only [foldBranch, MerkleTree.foldUp, hodd, hhalf]
    exact ih _ _

theorem checkMerkleBranch_blockMerkleBranch (hashPair : uint256 → uint256 → uint256)
    (getHash : CTransaction → uint256) {block : CBlock} {tx : CTransaction}
    {rest : List CTransaction} (hvtx : block.vtx = tx :: rest) :
    checkMerkleBranch hashPair (getHash tx) (Merkle.blockMerkleBranch hashPair getHash block 0) 0 =
      (Merkle.blockMerkleRoot hashPair getHash block).1 := by
  rw [checkMerkleBranch, if_neg (by decide), Merkle.blockMerkleBranch, Merkle.blockMerkleRoot, hvtx,
    map_cons, ← Merkle.foldUp_computeMerkleBranch hashPair 0 getElem?_cons_zero]
  exact foldBranch_natCast _ 0 _

theorem getExpectedIndex_toInt {nNonce : UInt32} {nChainId nIndex : Int32} {h : ℕ} (hh : h ≤ 30)
    (hindex : getExpectedIndex nNonce nChainId h = .ok nIndex) :
    0 ≤ nIndex.toInt ∧ nIndex.toInt < 2 ^ h := by
  rw [getExpectedIndex, shiftOne_of_lt (by omega), ok_bind] at hindex
  obtain rfl := Except.ok.inj hindex
  have hsize : (UInt32.ofNat (2 ^ h)).toNat = 2 ^ h := by
    rw [UInt32.toNat_ofNat']
    exact Nat.mod_eq_of_lt (Nat.pow_lt_pow_right (by decide) (by omega))
  have hle : 2 ^ h ≤ 2 ^ 30 := Nat.pow_le_pow_right (by decide) hh
  generalize nNonce * 1103515245 + 12345 + nChainId.toUInt32 = rand
  have hlt : ((rand * 1103515245 + 12345) % UInt32.ofNat (2 ^ h)).toNat < 2 ^ h := by
    rw [UInt32.toNat_mod, hsize]
    exact Nat.mod_lt _ (Nat.two_pow_pos h)
  generalize (rand * 1103515245 + 12345) % UInt32.ofNat (2 ^ h) = slot at hlt ⊢
  have hint : slot.toInt32.toInt = slot.toNat := by
    rw [← Int32.toInt_toBitVec, BitVec.toInt_eq_toNat_of_lt]
    · rfl
    · change 2 * slot.toNat < 2 ^ 32
      omega
  rw [hint]
  exact ⟨Int.natCast_nonneg _, by exact_mod_cast hlt⟩

variable {pre post vchRootHash : Bytes} {h : ℕ} {nNonce : UInt32}

def commitment (vchRootHash : Bytes) (h : ℕ) (nNonce : UInt32) : Bytes :=
  pchMergedMiningHeader ++ (vchRootHash ++ (leBytes 4 (2 ^ h) ++ writeUInt32 nNonce))

/-- The commitment lies in the script, the header nowhere else and the root not before. -/
structure Commits (script : CScript) (pre post vchRootHash : Bytes) (h : ℕ) (nNonce : UInt32) :
    Prop where
  layout : script = pre ++ (commitment vchRootHash h nNonce ++ post)
  header : ∀ pos, pchMergedMiningHeader <+: script.drop pos → pos = pre.length
  root : ∀ pos < pre.length + pchMergedMiningHeader.length, ¬vchRootHash <+: script.drop pos

variable {script : CScript}

section

variable (hc : Commits script pre post vchRootHash h nNonce)
include hc

theorem Commits.drop_root :
    script.drop (pre.length + pchMergedMiningHeader.length) =
      vchRootHash ++ (leBytes 4 (2 ^ h) ++ (writeUInt32 nNonce ++ post)) := by
  rw [hc.layout, commitment, ← drop_drop, drop_left, append_assoc, drop_left]
  simp [append_assoc]

theorem Commits.search_header : search pchMergedMiningHeader script = pre.length := by
  refine search_eq ?_ fun m hm hprefix => absurd (hc.header m hprefix) hm.ne
  rw [hc.layout, drop_left, commitment, append_assoc]
  exact prefix_append _ _

theorem Commits.search_root :
    search vchRootHash script = pre.length + pchMergedMiningHeader.length := by
  refine search_eq ?_ hc.root
  rw [hc.drop_root]
  exact prefix_append _ _

theorem Commits.length : script.length = pre.length + 4 + vchRootHash.length + 8 + post.length := by
  rw [hc.layout]
  simp [commitment, pchMergedMiningHeader, writeUInt32]
  omega

theorem Commits.checkHeader_ok :
    checkHeader script pre.length (pre.length + pchMergedMiningHeader.length) = .ok () := by
  have hlength := hc.length
  have hnone : search pchMergedMiningHeader (script.drop (pre.length + 1)) =
      (script.drop (pre.length + 1)).length := by
    refine search_eq_length fun m hprefix => ?_
    rw [drop_drop] at hprefix
    exact absurd (hc.header _ hprefix) (by omega)
  have hfour : pchMergedMiningHeader.length = 4 := rfl
  have hnext : advance script pre.length 1 = .ok (pre.length + 1) := advance_of_le (by omega)
  have hroot : advance script pre.length pchMergedMiningHeader.length =
      .ok (pre.length + pchMergedMiningHeader.length) := advance_of_le (by omega)
  rw [checkHeader, if_pos (by omega)]
  refine bind_eq_ok.2 ⟨_, orFault_eq_ok.2 hnext, bind_eq_ok.2 ⟨(), errorIf_eq_ok.2 ?_, ?_⟩⟩
  · rw [hnone, length_drop]
    exact decide_eq_false (by omega)
  · refine bind_eq_ok.2 ⟨_, orFault_eq_ok.2 hroot, errorIf_eq_ok.2 ?_⟩
    exact decide_eq_false (not_not.2 rfl)

variable {nChainIndex nChainId : Int32}

section

variable (hh : h ≤ 30) (hindex : getExpectedIndex nNonce nChainId h = .ok nChainIndex)
include hh hindex

theorem Commits.checkSlot_ok :
    checkSlot script (pre.length + pchMergedMiningHeader.length + vchRootHash.length) h nChainIndex
      nChainId = .ok () := by
  have hfour : pchMergedMiningHeader.length = 4 := rfl
  have hlength := hc.length
  have hpow : 2 ^ h < 256 ^ 4 :=
    (Nat.pow_lt_pow_right (by decide) (by omega : h < 32)).trans_eq (by decide)
  have hdrop : script.drop (pre.length + pchMergedMiningHeader.length + vchRootHash.length) =
      leBytes 4 (2 ^ h) ++ (writeUInt32 nNonce ++ post) := by
    rw [← drop_drop, hc.drop_root, drop_left]
  have hsize : copyLE32 script (pre.length + pchMergedMiningHeader.length + vchRootHash.length) =
      .ok (UInt32.ofNat (2 ^ h)) := by
    rw [copyLE32_of_le (by omega), hdrop, take_left' (length_leBytes 4 _), leNat_leBytes hpow]
  have hnonce : copyLE32 script
      (pre.length + pchMergedMiningHeader.length + vchRootHash.length + 4) = .ok nNonce := by
    rw [copyLE32_of_le (by omega), ← drop_drop, hdrop, drop_left' (length_leBytes 4 _),
      writeUInt32, take_left' (length_leBytes 4 _), leNat_leBytes nNonce.toNat_lt,
      UInt32.ofNat_toNat]
  refine bind_eq_ok.2 ⟨(), errorIf_eq_ok.2 (decide_eq_false (by omega)), ?_⟩
  refine bind_eq_ok.2 ⟨_, orFault_eq_ok.2 hsize, ?_⟩
  refine bind_eq_ok.2 ⟨_, orFault_eq_ok.2 (shiftOne_of_lt (by omega)), ?_⟩
  refine bind_eq_ok.2 ⟨(), errorIf_eq_ok.2 (decide_eq_false (not_not.2 rfl)), ?_⟩
  refine bind_eq_ok.2 ⟨_, orFault_eq_ok.2 hnonce, ?_⟩
  refine bind_eq_ok.2 ⟨_, orFault_eq_ok.2 hindex, ?_⟩
  exact errorIf_eq_ok.2 (decide_eq_false (not_not.2 rfl))

theorem Commits.checkScript_ok :
    checkScript script vchRootHash h nChainIndex nChainId = .ok () := by
  have hfour : pchMergedMiningHeader.length = 4 := rfl
  have hlength := hc.length
  rw [checkScript, hc.search_header, hc.search_root]
  refine bind_eq_ok.2 ⟨(), errorIf_eq_ok.2 (decide_eq_false (by omega)), ?_⟩
  refine bind_eq_ok.2 ⟨(), hc.checkHeader_ok, ?_⟩
  refine bind_eq_ok.2 ⟨_, orFault_eq_ok.2 (advance_of_le (by omega)), ?_⟩
  exact hc.checkSlot_ok hh hindex

end

end

end

/-- Merged mining done honestly: a parent block whose root is that of its transactions and whose
coinbase commits to a tree of chains that has the hash of the aux block at its slot. -/
structure MinedIn (hash : Bytes → uint256) (hashPair : uint256 → uint256 → uint256)
    (parent : CBlock) (coinbase : CTransaction) (hashAuxBlock : uint256) (nChainId : Int32)
    (leaves : List uint256) (h : ℕ) (nChainIndex : Int32) : Prop where
  first : parent.vtx.head? = some coinbase
  merkleRoot : parent.header.hashMerkleRoot =
    (Merkle.blockMerkleRoot hashPair (CTransaction.getHash hash) parent).1
  height : h ≤ 30
  size : leaves.length = 2 ^ h
  leaf : leaves[nChainIndex.toInt.toNat]? = some hashAuxBlock
  commits : ∃ txin chainRoot pre post nNonce, coinbase.vin.head? = some txin ∧
    MerkleTree.root hashPair leaves = some chainRoot ∧
    Commits txin.scriptSig pre post (writeUint256 chainRoot).reverse h nNonce ∧
    getExpectedIndex nNonce nChainId h = .ok nChainIndex

def madeFrom (hash : Bytes → uint256) (hashPair : uint256 → uint256 → uint256) (parent : CBlock)
    (coinbase : CTransaction) (leaves : List uint256) (h : ℕ) (nChainIndex : Int32) : CAuxPow where
  toCMerkleTx := CMerkleTx.initMerkleBranch hash hashPair ⟨coinbase, 0, [], 0⟩ parent 0
  vChainMerkleBranch := MerkleTree.branch hashPair h leaves nChainIndex.toInt.toNat
  nChainIndex := nChainIndex
  parentBlock := parent.header

/-- Honest merged mining passes the check, if the parent has another chain id or ours is not
strict. -/
theorem check_madeFrom (hash : Bytes → uint256) (hashPair : uint256 → uint256 → uint256)
    (params : Consensus.Params) (parent : CBlock) (coinbase : CTransaction) (hashAuxBlock : uint256)
    (nChainId : Int32) (leaves : List uint256) (h : ℕ) (nChainIndex : Int32)
    (hmined : MinedIn hash hashPair parent coinbase hashAuxBlock nChainId leaves h nChainIndex)
    (hid : parent.header.getChainId ≠ nChainId.toInt ∨ params.fStrictChainId = false) :
    check hash hashPair (madeFrom hash hashPair parent coinbase leaves h nChainIndex) hashAuxBlock
      nChainId params = .ok () := by
  obtain ⟨txin, chainRoot, pre, post, nNonce, hvin, hroot, hcommits, hindex⟩ := hmined.commits
  obtain ⟨hnonneg, -⟩ := getExpectedIndex_toInt hmined.height hindex
  obtain ⟨hfold, hlength⟩ := MerkleTree.root_eq_foldUp (H := hashPair) hmined.size hmined.leaf
  obtain ⟨rest, hvtx⟩ : ∃ rest, parent.vtx = coinbase :: rest :=
    head?_eq_some_iff.1 hmined.first
  -- the branch of the chain leads to the root in the script
  have hchain : checkMerkleBranch hashPair hashAuxBlock
      (MerkleTree.branch hashPair h leaves nChainIndex.toInt.toNat) nChainIndex = chainRoot := by
    have hne : nChainIndex ≠ -1 := by
      rintro rfl
      exact absurd hnonneg (by decide)
    rw [checkMerkleBranch, if_neg hne, ← Int.toNat_of_nonneg hnonneg, foldBranch_natCast]
    exact Option.some.inj (hfold.symm.trans hroot)
  have hparent := checkMerkleBranch_blockMerkleBranch hashPair (CTransaction.getHash hash) hvtx
  unfold check
  refine bind_eq_ok.2 ⟨(), errorIf_eq_ok.2 (decide_eq_false (not_not.2 rfl)), ?_⟩
  refine bind_eq_ok.2 ⟨(), errorIf_eq_ok.2 ?_, bind_eq_ok.2 ⟨(), errorIf_eq_ok.2 ?_, ?_⟩⟩
  · rcases hid with hid | hid
    · simp [madeFrom, hid]
    · simp [hid]
  · exact decide_eq_false (by rw [madeFrom, hlength]; exact not_lt.2 hmined.height)
  · refine bind_eq_ok.2 ⟨(), errorIf_eq_ok.2 (decide_eq_false (not_not.2 ?_)), ?_⟩
    · exact hparent.trans hmined.merkleRoot.symm
    · obtain ⟨vin, hvin⟩ := head?_eq_some_iff.1 hvin
      have hfirst : coinbase.firstInput = .ok txin := by
        rw [CTransaction.firstInput, hvin]
      refine bind_eq_ok.2 ⟨txin, orFault_eq_ok.2 hfirst, ?_⟩
      change checkScript txin.scriptSig (writeUint256 (checkMerkleBranch hashPair hashAuxBlock
        (MerkleTree.branch hashPair h leaves nChainIndex.toInt.toNat) nChainIndex)).reverse
        (MerkleTree.branch hashPair h leaves nChainIndex.toInt.toNat).length nChainIndex nChainId =
          .ok ()
      rw [hchain, hlength]
      exact hcommits.checkScript_ok hmined.height hindex

def sampleCoinbase : CTransaction where
  nVersion := 1
  vin := [⟨⟨0, 0xffffffff⟩, commitment (writeUint256 21).reverse 1 0, 0, []⟩]
  vout := []
  nLockTime := 0

def sampleParent : CBlock where
  header := ⟨1, 0, 15, 0, 0, 0⟩
  vtx := [sampleCoinbase, ⟨1, [], [], 0⟩]

theorem sampleCommits :
    Commits (commitment (writeUint256 21).reverse 1 0) [] [] (writeUint256 21).reverse 1 0 where
  layout := by simp
  header pos hprefix := by
    have hle := hprefix.length_le
    have hlength : (commitment (writeUint256 21).reverse 1 0).length = 44 := by decide +kernel
    have hfour : pchMergedMiningHeader.length = 4 := rfl
    rw [length_drop] at hle
    have honce : ∀ pos < 41, pchMergedMiningHeader <+:
        (commitment (writeUint256 21).reverse 1 0).drop pos → pos = 0 := by decide +kernel
    exact honce pos (by omega) hprefix
  root := by decide +kernel

theorem sampleMined :
    MinedIn (fun _ => 5) (fun a b => a + 2 * b) sampleParent sampleCoinbase 7 98 [7, 7] 1 0 where
  first := rfl
  merkleRoot := by decide +kernel
  height := by decide
  size := rfl
  leaf := rfl
  commits := by
    refine ⟨_, 21, [], [], 0, rfl, ?_, sampleCommits, by decide +kernel⟩
    rw [MerkleTree.root_pairUp _ (by decide)]
    exact MerkleTree.root_singleton _ _

theorem check_madeFrom_twoChains :
    check (fun _ => 5) (fun a b => a + 2 * b)
      (madeFrom (fun _ => 5) (fun a b => a + 2 * b) sampleParent sampleCoinbase [7, 7] 1 0) 7 98
      Consensus.mainAuxpowConsensus = .ok () :=
  check_madeFrom (fun _ => 5) (fun a b => a + 2 * b) Consensus.mainAuxpowConsensus sampleParent
    sampleCoinbase 7 98 [7, 7] 1 0 sampleMined (.inl (by decide))

end CAuxPow

end Coinyecoin
