import Coinyecoin.AuxPow.Check
import Mathlib.Data.Set.Function

/-!
# Merged-mining work is used once

A parent coinbase with a merged-mining header fixes all that `check` compares an aux
block with: the chain merkle root after the header, the size of the tree and the nonce
after the root, and by these the length of the branch and the slot. If no two pairs
that were hashed on the way collide, only one hash of an aux block leads to that root.

A pair of hashes has twice the width of a hash, so no pair hash is injective on all
pairs; what is asked for here is that it is injective on those that were hashed.
-/

namespace Coinyecoin

open Foundation

namespace CAuxPow

variable {nIndex : ℤ}

section

variable (hashPair : uint256 → uint256 → uint256)

def roundPair (hash : uint256) (nIndex : ℤ) (it : uint256) : uint256 × uint256 :=
  if nIndex % 2 = 1 then (it, hash) else (hash, it)

def hashedPairs (hash : uint256) (nIndex : ℤ) : List uint256 → List (uint256 × uint256)
  | [] => []
  | it :: vMerkleBranch =>
    let pair := roundPair hash nIndex it
    pair :: hashedPairs (Function.uncurry hashPair pair) (nIndex / 2) vMerkleBranch

def chainPairs (auxpow : CAuxPow) (hashAuxBlock : uint256) : Set (uint256 × uint256) :=
  {pair | pair ∈ hashedPairs hashPair hashAuxBlock auxpow.nChainIndex.toInt
    auxpow.vChainMerkleBranch}

variable {hashPair}

theorem foldBranch_cons (hash : uint256) (nIndex : ℤ) (it : uint256)
    (vMerkleBranch : List uint256) :
    foldBranch hashPair hash nIndex (it :: vMerkleBranch) =
      foldBranch hashPair (Function.uncurry hashPair (roundPair hash nIndex it)) (nIndex / 2)
        vMerkleBranch := by
  rw [foldBranch, roundPair]
  split_ifs <;> rfl

theorem roundPair_injective {hash hash' it it' : uint256}
    (h : roundPair hash nIndex it = roundPair hash' nIndex it') : hash = hash' := by
  unfold roundPair at h
  split_ifs at h
  · exact congrArg Prod.snd h
  · exact congrArg Prod.fst h

theorem foldBranch_injOn {S : Set (uint256 × uint256)}
    (hinj : S.InjOn (Function.uncurry hashPair)) {branch branch' : List uint256}
    (hlen : branch.length = branch'.length) {hash hash' : uint256}
    (hS : ∀ pair ∈ hashedPairs hashPair hash nIndex branch, pair ∈ S)
    (hS' : ∀ pair ∈ hashedPairs hashPair hash' nIndex branch', pair ∈ S)
    (hroot : foldBranch hashPair hash nIndex branch = foldBranch hashPair hash' nIndex branch') :
    hash = hash' := by
  induction branch generalizing branch' hash hash' nIndex with
  | nil =>
    rw [List.length_eq_zero_iff.1 hlen.symm] at hroot
    exact hroot
  | cons it branch ih =>
    cases branch' with
    | nil => exact absurd hlen (Nat.succ_ne_zero _)
    | cons it' branch' =>
      obtain ⟨hfirst, hrest⟩ := List.forall_mem_cons.1 hS
      obtain ⟨hfirst', hrest'⟩ := List.forall_mem_cons.1 hS'
      rw [foldBranch_cons, foldBranch_cons] at hroot
      have hnext := ih (Nat.succ_injective hlen) hrest hrest' hroot
      exact roundPair_injective (hinj hfirst hfirst' hnext)

end

section

variable {script : CScript} {u : Unit} {size : UInt32} {nChainId nChainIndex nChainIndex' : Int32}
  {u' : Unit}

theorem advance_eq_ok {pc n pc' : ℕ} (h : advance script pc n = .ok pc') : pc' = pc + n := by
  unfold advance at h
  split_ifs at h
  exact (Except.ok.inj h).symm

theorem search_of_checkHeader {pcHead pc : ℕ}
    (hhead : pcHead ≠ script.length) (h : checkHeader script pcHead pc = .ok u) :
    pc = pcHead + pchMergedMiningHeader.length := by
  rw [checkHeader, if_pos hhead] at h
  simp only [bind_eq_ok, orFault_eq_ok, errorIf_eq_ok, exists_const] at h
  obtain ⟨_, -, -, pcRoot, hroot, heq⟩ := h
  rw [← advance_eq_ok hroot]
  exact (not_not.1 (of_decide_eq_false heq)).symm

theorem toNat_shiftOne {count : ℕ} (h : shiftOne count = .ok size) : size.toNat = 2 ^ count := by
  unfold shiftOne at h
  split_ifs at h with hcount
  have hlt : 2 ^ count < 2 ^ 32 := Nat.pow_lt_pow_right (by decide) hcount
  rw [← Except.ok.inj h, UInt32.toNat_ofNat', Nat.mod_eq_of_lt hlt]

theorem shiftOne_injective {a b : ℕ} (ha : shiftOne a = .ok size)
    (hb : shiftOne b = .ok size) : a = b :=
  Nat.pow_right_injective le_rfl ((toNat_shiftOne ha).symm.trans (toNat_shiftOne hb))

theorem getExpectedIndex_ne_neg_one {nNonce : UInt32} {nChainId nIndex : Int32} {h : ℕ}
    (hh : h ≤ 30) (hok : getExpectedIndex nNonce nChainId h = .ok nIndex) : nIndex ≠ -1 := by
  obtain ⟨size, hsize, hindex⟩ := bind_eq_ok.1 hok
  intro hneg
  have hmod := congrArg Int32.toUInt32 ((Except.ok.inj hindex).trans hneg)
  rw [UInt32.toUInt32_toInt32] at hmod
  have hval := congrArg UInt32.toNat hmod
  rw [UInt32.toNat_mod, toNat_shiftOne hsize] at hval
  have hbound := Nat.mod_lt
    (((nNonce * 1103515245 + 12345 + nChainId.toUInt32) * 1103515245 + 12345).toNat)
    (Nat.two_pow_pos h)
  rw [hval] at hbound
  have hlt : 2 ^ h < 2 ^ 31 := Nat.pow_lt_pow_right (by decide) (by omega)
  have hmax : (Int32.toUInt32 (-1)).toNat = 2 ^ 32 - 1 := by decide
  omega

theorem checkSlot_eq {pc merkleHeight merkleHeight' : ℕ} (hheight : merkleHeight ≤ 30)
    (h : checkSlot script pc merkleHeight nChainIndex nChainId = .ok u)
    (h' : checkSlot script pc merkleHeight' nChainIndex' nChainId = .ok u') :
    merkleHeight = merkleHeight' ∧ nChainIndex = nChainIndex' ∧ nChainIndex ≠ -1 := by
  simp only [checkSlot, bind_eq_ok, orFault_eq_ok, errorIf_eq_ok, exists_const, ne_eq, decide_not,
    Bool.not_eq_false', decide_eq_true_eq] at h h'
  obtain ⟨-, nSize, hsize, size, hshift, rfl, nNonce, hnonce, nIndex, hindex, rfl⟩ := h
  obtain ⟨-, nSize', hsize', size', hshift', rfl, nNonce', hnonce', nIndex', hindex', rfl⟩ := h'
  obtain rfl : nSize = nSize' := Except.ok.inj (hsize.symm.trans hsize')
  obtain rfl : nNonce = nNonce' := Except.ok.inj (hnonce.symm.trans hnonce')
  obtain rfl := shiftOne_injective hshift hshift'
  exact ⟨rfl, Except.ok.inj (hindex.symm.trans hindex'), getExpectedIndex_ne_neg_one hheight hindex⟩

theorem checkScript_eq {vchRootHash vchRootHash' : Bytes} {merkleHeight merkleHeight' : ℕ}
    (hheader : pchMergedMiningHeader <:+: script)
    (hlen : vchRootHash.length = vchRootHash'.length) (hheight : merkleHeight ≤ 30)
    (h : checkScript script vchRootHash merkleHeight nChainIndex nChainId = .ok u)
    (h' : checkScript script vchRootHash' merkleHeight' nChainIndex' nChainId = .ok u') :
    vchRootHash = vchRootHash' ∧ merkleHeight = merkleHeight' ∧ nChainIndex = nChainIndex' ∧
      nChainIndex ≠ -1 := by
  have hhead := search_ne_length (List.cons_ne_nil _ _) hheader
  simp only [checkScript, bind_eq_ok, orFault_eq_ok, errorIf_eq_ok, exists_const] at h h'
  obtain ⟨hfound, _, hhdr, pc, hpc, hslot⟩ := h
  obtain ⟨hfound', _, hhdr', pc', hpc', hslot'⟩ := h'
  have hprefix := isPrefix_drop_search (of_decide_eq_false hfound)
  have hprefix' := isPrefix_drop_search (of_decide_eq_false hfound')
  rw [search_of_checkHeader hhead hhdr] at hprefix hpc
  rw [search_of_checkHeader hhead hhdr'] at hprefix' hpc'
  obtain rfl : vchRootHash = vchRootHash' :=
    (List.prefix_of_prefix_length_le hprefix hprefix' hlen.le).eq_of_length hlen
  obtain rfl : pc = pc' := (advance_eq_ok hpc).trans (advance_eq_ok hpc').symm
  exact ⟨rfl, checkSlot_eq hheight hslot hslot'⟩

end

theorem check_eq_ok {hash : Bytes → uint256} {hashPair : uint256 → uint256 → uint256}
    {auxpow : CAuxPow} {hashAuxBlock : uint256} {nChainId : Int32} {params : Consensus.Params}
    {u : Unit} (h : check hash hashPair auxpow hashAuxBlock nChainId params = .ok u) :
    auxpow.vChainMerkleBranch.length ≤ 30 ∧ ∃ txin, auxpow.tx.firstInput = .ok txin ∧
      checkScript txin.scriptSig (writeUint256 (checkMerkleBranch hashPair hashAuxBlock
        auxpow.vChainMerkleBranch auxpow.nChainIndex)).reverse auxpow.vChainMerkleBranch.length
        auxpow.nChainIndex nChainId = .ok u := by
  simp only [check, bind_eq_ok, orFault_eq_ok, errorIf_eq_ok, exists_const,
    decide_eq_false_iff_not, not_lt] at h
  obtain ⟨-, -, hlen, -, txin, htxin, hscript⟩ := h
  exact ⟨hlen, txin, htxin, hscript⟩

/-- Two auxpows that carry the same parent coinbase, with a merged-mining header in its
script, and pass the check for our chain do so for the same aux block, whatever their
branches, indices and parent headers are: provided that no two of the pairs hashed for
the two chain merkle roots collide. -/
theorem merged_work_not_reusable (hash : Bytes → uint256)
    (hashPair : uint256 → uint256 → uint256) (t : CTransaction) (txin : CTxIn)
    (vin : List CTxIn) (hvin : t.vin = txin :: vin)
    (hheader : pchMergedMiningHeader <:+: txin.scriptSig) (nChainId : Int32)
    (params params' : Consensus.Params) (auxpow auxpow' : CAuxPow) (htx : auxpow.tx = t)
    (htx' : auxpow'.tx = t) (hashAuxBlock hashAuxBlock' : uint256)
    (hinj : (auxpow.chainPairs hashPair hashAuxBlock ∪
      auxpow'.chainPairs hashPair hashAuxBlock').InjOn (Function.uncurry hashPair))
    (hcheck : check hash hashPair auxpow hashAuxBlock nChainId params = .ok ())
    (hcheck' : check hash hashPair auxpow' hashAuxBlock' nChainId params' = .ok ()) :
    hashAuxBlock = hashAuxBlock' := by
  have hfirst : t.firstInput = .ok txin := by rw [CTransaction.firstInput, hvin]
  obtain ⟨hlen, txin₁, htxin, hscript⟩ := check_eq_ok hcheck
  obtain ⟨hlen', txin₂, htxin', hscript'⟩ := check_eq_ok hcheck'
  rw [htx, hfirst] at htxin
  rw [htx', hfirst] at htxin'
  obtain rfl := Except.ok.inj htxin
  obtain rfl := Except.ok.inj htxin'
  obtain ⟨hroot, hheight, hindex, hne⟩ :=
    checkScript_eq hheader (by simp [writeUint256]) hlen hscript hscript'
  have hfold := writeUint256_injective (List.reverse_injective hroot)
  rw [checkMerkleBranch, checkMerkleBranch, if_neg hne, if_neg (hindex ▸ hne), hindex] at hfold
  refine foldBranch_injOn hinj hheight ?_ (fun pair hpair => .inr hpair) hfold
  rw [← hindex]
  exact fun pair hpair => .inl hpair

def sumPair (x y : uint256) : uint256 := 3 * x + y

/-- A coinbase with the root of the tree with leaves 7 and 5, the size 2 and the nonce 1
after the merged-mining header. -/
def sampleParentCoinbase : CTransaction where
  nVersion := 1
  vin := [⟨⟨0, 0xffffffff⟩, pchMergedMiningHeader ++ (List.replicate 31 0 ++ [26]) ++
    [2, 0, 0, 0] ++ [1, 0, 0, 0], 0xffffffff, []⟩]
  vout := []
  nLockTime := 0

def sampleAuxPow (nNonce : UInt32) : CAuxPow where
  tx := sampleParentCoinbase
  hashBlock := 0
  vMerkleBranch := []
  nIndex := 0
  vChainMerkleBranch := [7]
  nChainIndex := 1
  parentBlock := ⟨1, 0, sampleParentCoinbase.getHash lengthHash, 0, 0, nNonce⟩

theorem merged_work_not_reusable_sample :
    pchMergedMiningHeader <:+: (sampleParentCoinbase.vin.flatMap CTxIn.scriptSig) ∧
      check lengthHash sumPair (sampleAuxPow 1) 5 0x62 Consensus.mainConsensus = .ok () ∧
      check lengthHash sumPair (sampleAuxPow 2) 5 0x62 Consensus.mainConsensus = .ok () ∧
      (5 : uint256) = 5 := by
  have hheader : pchMergedMiningHeader <:+: (sampleParentCoinbase.vin.flatMap CTxIn.scriptSig) := by
    decide +kernel
  have hcheck (nNonce : UInt32) (h : nNonce = 1 ∨ nNonce = 2) :
      check lengthHash sumPair (sampleAuxPow nNonce) 5 0x62 Consensus.mainConsensus = .ok () := by
    rcases h with rfl | rfl <;> decide +kernel
  have hpairs (nNonce : UInt32) : (sampleAuxPow nNonce).chainPairs sumPair 5 = {(7, 5)} := by
    ext pair
    exact List.mem_singleton
  refine ⟨hheader, hcheck 1 (.inl rfl), hcheck 2 (.inr rfl), ?_⟩
  refine merged_work_not_reusable lengthHash sumPair sampleParentCoinbase _ [] rfl
    (by simpa [sampleParentCoinbase] using hheader) 0x62 Consensus.mainConsensus
    Consensus.mainConsensus (sampleAuxPow 1) (sampleAuxPow 2) rfl rfl 5 5 ?_
    (hcheck 1 (.inl rfl)) (hcheck 2 (.inr rfl))
  rw [hpairs, hpairs, Set.union_self]
  exact Set.injOn_singleton _ _

end CAuxPow

end Coinyecoin
