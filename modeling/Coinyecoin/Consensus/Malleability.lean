import Coinyecoin.Consensus.Merkle
import Coinyecoin.Foundation.MerkleBinding

/-!
# Merkle malleability

Lists of transaction hashes that differ can have the same Merkle root, since the
last hash of an odd level is paired with itself. `ComputeMerkleRoot` reports one
of the two as mutated. So a header leaves one list of transactions that passes
the Merkle tests of `CheckBlock`.

A pair hash to 256 bits is not injective. What is asked for is that no two of
the pairs hashed for the two roots collide and that none of them hashes to a
transaction hash.
-/

namespace Coinyecoin

namespace Merkle

open Foundation

/-- The pairs hashed for the roots of two lists have different hashes, none of which is in the
lists. -/
structure CollisionFree (hashPair : uint256 → uint256 → uint256) (A B : List uint256) : Prop where
  injOn : (MerkleTree.hashed hashPair A ∪ MerkleTree.hashed hashPair B).InjOn
    (Function.uncurry hashPair)
  not_leaf : ∀ leaf ∈ A ++ B, ∀ p ∈ MerkleTree.hashed hashPair A ∪ MerkleTree.hashed hashPair B,
    Function.uncurry hashPair p ≠ leaf

variable {hashPair : uint256 → uint256 → uint256}

theorem eq_of_computeMerkleRoot_eq {A B : List uint256} (hA : A ≠ []) (hB : B ≠ [])
    (hfree : CollisionFree hashPair A B)
    (hroot : (computeMerkleRoot hashPair A).1 = (computeMerkleRoot hashPair B).1)
    (hmutA : (computeMerkleRoot hashPair A).2 = false)
    (hmutB : (computeMerkleRoot hashPair B).2 = false) : A = B := by
  refine MerkleTree.eq_of_root_eq hA hB Set.subset_union_left Set.subset_union_right hfree.injOn
    (fun leaf hleaf => hfree.not_leaf leaf (List.mem_append_left _ hleaf))
    (fun leaf hleaf => hfree.not_leaf leaf (List.mem_append_right _ hleaf))
    ((computeMerkleRoot_mutated hashPair A).1 hmutA)
    ((computeMerkleRoot_mutated hashPair B).1 hmutB) ?_
  rw [← computeMerkleRoot_root hA, ← computeMerkleRoot_root hB, hroot]

def CheckEnv.UsesHash (env : CheckEnv) (hashPair : uint256 → uint256 → uint256) : Prop :=
  ∀ block, env.blockMerkleRoot block = blockMerkleRoot hashPair env.getHash block

/-- Two lists of hashes with one root are equal or one of them is reported as mutated, and two
blocks with one header that pass `CheckBlock` have the same transaction hashes. -/
theorem malleability_caught (hashPair : uint256 → uint256 → uint256) :
    (∀ A B : List uint256, A ≠ [] → B ≠ [] → CollisionFree hashPair A B →
      (computeMerkleRoot hashPair A).1 = (computeMerkleRoot hashPair B).1 →
      (computeMerkleRoot hashPair A).2 = false → (computeMerkleRoot hashPair B).2 = false →
      A = B) ∧
    ∀ (env : CheckEnv) (block block' : CBlock) (fCheckPOW fCheckPOW' : Bool),
      CheckEnv.UsesHash env hashPair → block.header = block'.header →
      CollisionFree hashPair (block.vtx.map env.getHash) (block'.vtx.map env.getHash) →
      checkBlock env block fCheckPOW true = .ok () →
      checkBlock env block' fCheckPOW' true = .ok () →
      block.vtx.map env.getHash = block'.vtx.map env.getHash := by
  refine ⟨fun A B => eq_of_computeMerkleRoot_eq, ?_⟩
  intro env block block' fCheckPOW fCheckPOW' henv hheader hfree hblock hblock'
  have hpassed : ∀ {b : CBlock} {pow : Bool}, checkBlock env b pow true = .ok () →
      b.vtx.map env.getHash ≠ [] ∧
        b.header.hashMerkleRoot = (computeMerkleRoot hashPair (b.vtx.map env.getHash)).1 ∧
        (computeMerkleRoot hashPair (b.vtx.map env.getHash)).2 = false := by
    intro b pow hb
    obtain ⟨-, hmerkle, -, ⟨tx, rest, hvtx, -⟩, -⟩ := checkBlock_eq_ok.1 hb
    obtain ⟨hroot, hmutated⟩ := hmerkle rfl
    rw [henv b] at hroot hmutated
    exact ⟨by simp [hvtx], hroot, hmutated⟩
  obtain ⟨hne, hroot, hmutated⟩ := hpassed hblock
  obtain ⟨hne', hroot', hmutated'⟩ := hpassed hblock'
  exact eq_of_computeMerkleRoot_eq hne hne' hfree
    (hroot.symm.trans ((congrArg CPureBlockHeader.hashMerkleRoot hheader).trans hroot'))
    hmutated hmutated'

def sampleHash (a b : uint256) : uint256 := 1000 + 100 * a + b

def sampleCheckEnv : CheckEnv where
  getHash tx := BitVec.ofNat 256 tx.nLockTime.toNat
  getSerializeSize tx := tx.vout.length
  vout_length_le _ := le_rfl
  getBlockSize block := block.vtx.length
  checkAuxPowProofOfWork _ := true
  blockMerkleRoot := blockMerkleRoot sampleHash fun tx => BitVec.ofNat 256 tx.nLockTime.toNat
  getLegacySigOpCount _ := 0

def sampleBlock : CBlock where
  header := ⟨1, 0, 7, 0, 0, 0⟩
  vtx := [⟨1, [⟨⟨0, 0xffffffff⟩, [1, 2], 0, []⟩], [⟨10, []⟩], 7⟩]

theorem mem_hashed_sample {p : uint256 × uint256}
    (hp : p ∈ MerkleTree.hashed sampleHash [1, 2, 3]) :
    p ∈ [((1 : uint256), (2 : uint256)), (3, 3), (1102, 1303)] := by
  obtain ⟨level, hbelow, hmem⟩ := hp
  match level, hbelow, hmem with
  | 0, _, hmem => exact List.mem_of_mem_take (i := 2) hmem
  | 1, _, hmem => exact List.mem_of_mem_drop (i := 2) hmem
  | level + 2, hbelow, _ => exact absurd (hbelow 2 (by omega)) (by decide)

theorem malleability_caught_sample :
    CollisionFree sampleHash [1, 2, 3] [1, 2, 3] ∧
      checkBlock sampleCheckEnv sampleBlock true true = .ok () ∧
      [(1 : uint256), 2, 3] = [1, 2, 3] ∧
      sampleBlock.vtx.map sampleCheckEnv.getHash = sampleBlock.vtx.map sampleCheckEnv.getHash := by
  have hinj : ∀ p ∈ [((1 : uint256), (2 : uint256)), (3, 3), (1102, 1303)],
      ∀ q ∈ [((1 : uint256), (2 : uint256)), (3, 3), (1102, 1303)],
        Function.uncurry sampleHash p = Function.uncurry sampleHash q → p = q := by
    simp [sampleHash]
  have hleaf : ∀ p ∈ [((1 : uint256), (2 : uint256)), (3, 3), (1102, 1303)],
      Function.uncurry sampleHash p ∉ [(1 : uint256), 2, 3, 1, 2, 3] := by
    simp [sampleHash]
  have hfree : CollisionFree sampleHash [1, 2, 3] [1, 2, 3] := by
    constructor
    · rw [Set.union_self]
      exact fun p hp q hq => hinj p (mem_hashed_sample hp) q (mem_hashed_sample hq)
    · rw [Set.union_self]
      exact fun leaf hmem p hp heq => hleaf p (mem_hashed_sample hp) (heq ▸ hmem)
  have hsingle : CollisionFree sampleHash (sampleBlock.vtx.map sampleCheckEnv.getHash)
      (sampleBlock.vtx.map sampleCheckEnv.getHash) := by
    have hnone : MerkleTree.hashed sampleHash (sampleBlock.vtx.map sampleCheckEnv.getHash) = ∅ :=
      Set.eq_empty_of_forall_notMem fun p ⟨level, hbelow, _⟩ =>
        absurd (hbelow 0 (Nat.succ_pos level)) (by decide)
    constructor
    · simp [hnone]
    · simp [hnone]
  have hblock : checkBlock sampleCheckEnv sampleBlock true true = .ok () := by decide
  exact ⟨hfree, hblock, (malleability_caught sampleHash).1 _ _ (by decide) (by decide) hfree rfl
    (by decide) (by decide), (malleability_caught sampleHash).2 sampleCheckEnv sampleBlock
    sampleBlock true true (fun _ => rfl) rfl hsingle hblock hblock⟩

example : computeMerkleRoot sampleHash [1, 2, 3, 3] =
    ((computeMerkleRoot sampleHash [1, 2, 3]).1, true) := by decide

end Merkle

end Coinyecoin
