import Coinyecoin.Consensus.Networks
import Mathlib.Order.Lattice

/-!
# The lookup in a tree of parameters

What `GetConsensus` finds in any search tree of parameter records. A subtree in
which nothing is in force yet still returns one of its records; the step to the
right checks for this and the step to the left does not have to.
-/

namespace Coinyecoin

namespace Consensus

namespace ConsensusNode

inductive Holds (q : Params) : ConsensusNode → Prop
  | here (pLeft pRight : Option ConsensusNode) : Holds q (.mk q pLeft pRight)
  | left {params : Params} {node : ConsensusNode} {pRight : Option ConsensusNode} :
      Holds q node → Holds q (.mk params (some node) pRight)
  | right {params : Params} {pLeft : Option ConsensusNode} {node : ConsensusNode} :
      Holds q node → Holds q (.mk params pLeft (some node))

/-- Smaller effective heights are on the left and larger ones on the right. -/
inductive IsSearchTree : ConsensusNode → Prop
  | mk {params : Params} {pLeft pRight : Option ConsensusNode}
      (left : ∀ node ∈ pLeft, IsSearchTree node)
      (smaller : ∀ node ∈ pLeft, ∀ q, Holds q node →
        q.nHeightEffective < params.nHeightEffective)
      (right : ∀ node ∈ pRight, IsSearchTree node)
      (larger : ∀ node ∈ pRight, ∀ q, Holds q node →
        params.nHeightEffective < q.nHeightEffective) :
      IsSearchTree (.mk params pLeft pRight)

structure InForceAt (root : ConsensusNode) (nTargetHeight : ℕ) (q : Params) : Prop where
  holds : root.Holds q
  reached : q.nHeightEffective ≤ nTargetHeight
  last : ∀ other, root.Holds other → other.nHeightEffective ≤ nTargetHeight →
    other = q ∨ other.nHeightEffective < q.nHeightEffective

end ConsensusNode

open ConsensusNode

variable {params : Params} {pLeft pRight : Option ConsensusNode} {nTargetHeight : ℕ}

section

variable {node : ConsensusNode}

theorem getConsensus_left (hlt : nTargetHeight < params.nHeightEffective) :
    getConsensus nTargetHeight (.mk params (some node) pRight) =
      getConsensus nTargetHeight node := by
  cases pRight <;> simp only [getConsensus, hlt, if_true]

theorem getConsensus_of_le (hle : params.nHeightEffective ≤ nTargetHeight) :
    getConsensus nTargetHeight (.mk params pLeft pRight) =
      getConsensus nTargetHeight (.mk params none pRight) := by
  cases pLeft with
  | none => rfl
  | some node => cases pRight <;> simp only [getConsensus, not_lt.2 hle, if_false]

theorem getConsensus_leaf : getConsensus nTargetHeight (.mk params none none) = params := by
  simp only [getConsensus]

theorem getConsensus_right :
    getConsensus nTargetHeight (.mk params none (some node)) =
      if params.nHeightEffective < nTargetHeight ∧
          (getConsensus nTargetHeight node).nHeightEffective ≤ nTargetHeight
      then getConsensus nTargetHeight node else params := by
  simp only [getConsensus, gt_iff_lt, ite_and]

end

/-- A subtree gives the record in force, or one of its records if none is in force yet. -/
structure Found (root : ConsensusNode) (nTargetHeight : ℕ) (q : Params) : Prop where
  holds : root.Holds q
  last : q.nHeightEffective ≤ nTargetHeight → InForceAt root nTargetHeight q
  early : nTargetHeight < q.nHeightEffective →
    ∀ other, root.Holds other → nTargetHeight < other.nHeightEffective

section

variable {root node : ConsensusNode} {q : Params}

theorem Found.of_left {pRight : Option ConsensusNode}
    (htree : IsSearchTree (.mk params (some node) pRight))
    (hlt : nTargetHeight < params.nHeightEffective) (hnode : Found node nTargetHeight q) :
    Found (.mk params (some node) pRight) nTargetHeight q := by
  obtain ⟨-, -, -, hlarger⟩ := htree
  refine ⟨.left hnode.holds, fun hle => ⟨.left hnode.holds, hle, ?_⟩, fun hearly => ?_⟩
  · intro other hother hle'
    cases hother with
    | here => omega
    | left hother => exact (hnode.last hle).last other hother hle'
    | right hother =>
      have := hlarger _ rfl other hother
      omega
  · intro other hother
    cases hother with
    | here => exact hlt
    | left hother => exact hnode.early hearly other hother
    | right hother => exact hlt.trans (hlarger _ rfl other hother)

theorem Found.of_right {pLeft : Option ConsensusNode}
    (htree : IsSearchTree (.mk params pLeft (some node)))
    (hnode : Found node nTargetHeight q) (hle : q.nHeightEffective ≤ nTargetHeight) :
    Found (.mk params pLeft (some node)) nTargetHeight q := by
  obtain ⟨-, hsmaller, -, hlarger⟩ := htree
  have hparams := hlarger _ rfl q hnode.holds
  refine ⟨.right hnode.holds, fun _ => ⟨.right hnode.holds, hle, ?_⟩, fun h => by omega⟩
  intro other hother hle'
  cases hother with
  | here => exact .inr hparams
  | left hother => exact .inr ((hsmaller _ rfl other hother).trans hparams)
  | right hother => exact (hnode.last hle).last other hother hle'

theorem Found.of_node (htree : IsSearchTree (.mk params pLeft pRight))
    (hle : params.nHeightEffective ≤ nTargetHeight)
    (hright : ∀ node ∈ pRight, ∀ other, node.Holds other →
      nTargetHeight < other.nHeightEffective) :
    Found (.mk params pLeft pRight) nTargetHeight params := by
  obtain ⟨-, hsmaller, -, -⟩ := htree
  refine ⟨.here _ _, fun _ => ⟨.here _ _, hle, ?_⟩, fun h => by omega⟩
  intro other hother hle'
  cases hother with
  | here => exact .inl rfl
  | left hother => exact .inr (hsmaller _ rfl other hother)
  | right hother =>
    have := hright _ rfl other hother
    omega

theorem Found.of_no_left (htree : IsSearchTree (.mk params none pRight))
    (hlt : nTargetHeight < params.nHeightEffective) :
    Found (.mk params none pRight) nTargetHeight params := by
  obtain ⟨-, -, -, hlarger⟩ := htree
  refine ⟨.here _ _, fun h => by omega, fun _ other hother => ?_⟩
  cases hother with
  | here => exact hlt
  | right hother => exact hlt.trans (hlarger _ rfl other hother)

end

theorem found_getConsensus {root : ConsensusNode} (htree : IsSearchTree root) :
    Found root nTargetHeight (getConsensus nTargetHeight root) := by
  -- on the tree; the target is before the node's height, or the left subtree does not matter
  induction htree with
  | @mk params pLeft pRight left smaller right larger ihLeft ihRight =>
    have htree := IsSearchTree.mk left smaller right larger
    rcases lt_or_ge nTargetHeight params.nHeightEffective with hlt | hle
    · cases pLeft with
      | some node =>
        rw [getConsensus_left hlt]
        exact .of_left htree hlt (ihLeft node rfl)
      | none =>
        cases pRight with
        | none =>
          rw [getConsensus_leaf]
          exact .of_no_left htree hlt
        | some node =>
          rw [getConsensus_right, if_neg (fun h => by omega)]
          exact .of_no_left htree hlt
    · rw [getConsensus_of_le hle]
      cases pRight with
      | none =>
        rw [getConsensus_leaf]
        exact .of_node htree hle (by simp)
      | some node =>
        rw [getConsensus_right]
        split_ifs with hif
        · exact .of_right htree (ihRight node rfl) hif.2
        · refine .of_node htree hle ?_
          rintro _ ⟨⟩ other hother
          rcases hle.lt_or_eq with hlt | heq
          · have hlate := not_le.1 fun hcandidate => hif ⟨hlt, hcandidate⟩
            exact (ihRight node rfl).early hlate other hother
          · have := larger node rfl other hother
            omega

/-- If anything is in force at a height, the lookup finds what was put in force last. -/
theorem getConsensus_inForceAt {root : ConsensusNode} (htree : IsSearchTree root)
    (hreached : ∃ q, root.Holds q ∧ q.nHeightEffective ≤ nTargetHeight) :
    InForceAt root nTargetHeight (getConsensus nTargetHeight root) := by
  have hfound : Found root nTargetHeight (getConsensus nTargetHeight root) :=
    found_getConsensus htree
  obtain ⟨q, hq, hle⟩ := hreached
  refine hfound.last (not_lt.1 fun hlate => ?_)
  exact absurd (hfound.early hlate q hq) (not_lt.2 hle)

theorem isSearchTree_leaf : IsSearchTree (.mk params none none) :=
  .mk (by simp) (by simp) (by simp) (by simp)

theorem eq_of_holds_leaf {q : Params} (h : (ConsensusNode.mk params none none).Holds q) :
    q = params := by
  cases h
  rfl

theorem isSearchTree_pConsensusRoot (net : Network) : IsSearchTree net.pConsensusRoot := by
  have hpair : ∀ {first second third : Params},
      first.nHeightEffective < second.nHeightEffective →
      second.nHeightEffective < third.nHeightEffective →
      IsSearchTree (.mk second (some (.mk first none none)) (some (.mk third none none))) := by
    intro first second third hfirst hthird
    refine .mk ?_ ?_ ?_ ?_
    · rintro _ ⟨⟩
      exact isSearchTree_leaf
    · rintro _ ⟨⟩ q hq
      rwa [eq_of_holds_leaf hq]
    · rintro _ ⟨⟩
      exact isSearchTree_leaf
    · rintro _ ⟨⟩ q hq
      rwa [eq_of_holds_leaf hq]
  cases net with
  | main => exact hpair (by decide) (by decide)
  | regtest => exact hpair (by decide) (by decide)
  | test =>
    refine .mk ?_ ?_ ?_ ?_
    · rintro _ ⟨⟩
      exact isSearchTree_leaf
    · rintro _ ⟨⟩ q hq
      rw [eq_of_holds_leaf hq]
      decide
    · rintro _ ⟨⟩
      refine .mk (by simp) (by simp) ?_ ?_
      · rintro _ ⟨⟩
        exact isSearchTree_leaf
      · rintro _ ⟨⟩ q hq
        rw [eq_of_holds_leaf hq]
        decide
    · rintro _ ⟨⟩ q hq
      cases hq with
      | here => decide
      | right hq =>
        rw [eq_of_holds_leaf hq]
        decide

/-- Block 157600 of the test network, after three of its four eras began. -/
theorem getConsensus_inForceAt_test :
    InForceAt Network.test.pConsensusRoot 157600 (Network.test.getConsensus 157600) :=
  getConsensus_inForceAt (isSearchTree_pConsensusRoot .test)
    ⟨testConsensus, .left (.here none none), by decide⟩

end Consensus

end Coinyecoin
