import Coinyecoin.Basic.Fault

/-!
# Consensus parameters

`Params` holds the fields of `Consensus::Params` that the modelled functions
read. The source keeps one record for each era of a network and links the
records into a binary search tree by the height from which each applies;
`ConsensusNode` is that tree, and `getConsensus` is the lookup
`Consensus::Params::GetConsensus`.
-/

namespace Coinyecoin

/-- A 256-bit blob, read as the little-endian number `UintToArith256` gives. -/
abbrev uint256 := BitVec 256

namespace Consensus

inductive DeploymentPos where
  | testdummy
  | csv
  | segwit
deriving DecidableEq, Repr

structure BIP9Deployment where
  bit : ℕ
  nStartTime : ℤ
  nTimeout : ℤ
deriving DecidableEq, Repr

structure Deployments where
  testdummy : BIP9Deployment
  csv : BIP9Deployment
  segwit : BIP9Deployment
deriving DecidableEq, Repr

def Deployments.get (vDeployments : Deployments) : DeploymentPos → BIP9Deployment
  | .testdummy => vDeployments.testdummy
  | .csv => vDeployments.csv
  | .segwit => vDeployments.segwit

structure Params where
  nSubsidyHalvingInterval : ℤ
  nMajorityRejectBlockOutdated : ℕ
  nMajorityWindow : ℕ
  BIP34Height : ℤ
  BIP34Hash : uint256
  BIP66Height : ℤ
  nRuleChangeActivationThreshold : ℕ
  nMinerConfirmationWindow : ℕ
  vDeployments : Deployments
  nCoinbaseMaturity : ℕ
  powLimit : uint256
  fPowAllowMinDifficultyBlocks : Bool
  fPowNoRetargeting : Bool
  nPowTargetSpacing : ℤ
  nPowTargetTimespan : ℤ
  fDigishieldDifficultyCalculation : Bool
  fPowAllowDigishieldMinDifficultyBlocks : Bool
  fSimplifiedRewards : Bool
  nAuxpowChainId : ℤ
  fStrictChainId : Bool
  fAllowLegacyBlocks : Bool
  nHeightEffective : ℕ
deriving DecidableEq, Repr

def Params.difficultyAdjustmentInterval (params : Params) : Except Fault ℤ :=
  checkedDiv params.nPowTargetTimespan params.nPowTargetSpacing

/-- The binary search tree of parameter records; `none` is a null child. -/
inductive ConsensusNode where
  | mk (params : Params) (pLeft pRight : Option ConsensusNode)

/-- `Consensus::Params::GetConsensus`: a smaller height goes left, a larger one
goes right and comes back when the right subtree has nothing in force yet. -/
def getConsensus (nTargetHeight : ℕ) : ConsensusNode → Params
  | .mk params pLeft pRight =>
    let noLeft : Params :=
      match pRight with
      | some pRight =>
        if nTargetHeight > params.nHeightEffective then
          let pCandidate := getConsensus nTargetHeight pRight
          if pCandidate.nHeightEffective ≤ nTargetHeight then pCandidate else params
        else params
      | none => params
    match pLeft with
    | some pLeft =>
      if nTargetHeight < params.nHeightEffective then getConsensus nTargetHeight pLeft
      else noLeft
    | none => noLeft

end Consensus

end Coinyecoin
