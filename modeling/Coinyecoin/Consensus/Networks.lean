import Coinyecoin.Consensus.Params

/-!
# The parameters of the three networks

The records that the constructors `CMainParams`, `CTestNetParams` and
`CRegTestParams` fill in, each era written as an update of the one before it,
and the search trees they assemble. The three objects have static storage, so a
field the constructor leaves alone is zero: `fSimplifiedRewards` of the first
main and test eras, `nHeightEffective` of the first regtest era.
-/

namespace Coinyecoin

namespace Consensus

inductive Network where
  | main
  | test
  | regtest
deriving DecidableEq, Repr

def mainConsensus : Params where
  nSubsidyHalvingInterval := 100000
  nMajorityRejectBlockOutdated := 1900
  nMajorityWindow := 2000
  BIP34Height := 4034383
  BIP34Hash := 0
  BIP66Height := 4034383
  nRuleChangeActivationThreshold := 9576
  nMinerConfirmationWindow := 10080
  vDeployments :=
    { testdummy := ⟨28, 1199145601, 1230767999⟩
      csv := ⟨0, 1672531200, 1701388800⟩
      segwit := ⟨1, 1672531200, 0⟩ }
  nCoinbaseMaturity := 30
  powLimit := 0x00000fffffffffffffffffffffffffffffffffffffffffffffffffffffffffff
  fPowAllowMinDifficultyBlocks := false
  fPowNoRetargeting := false
  nPowTargetSpacing := 90
  nPowTargetTimespan := 12 * 60 * 60
  fDigishieldDifficultyCalculation := false
  fPowAllowDigishieldMinDifficultyBlocks := false
  fSimplifiedRewards := false
  nAuxpowChainId := 0x0062
  fStrictChainId := true
  fAllowLegacyBlocks := true
  nHeightEffective := 0

def mainDigishieldConsensus : Params :=
  { mainConsensus with
    nHeightEffective := 4000000
    fSimplifiedRewards := true
    fDigishieldDifficultyCalculation := false
    nPowTargetTimespan := 60
    nCoinbaseMaturity := 30 }

def mainAuxpowConsensus : Params :=
  { mainDigishieldConsensus with
    nHeightEffective := 4000001
    fAllowLegacyBlocks := false }

def testConsensus : Params where
  nSubsidyHalvingInterval := 100000
  nMajorityRejectBlockOutdated := 750
  nMajorityWindow := 1000
  BIP34Height := 708658
  BIP34Hash := 0
  BIP66Height := 708658
  nRuleChangeActivationThreshold := 2880
  nMinerConfirmationWindow := 10080
  vDeployments :=
    { testdummy := ⟨28, 1199145601, 1230767999⟩
      csv := ⟨0, 1456790400, 1493596800⟩
      segwit := ⟨1, 1462060800, 0⟩ }
  nCoinbaseMaturity := 30
  powLimit := 0x00000fffffffffffffffffffffffffffffffffffffffffffffffffffffffffff
  fPowAllowMinDifficultyBlocks := true
  fPowNoRetargeting := false
  nPowTargetSpacing := 90
  nPowTargetTimespan := 12 * 60 * 60
  fDigishieldDifficultyCalculation := false
  fPowAllowDigishieldMinDifficultyBlocks := false
  fSimplifiedRewards := false
  nAuxpowChainId := 0x0062
  fStrictChainId := false
  fAllowLegacyBlocks := true
  nHeightEffective := 0

def testDigishieldConsensus : Params :=
  { testConsensus with
    nHeightEffective := 145000
    nPowTargetTimespan := 60
    fDigishieldDifficultyCalculation := true
    fSimplifiedRewards := true
    fPowAllowMinDifficultyBlocks := false
    nCoinbaseMaturity := 240 }

def testMinDifficultyConsensus : Params :=
  { testDigishieldConsensus with
    nHeightEffective := 157500
    fPowAllowDigishieldMinDifficultyBlocks := true
    fPowAllowMinDifficultyBlocks := true }

def testAuxpowConsensus : Params :=
  { testMinDifficultyConsensus with
    nHeightEffective := 158100
    fPowAllowDigishieldMinDifficultyBlocks := true
    fAllowLegacyBlocks := false }

def regtestConsensus : Params where
  nSubsidyHalvingInterval := 100
  nMajorityRejectBlockOutdated := 950
  nMajorityWindow := 1000
  BIP34Height := 100000000
  BIP34Hash := 0
  BIP66Height := 1251
  nRuleChangeActivationThreshold := 540
  nMinerConfirmationWindow := 720
  vDeployments :=
    { testdummy := ⟨28, 0, 999999999999⟩
      csv := ⟨0, 0, 999999999999⟩
      segwit := ⟨1, 0, 999999999999⟩ }
  nCoinbaseMaturity := 60
  powLimit := 0x7fffffffffffffffffffffffffffffffffffffffffffffffffffffffffffffff
  fPowAllowMinDifficultyBlocks := true
  fPowNoRetargeting := true
  nPowTargetSpacing := 1
  nPowTargetTimespan := 12 * 60 * 60
  fDigishieldDifficultyCalculation := false
  fPowAllowDigishieldMinDifficultyBlocks := false
  fSimplifiedRewards := true
  nAuxpowChainId := 0x0062
  fStrictChainId := true
  fAllowLegacyBlocks := true
  nHeightEffective := 0

def regtestDigishieldConsensus : Params :=
  { regtestConsensus with
    nHeightEffective := 10
    nPowTargetTimespan := 1
    fDigishieldDifficultyCalculation := true }

def regtestAuxpowConsensus : Params :=
  { regtestDigishieldConsensus with
    fAllowLegacyBlocks := false
    nHeightEffective := 20 }

def Network.pConsensusRoot : Network → ConsensusNode
  | .main =>
    .mk mainDigishieldConsensus
      (some (.mk mainConsensus none none))
      (some (.mk mainAuxpowConsensus none none))
  | .test =>
    .mk testDigishieldConsensus
      (some (.mk testConsensus none none))
      (some (.mk testMinDifficultyConsensus none
        (some (.mk testAuxpowConsensus none none))))
  | .regtest =>
    .mk regtestDigishieldConsensus
      (some (.mk regtestConsensus none none))
      (some (.mk regtestAuxpowConsensus none none))

def Network.getConsensus (net : Network) (nTargetHeight : ℕ) : Params :=
  Consensus.getConsensus nTargetHeight net.pConsensusRoot

theorem nHeightEffective_eras :
    mainDigishieldConsensus.nHeightEffective = 4000000 ∧
      mainAuxpowConsensus.nHeightEffective = 4000001 ∧
      testDigishieldConsensus.nHeightEffective = 145000 ∧
      testMinDifficultyConsensus.nHeightEffective = 157500 ∧
      testAuxpowConsensus.nHeightEffective = 158100 ∧
      regtestDigishieldConsensus.nHeightEffective = 10 ∧
      regtestAuxpowConsensus.nHeightEffective = 20 := by
  decide

variable (h : ℕ)

theorem getConsensus_main :
    Network.main.getConsensus h =
      if h < 4000000 then mainConsensus
      else if h < 4000001 then mainDigishieldConsensus
      else mainAuxpowConsensus := by
  obtain ⟨e₁, e₂, -⟩ := nHeightEffective_eras
  simp only [Network.getConsensus, Network.pConsensusRoot, Consensus.getConsensus, e₁, e₂]
  split_ifs <;> first | rfl | omega

theorem getConsensus_test :
    Network.test.getConsensus h =
      if h < 145000 then testConsensus
      else if h < 157500 then testDigishieldConsensus
      else if h < 158100 then testMinDifficultyConsensus
      else testAuxpowConsensus := by
  obtain ⟨-, -, e₁, e₂, e₃, -⟩ := nHeightEffective_eras
  simp only [Network.getConsensus, Network.pConsensusRoot, Consensus.getConsensus, e₁, e₃]
  by_cases h₃ : 158100 ≤ h
  · simp only [h₃, if_true, e₂]
    split_ifs <;> first | rfl | omega
  · simp only [h₃, if_false, ite_self, e₂]
    split_ifs <;> first | rfl | omega

theorem getConsensus_regtest :
    Network.regtest.getConsensus h =
      if h < 10 then regtestConsensus
      else if h < 20 then regtestDigishieldConsensus
      else regtestAuxpowConsensus := by
  obtain ⟨-, -, -, -, -, e₁, e₂⟩ := nHeightEffective_eras
  simp only [Network.getConsensus, Network.pConsensusRoot, Consensus.getConsensus, e₁, e₂]
  split_ifs <;> first | rfl | omega

end Consensus

end Coinyecoin
