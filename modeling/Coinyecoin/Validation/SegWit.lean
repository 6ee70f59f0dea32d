import Coinyecoin.Validation.Contextual

/-!
# SegWit stays off

`IsWitnessEnabled` is constantly false, while `ContextualCheckBlock` still asks the
threshold state machine. On main and test the deployment has timed out before it can
start. On regtest it starts and never times out, but there a header has to carry our
chain ID or be a legacy one, and neither has the top bits of version bits: only the
genesis block can signal.
-/

namespace Coinyecoin

open Foundation Consensus CBlockIndex

variable {state : ThresholdState}

section

variable (hash : Bytes → uint256) (hashPair : uint256 → uint256 → uint256)
  (getPoWHash : CPureBlockHeader → uint256)

/-- The index holds only blocks whose headers passed their checks, the genesis block
apart. -/
def HeadersChecked {Ptr : Type} (net : Network) (T : BlockTree Ptr) : Prop :=
  ∀ p pprev, (T.index p).pprev = some pprev → ∃ (block : CBlockHeader) (nAdjustedTime : ℤ),
    (block.nVersion = (T.index p).nVersion ∧ block.nTime = (T.index p).nTime ∧
      block.nBits = (T.index p).nBits) ∧
    block.checkBlockHeader hash hashPair getPoWHash net true = .ok () ∧
    contextualCheckBlockHeader net T block.toCPureBlockHeader (some pprev) nAdjustedTime = .ok ()

variable {hash hashPair getPoWHash}

theorem le_of_condition {checker : ConditionChecker} {nVersion : Int32}
    (h : checker.condition nVersion = true) : 2 ^ 29 ≤ nVersion.toBitVec.toNat := by
  unfold ConditionChecker.condition at h
  rw [Bool.and_eq_true, beq_iff_eq] at h
  have hbit : (nVersion &&& VERSIONBITS_TOP_MASK).toBitVec.getLsbD 29 = true := by
    rw [h.1]
    decide
  rw [Int32.toBitVec_and, BitVec.getLsbD_and, Bool.and_eq_true] at hbit
  exact Nat.ge_two_pow_of_testBit hbit.1

theorem condition_of_checked {block : CBlockHeader} {net : Network}
    (hstrict : (net.getConsensus 0).fStrictChainId = true)
    (hchain : (net.getConsensus 0).nAuxpowChainId = 0x0062)
    (h : block.checkBlockHeader hash hashPair getPoWHash net true = .ok ())
    (checker : ConditionChecker) : checker.condition block.nVersion = false := by
  have hpow : checkAuxPowProofOfWork hash hashPair getPoWHash block (net.getConsensus 0) =
      .ok () := by
    rw [CBlockHeader.checkBlockHeader, if_pos rfl] at h
    split at h
    · assumption
    · cases h
    · cases h
  obtain ⟨u, hid, -⟩ := bind_eq_ok.1 hpow
  rw [errorIf, rejectIf_eq_ok, hstrict, hchain, Bool.and_true, Bool.and_eq_false_iff] at hid
  rw [← Bool.not_eq_true]
  intro hsignals
  have hle := le_of_condition hsignals
  rcases hid with hlegacy | hid
  · simp only [CPureBlockHeader.isLegacy, Bool.not_eq_false', Bool.or_eq_true, Bool.and_eq_true,
      beq_iff_eq] at hlegacy
    rcases hlegacy with h1 | ⟨h2, -⟩
    · rw [h1] at hle
      exact absurd hle (by decide)
    · rw [h2] at hle
      exact absurd hle (by decide)
  · have hid : block.nVersion.toBitVec.toInt / 2 ^ 16 = 0x0062 := bne_eq_false_iff_eq.1 hid
    rw [BitVec.toInt_eq_toNat_cond] at hid
    split_ifs at hid <;> omega

end

section

variable {Ptr : Type} {T : BlockTree Ptr} {checker : ConditionChecker}

theorem countSignals_le_one
    (hquiet : ∀ p q, (T.index p).pprev = some q → checker.condition (T.index p).nVersion = false)
    {n count : ℕ} {p : Ptr} (hcount : countSignals T checker n (some p) = .ok count) :
    count ≤ 1 := by
  induction n generalizing p count with
  | zero =>
    cases hcount
    exact Nat.zero_le 1
  | succ n ih =>
    obtain ⟨before, hbefore, hcount⟩ := bind_eq_ok.1 hcount
    cases hcount
    cases hprev : (T.index p).pprev with
    | none =>
      rw [hprev] at hbefore
      cases n with
      | zero =>
        cases hbefore
        split_ifs <;> decide
      | succ n => cases hbefore
    | some q =>
      rw [hprev] at hbefore
      have hle := ih hbefore
      rw [hquiet p q hprev]
      simpa using hle

/-- The states on the way to activation have not been entered. -/
def Dormant (state : ThresholdState) : Prop :=
  state = .defined ∨ state = .started ∨ state = .failed

theorem Dormant.ne_active (h : Dormant state) : state ≠ .active := by
  rcases h with rfl | rfl | rfl <;> decide

theorem nextState_dormant {p : Ptr} (h : checker.endTime ≤ 0 ∨
      ∀ count, countSignals T checker checker.period (some p) = .ok count →
        count < checker.threshold)
    {state stateNext : ThresholdState} (hstate : Dormant state)
    (hnext : nextState T checker p state = .ok stateNext) : Dormant stateNext := by
  rcases hstate with rfl | rfl | rfl
  · simp only [nextState] at hnext
    split_ifs at hnext <;> cases hnext
    · exact Or.inr (Or.inr rfl)
    · exact Or.inr (Or.inl rfl)
    · exact Or.inl rfl
  · simp only [nextState] at hnext
    split_ifs at hnext with htime
    · cases hnext
      exact Or.inr (Or.inr rfl)
    · obtain ⟨count, hcount, hnext⟩ := bind_eq_ok.1 hnext
      rcases h with hend | hfew
      · exact absurd (hend.trans (getMedianTimePast_nonneg T p)) htime
      · rw [if_neg (not_le.2 (hfew count hcount))] at hnext
        cases hnext
        exact Or.inr (Or.inl rfl)
  · cases hnext
    exact Or.inr (Or.inr rfl)

end

section

theorem segwit_params (net : Network) :
    (conditionChecker (net.getConsensus 0) .segwit).endTime ≤ 0 ∨
      (1 < (conditionChecker (net.getConsensus 0) .segwit).threshold ∧
        (net.getConsensus 0).fStrictChainId = true ∧
        (net.getConsensus 0).nAuxpowChainId = 0x0062) := by
  cases net <;> decide

variable {Ptr : Type} {T : BlockTree Ptr} {net : Network} {hash : Bytes → uint256}
  {hashPair : uint256 → uint256 → uint256} {getPoWHash : CPureBlockHeader → uint256}

theorem segwit_dormant (hchecked : HeadersChecked hash hashPair getPoWHash net T)
    {pindexPrev : Option Ptr}
    (hstate : deploymentState net T .segwit pindexPrev = .ok state) : Dormant state := by
  obtain ⟨prev, hprev, hends⟩ := lastOfPeriod_spec (T := T) (period_pos net .segwit) pindexPrev
  rw [deploymentState, stateAt, hprev, ok_bind] at hstate
  have hfew : (conditionChecker (net.getConsensus 0) .segwit).endTime ≤ 0 ∨ ∀ p count,
      countSignals T (conditionChecker (net.getConsensus 0) .segwit)
          (conditionChecker (net.getConsensus 0) .segwit).period (some p) = .ok count →
        count < (conditionChecker (net.getConsensus 0) .segwit).threshold := by
    refine (segwit_params net).imp_right fun hparams p count hcount => ?_
    obtain ⟨hthreshold, hstrict, hchain⟩ := hparams
    refine lt_of_le_of_lt (countSignals_le_one (fun q q' hprev => ?_) hcount) hthreshold
    obtain ⟨block, _, ⟨hversion, -⟩, hheader, -⟩ := hchecked q q' hprev
    rw [← hversion]
    exact condition_of_checked hstrict hchain hheader _
  obtain ⟨state', hstate', hdormant⟩ := periodState_closed (S := Dormant) (period_pos net .segwit)
    (Or.inl rfl) (fun p _ _ _ => nextState_dormant (hfew.imp_right fun h => h p)) hends
  rw [hstate] at hstate'
  cases hstate'
  exact hdormant

/-- On every network, over every index of checked headers and whatever has been looked
up before, the state of SegWit at any block is found and is not active, as
`IsWitnessEnabled` says, and a block with witness data is not accepted. -/
theorem segwit_never_active (hash : Bytes → uint256) (hashPair : uint256 → uint256 → uint256)
    (getPoWHash : CPureBlockHeader → uint256) (getBlockSize : Bool → CBlock → ℕ)
    {Ptr : Type} [DecidableEq Ptr] (net : Network) (T : BlockTree Ptr)
    (hchecked : HeadersChecked hash hashPair getPoWHash net T) (caches : VersionBitsCache Ptr)
    (hreached : CachesReached net T caches) (pindexPrev : Option Ptr) :
    (∀ nHeight, ∃ state caches',
      versionBitsState T pindexPrev (net.getConsensus nHeight) .segwit caches =
          .ok (state, caches') ∧
        state ≠ .active ∧
        decide (state = .active) = isWitnessEnabled pindexPrev (net.getConsensus nHeight)) ∧
      ∀ block, (contextualCheckBlock hash hashPair getBlockSize net T block pindexPrev caches).1 =
        .ok () → ∀ tx ∈ block.vtx, tx.hasWitness = false := by
  refine ⟨fun nHeight => ?_, fun block hok => ?_⟩
  · obtain ⟨state, caches', hstate, hrun, -⟩ :=
      versionBitsState_spec hreached .segwit pindexPrev nHeight
    have hnot := (segwit_dormant hchecked hstate).ne_active
    exact ⟨state, caches', hrun, hnot, decide_eq_false hnot⟩
  · obtain ⟨csv, segwit, -, -, hsegwit, hwitness⟩ := (contextualCheckBlock_eq_ok hreached).1 hok
    exact hasWitness_of_checkWitness (segwit_dormant hchecked hsegwit).ne_active hwitness

def twoBlocks (genesis block : CPureBlockHeader) : BlockTree Bool where
  index
    | false => ⟨none, none, 0, genesis.nVersion, genesis.nTime, genesis.nBits⟩
    | true => ⟨some false, none, 1, block.nVersion, block.nTime, block.nBits⟩
  height_genesis p h := by cases p <;> trivial
  height_child p q h := by
    cases p <;> cases h
    rfl
  skip_ancestor p s h := by cases p <;> cases h

def signallingGenesis : BlockTree Bool :=
  twoBlocks ⟨0x20000002, 0, 0, 1296688602, 0x207fffff, 0⟩ ⟨1, 0, 0, 1296688603, 0x207fffff, 0⟩

theorem segwit_never_active_sample :
    ∃ state caches', versionBitsState signallingGenesis (some true)
      (Network.regtest.getConsensus 2) .segwit (fun _ _ => none) = .ok (state, caches') ∧
        state ≠ .active := by
  have hchecked : HeadersChecked (fun _ => 0) (fun _ _ => 0) (fun _ => 0) .regtest
      signallingGenesis := by
    rintro (_ | _) pprev hprev <;> cases hprev
    refine ⟨⟨⟨1, 0, 0, 1296688603, 0x207fffff, 0⟩, none⟩, 1296688603, ⟨rfl, rfl, rfl⟩, ?_, ?_⟩
    · decide +kernel
    · decide +kernel
  have h := segwit_never_active _ _ _ (fun _ _ => 0) _ _ hchecked _ .clear (some true)
  obtain ⟨state, caches', hrun, hstate, -⟩ := h.1 2
  exact ⟨state, caches', hrun, hstate⟩

end

end Coinyecoin
