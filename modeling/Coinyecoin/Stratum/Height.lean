import Coinyecoin.Stratum.Candidate

/-!
# The height of a job

`CreateJob` builds a template on the tip and reads the height of the chain later.
If the tip keeps its height in between, then each job has the height of the block
after its previous one, and the coinbase of each candidate starts with it, as
`ContextualCheckBlock` demands.
-/

namespace Coinyecoin

namespace Stratum

open Foundation List

variable {D : Type} {env : StratumEnv D}

section

/-- The rule that the coinbase starts with the serialized block height, from
`ContextualCheckBlock`. -/
def checkCoinbaseHeight (nHeight : Int32) (block : CBlock) : Bool :=
  match block.vtx with
  | [] => false
  | coinbase :: _ =>
    match coinbase.vin with
    | [] => false
    | txin :: _ => (CScript.pushInt64 nHeight.toInt64).isPrefixOf txin.scriptSig

variable {bytes : Bytes}

theorem scriptSig_readTxIn {hash : uint256} {n : UInt32} {nSize : ℕ} {out : CTxIn × Bytes}
    (h : readTxIn (writeUint256 hash ++ (writeUInt32 n ++ (writeCompactSize nSize ++ bytes))) =
      .ok out) : out.1.scriptSig = bytes.take nSize := by
  have hscript :=
    (readUInt32_write n).inverts.strip ((readUint256_write hash).inverts.strip h)
  obtain ⟨mid, hmid, hout⟩ := bind_eq_ok.1 hscript
  have htake := (readCompactSize_write nSize).strip hmid
  unfold Reader.take at htake
  split_ifs at htake
  cases htake
  obtain ⟨sequence, -, hout⟩ := bind_eq_ok.1 hout
  cases hout
  rfl

theorem vin_unserializeTransaction {nVersion : Int32} {out : CTransaction × Bytes}
    (h : unserializeTransaction true (writeInt32 nVersion ++ (writeCompactSize 1 ++ bytes)) =
      .ok out) : ∃ txin rest, readTxIn bytes = .ok (txin, rest) ∧ out.1.vin = [txin] := by
  obtain ⟨⟨body, rest⟩, hbody, hout⟩ := bind_eq_ok.1 ((readInt32_write nVersion).inverts.strip h)
  obtain ⟨⟨vin, rest'⟩, hvin, hbody⟩ := bind_eq_ok.1 hbody
  have hone : Reader.replicate readTxIn 1 bytes = .ok (vin, rest') :=
    (readCompactSize_write 1).strip hvin
  obtain ⟨⟨txin, rest₁⟩, htxin, hone⟩ := bind_eq_ok.1 hone
  cases hone
  -- one input is not the marker, so no flags are read
  obtain ⟨⟨vout, rest₂⟩, -, hbody⟩ := bind_eq_ok.1 hbody
  cases hbody
  obtain ⟨⟨vin, rest₃⟩, hvin, hout⟩ := bind_eq_ok.1 hout
  have hflags : ((0 : UInt8) &&& 1 != 0 && true) = false := by decide
  rw [hflags] at hvin
  cases hvin
  obtain ⟨⟨flags, rest₄⟩, -, hout⟩ := bind_eq_ok.1 hout
  obtain ⟨⟨nLockTime, rest₅⟩, -, hout⟩ := bind_eq_ok.1 hout
  cases hout
  exact ⟨txin, _, htxin, rfl⟩

theorem height_rebuildCoinbase {job : StratumJob} {client : StratumClient D} {vchEn2 : Bytes}
    {cbTx : CTransaction} (h : rebuildCoinbase job client vchEn2 = .ok cbTx) :
    ∃ txin, cbTx.vin = [txin] ∧
      CScript.pushInt64 job.nHeight.toInt64 <+: txin.scriptSig := by
  obtain ⟨rest, hread⟩ := rebuildCoinbase_read h
  simp only [coinb1, append_assoc] at hread
  obtain ⟨txin, rest', htxin, hvin⟩ := vin_unserializeTransaction hread
  refine ⟨txin, hvin, ?_⟩
  rw [scriptSig_readTxIn htxin, length_coinbaseScript (by decide), prefix_take_iff]
  exact ⟨prefix_append _ _, Nat.le_add_right _ _⟩

end

/-- The template of a job whose height was not read yet. -/
def JobThread.built? : JobThread → Option CBlockTemplate
  | .built tmpl _ => some tmpl
  | _ => none

def nextHeight (env : StratumEnv D) (hashPrevBlock : uint256) : Int32 :=
  env.blockHeight hashPrevBlock + 1

def JobHeights (env : StratumEnv D) (s : Server D) : Prop :=
  ∀ job ∈ s.mapJobs, job.nHeight = nextHeight env job.hashPrevBlock

/-- The coinbase of every block candidate starts with the height at which the block
connects. -/
def CandidateHeights (env : StratumEnv D) (s : Server D) : Prop :=
  ∀ entry ∈ s.shares, ∀ block ∈ entry.2.candidate,
    checkCoinbaseHeight (nextHeight env block.header.hashPrevBlock) block

/-- The steps that keep the heights right: while a template waits for its height,
the tip moves only to blocks of the height of the one it builds on. -/
def KeepsHeight (env : StratumEnv D) (s : Server D) : Event → Prop
  | .changeTip hash => ∀ tmpl ∈ s.jobThread.built?,
      env.blockHeight hash = env.blockHeight tmpl.header.hashPrevBlock
  | _ => True

instance (env : StratumEnv D) (s : Server D) : DecidablePred (KeepsHeight env s)
  | .changeTip hash => inferInstanceAs (Decidable (∀ tmpl ∈ s.jobThread.built?,
      env.blockHeight hash = env.blockHeight tmpl.header.hashPrevBlock))
  | .connect _ | .disconnect _ | .line _ _ _ | .subscription _ | .vardiff _ _
  | .buildTemplate _ _ | .readHeight | .registerJob | .startBroadcast _ | .buildNotify
  | .sendNotify => isTrue trivial

/-- The heights at the stages of `CreateJob`. -/
structure HeightsMatch (env : StratumEnv D) (s : Server D) : Prop where
  mapJobs : JobHeights env s
  built : ∀ tmpl ∈ s.jobThread.built?,
    env.blockHeight s.tip = env.blockHeight tmpl.header.hashPrevBlock
  measured : ∀ job, s.jobThread = .measured job → job.nHeight = nextHeight env job.hashPrevBlock

namespace HeightsMatch

variable {s s' : Server D} {e : Event}

theorem init (tip : uint256) : HeightsMatch env (Server.init tip : Server D) where
  mapJobs := fun _ h => nomatch h
  built := fun _ h => nomatch h
  measured := fun _ h => nomatch h

theorem effect (hs : HeightsMatch env s) (h : Effect env s e s') (hok : KeepsHeight env s e) :
    HeightsMatch env s' := by
  cases h with
  | changeTip hash => exact ⟨hs.mapJobs, hok, hs.measured⟩
  | buildTemplate tmpl nNow hthread hprev =>
    refine ⟨hs.mapJobs, fun tmpl' htmpl => ?_, fun _ hjob => nomatch hjob⟩
    cases htmpl
    rw [hprev]
  | readHeight tmpl nCreated hthread =>
    refine ⟨hs.mapJobs, (fun _ htmpl => nomatch htmpl), fun job hjob => ?_⟩
    cases hjob
    have htip := hs.built tmpl (by rw [hthread]; rfl)
    rw [jobOfTemplate, nextHeight, htip]
  | registerJob job hthread =>
    refine ⟨fun job' hmem => ?_, (fun _ htmpl => nomatch htmpl), fun _ hjob => nomatch hjob⟩
    rcases mem_registerJob hmem with rfl | hmem
    · exact hs.measured job hthread
    · exact hs.mapJobs job' hmem
  | startBroadcast | finish | passOver | buildNotify | sendNotify =>
    exact ⟨hs.mapJobs, (fun _ htmpl => nomatch htmpl), fun _ hjob => nomatch hjob⟩
  | _ => exact ⟨hs.mapJobs, hs.built, hs.measured⟩

theorem candidates (hs : HeightsMatch env s) (hjobs : JobsFromTemplates env s)
    (hcandidates : CandidateHeights env s) (h : Effect env s e s') : CandidateHeights env s' := by
  cases h with
  | line c strLine clock conn handled hconn hidle hhandled =>
    intro entry hmem block hblock
    rcases mem_append.1 hmem with hmem | hmem
    · exact hcandidates entry hmem block hblock
    · obtain ⟨share, hshare, rfl⟩ := mem_map.1 hmem
      obtain ⟨p, -, ⟨job, hfind, hcheck⟩, -, -⟩ :=
        handleLine_share hhandled (Option.mem_toList.1 hshare)
      obtain ⟨hcb, -, -, -, hcandidate⟩ := checkShare_eq_ok hcheck
      have hjob := mem_of_find?_eq_some hfind
      obtain ⟨txin, hvin, hheight⟩ := height_rebuildCoinbase hcb
      have hprev : (candidateBlock env job share.cbTx p.nTime p.nNonce).header.hashPrevBlock =
          job.hashPrevBlock := by
        rw [candidateBlock_header (hjobs.mapJobs job hjob)]
        rfl
      rw [hcandidate block hblock, hprev, ← hs.mapJobs job hjob]
      simp only [checkCoinbaseHeight, candidateBlock, candidateDraft, hvin]
      exact isPrefixOf_iff_prefix.2 hheight
  | _ => exact hcandidates

end HeightsMatch

/-- In a run in which the tip never changes its height between the template and the
height of a job, every job in the map has the height at which its block connects,
and the coinbase of every candidate starts with that height. -/
theorem job_height_follows_prev_block (env : StratumEnv D) (tip : uint256) (events : List Event)
    (hmeet : AllMeet (step env) (KeepsHeight env) (Server.init tip) events) :
    JobHeights env (run env tip events) ∧ CandidateHeights env (run env tip events) := by
  have hstep (s : Server D) (e : Event) (hok : KeepsHeight env s e)
      (hs : HeightsMatch env s ∧ JobsFromTemplates env s ∧ CandidateHeights env s) :
      HeightsMatch env (step env s e) ∧ JobsFromTemplates env (step env s e) ∧
        CandidateHeights env (step env s e) := by
    obtain ⟨hheights, hjobs, hcandidates⟩ := hs
    exact ⟨hheights.effect (step_effect e) hok, hjobs.effect (step_effect e),
      hheights.candidates hjobs hcandidates (step_effect e)⟩
  have hrun := runEvents_keeps hstep
    ⟨HeightsMatch.init tip, JobsFromTemplates.init tip, fun _ h => nomatch h⟩ hmeet
  exact ⟨hrun.1.mapJobs, hrun.2.2⟩

theorem job_height_follows_prev_block_sample :
    (∃ job ∈ (run sampleEnv 7 sampleSolution).mapJobs, job.nHeight = 8) ∧
      CandidateHeights sampleEnv (run sampleEnv 7 sampleSolution) := by
  obtain ⟨hjobs, hcandidates⟩ := job_height_follows_prev_block sampleEnv 7 sampleSolution
    (by decide +kernel)
  refine ⟨?_, hcandidates⟩
  have hprev : ((run sampleEnv 7 sampleSolution).mapJobs.map StratumJob.hashPrevBlock) = [7] := by
    decide +kernel
  obtain ⟨job, hjob, hhash⟩ := mem_map.1 (hprev ▸ mem_singleton_self (7 : uint256))
  refine ⟨job, hjob, ?_⟩
  rw [hjobs job hjob, hhash]
  decide

/-- A block connects after the template was built: the job has the height after the
new tip and builds on the old one. -/
theorem tip_change_gives_wrong_height :
    ¬ JobHeights sampleEnv (run sampleEnv 7
        [.buildTemplate sampleTemplate 100, .changeTip 8, .readHeight, .registerJob, .connect 100,
          .line 0 [2] sampleClock]) ∧
      ¬ CandidateHeights sampleEnv (run sampleEnv 7
        [.buildTemplate sampleTemplate 100, .changeTip 8, .readHeight, .registerJob, .connect 100,
          .line 0 [2] sampleClock]) := by
  unfold JobHeights CandidateHeights
  decide +kernel

end Stratum

end Coinyecoin
