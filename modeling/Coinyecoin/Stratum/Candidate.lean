import Coinyecoin.Stratum.Server

/-!
# Block candidates

The header whose proof of work `HandleSubmit` checks has its merkle root from the
steps of the job; the block it then assembles computes the root from all its
transactions. Every job in the map copies its fields from its template, so the
two headers are one.
-/

namespace Coinyecoin

namespace Stratum

open Foundation

variable {D : Type} {env : StratumEnv D}

structure StratumJob.FromTemplate (env : StratumEnv D) (job : StratumJob) : Prop where
  hashPrevBlock : job.hashPrevBlock = job.tmpl.header.hashPrevBlock
  nVersion : job.nVersion = job.tmpl.header.nVersion
  nBits : job.nBits = job.tmpl.header.nBits
  nTime : job.nTime = job.tmpl.header.nTime
  vMerkleSteps : job.vMerkleSteps =
    computeMerkleSteps env.hashPair (CTransaction.getHash env.hash) job.tmpl.block

theorem candidateBlock_header {job : StratumJob} (hjob : job.FromTemplate env)
    (cbTx : CTransaction) (nTime nNonce : UInt32) :
    (candidateBlock env job cbTx nTime nNonce).header = submitHeader env job cbTx nTime nNonce := by
  have hroot := merkleRootFromSteps_computeMerkleSteps env.hashPair (CTransaction.getHash env.hash)
    job.tmpl.block (candidateDraft job cbTx nTime nNonce) cbTx rfl
  simp only [candidateBlock, submitHeader, ← hroot, hjob.vMerkleSteps, hjob.hashPrevBlock,
    hjob.nBits]
  rfl

structure JobsFromTemplates (env : StratumEnv D) (s : Server D) : Prop where
  mapJobs : ∀ job ∈ s.mapJobs, job.FromTemplate env
  measured : ∀ job, s.jobThread = .measured job → job.FromTemplate env

theorem JobsFromTemplates.init (tip : uint256) :
    JobsFromTemplates env (Server.init tip : Server D) where
  mapJobs := fun _ h => nomatch h
  measured := fun _ h => nomatch h

variable {s s' : Server D} {e : Event}

theorem JobsFromTemplates.effect (hs : JobsFromTemplates env s)
    (h : Effect env s e s') : JobsFromTemplates env s' := by
  cases h with
  | readHeight tmpl nCreated hthread =>
    refine ⟨hs.mapJobs, fun job hjob => ?_⟩
    cases hjob
    exact ⟨rfl, rfl, rfl, rfl, rfl⟩
  | registerJob job hthread =>
    refine ⟨fun job' hmem => ?_, fun _ hjob => nomatch hjob⟩
    rcases mem_registerJob hmem with rfl | hmem
    · obtain ⟨hprev, hversion, hbits, htime, hsteps⟩ := hs.measured job hthread
      exact ⟨hprev, hversion, hbits, htime, hsteps⟩
    · exact hs.mapJobs job' hmem
  | buildTemplate | startBroadcast | finish | passOver | buildNotify | sendNotify =>
    exact ⟨hs.mapJobs, fun _ hjob => nomatch hjob⟩
  | _ => exact ⟨hs.mapJobs, hs.measured⟩

def CandidatesMatch (s : Server D) : Prop :=
  ∀ entry ∈ s.shares, ∀ block, entry.2.candidate = some block → block.header = entry.2.header

theorem CandidatesMatch.effect (hs : CandidatesMatch s)
    (hjobs : JobsFromTemplates env s) (h : Effect env s e s') : CandidatesMatch s' := by
  cases h with
  | line c strLine clock conn handled hconn hidle hhandled =>
    intro entry hmem block hblock
    rcases List.mem_append.1 hmem with hmem | hmem
    · exact hs entry hmem block hblock
    · obtain ⟨share, hshare, rfl⟩ := List.mem_map.1 hmem
      obtain ⟨p, -, ⟨job, hfind, hcheck⟩, -, -⟩ :=
        handleLine_share hhandled (Option.mem_toList.1 hshare)
      obtain ⟨-, -, -, hheader, hcandidate⟩ := checkShare_eq_ok hcheck
      rw [hcandidate block hblock, hheader,
        candidateBlock_header (hjobs.mapJobs job (List.mem_of_find?_eq_some hfind))]
  | _ => exact hs

/-- Folding a coinbase hash through the merkle steps of a template gives the
merkle root of the block with that coinbase, for any number of transactions and
any pair hash. Hence in every run of the server a block candidate has the header
whose proof of work was checked. -/
theorem candidate_header_eq_checked_header (env : StratumEnv D) :
    (∀ (getHash : CTransaction → uint256) (template block : CBlock) (coinbase : CTransaction),
      block.vtx = coinbase :: template.vtx.tail →
        merkleRootFromSteps env.hashPair (getHash coinbase)
            (computeMerkleSteps env.hashPair getHash template) =
          (Merkle.blockMerkleRoot env.hashPair getHash block).1) ∧
    ∀ (tip : uint256) (events : List Event), CandidatesMatch (run env tip events) := by
  refine ⟨merkleRootFromSteps_computeMerkleSteps env.hashPair, fun tip events => ?_⟩
  have hrun : JobsFromTemplates env (run env tip events) ∧ CandidatesMatch (run env tip events) :=
    runEvents_invariant (P := fun s => JobsFromTemplates env s ∧ CandidatesMatch s)
      (fun s e hs => ⟨hs.1.effect (step_effect e), hs.2.effect hs.1 (step_effect e)⟩) events
      ⟨JobsFromTemplates.init tip, fun _ h => nomatch h⟩
  exact hrun.2

def sampleRequest (method : String) (params : List UniValue) : UniValue :=
  .obj [(str "id", .ofNat 1), (str "method", .str (str method)), (str "params", .arr params)]

def sampleSubmit (strJob strEn2 strTime strNonce : String) : UniValue :=
  sampleRequest "mining.submit" [.str (str "w"), .str (str strJob), .str (str strEn2),
    .str (str strTime), .str (str strNonce)]

def sampleJson : StdString → Option UniValue
  | [0] => some (sampleRequest "mining.subscribe" [])
  | [1] => some (sampleRequest "mining.authorize" [.str (str "addr.rig")])
  | [2] => some (sampleSubmit "1" "0000000a" "00000001" "00000002")
  | [3] => some (sampleSubmit "1" "0000000A" "00000001" "00000002")
  | [4] => some (sampleSubmit "1" "0000000a" "00000001" "00000003")
  | [5] => some (sampleSubmit "2" "0000000a" "00000001" "00000002")
  | _ => none

def sampleHash (bytes : Bytes) : uint256 :=
  BitVec.ofNat 256 (bytes.foldl (fun n b => 257 * n + b.toNat + 1) 0)

/-- A node with arithmetic in place of hashing, where every share is accepted and
solves a block. -/
def sampleEnv : StratumEnv Unit where
  hash := sampleHash
  hashPair := fun x y => sampleHash (writeUint256 x ++ writeUint256 y)
  getPoWHash := CPureBlockHeader.hashMerkleRoot
  shareTargetForDiff := fun _ => BitVec.allOnes 256
  checkProofOfWork := fun _ _ _ => true
  readJson := sampleJson
  getReal := fun _ => .ok ()
  suggestible := fun _ => true
  vardiff := fun _ _ _ => none
  scriptForAddress := fun addr => if addr = str "addr" then some [0x51] else none
  defaultPayoutScript := [0x52]
  startDiff := ()
  maxConn := 64
  blockHeight := fun hash => Int32.ofNat hash.toNat

def sampleCoinbase : CTransaction where
  nVersion := 1
  vin := [⟨⟨0, 0xffffffff⟩, [0x51, 0x00], 0xffffffff, []⟩]
  vout := [⟨50, [0x52]⟩]
  nLockTime := 0

def sampleTemplate : CBlockTemplate where
  header := ⟨4, 7, 0, 1, 0x1e0ffff0, 0⟩
  coinbase := sampleCoinbase
  txs := [{ sampleCoinbase with nVersion := 2 }, { sampleCoinbase with nVersion := 3 }]
  vin_ne_nil := by decide

def sampleCreateJob : List Event :=
  [.buildTemplate sampleTemplate 100, .readHeight, .registerJob]

def sampleClock : Clock := ⟨100, 100⟩

def sampleSolution : List Event :=
  sampleCreateJob ++ [.connect 100, .line 0 [2] sampleClock]

theorem candidate_header_eq_checked_header_sample :
    (∃ entry ∈ (run sampleEnv 7 sampleSolution).shares, ∃ block,
      entry.2.candidate = some block ∧ block.header = entry.2.header) ∧
    merkleRootFromSteps sampleEnv.hashPair (sampleCoinbase.getHash sampleEnv.hash)
        (computeMerkleSteps sampleEnv.hashPair (CTransaction.getHash sampleEnv.hash)
          sampleTemplate.block) =
      (Merkle.blockMerkleRoot sampleEnv.hashPair (CTransaction.getHash sampleEnv.hash)
        sampleTemplate.block).1 := by
  obtain ⟨hroot, hmatch⟩ := candidate_header_eq_checked_header sampleEnv
  refine ⟨?_, hroot _ _ _ sampleCoinbase rfl⟩
  have hsolved : ((run sampleEnv 7 sampleSolution).shares.map fun entry =>
      entry.2.candidate.isSome) = [true] := by
    decide +kernel
  obtain ⟨entry, hmem, hsome⟩ := List.mem_map.1 (hsolved ▸ List.mem_singleton_self true)
  obtain ⟨block, hblock⟩ := Option.isSome_iff_exists.1 hsome
  exact ⟨entry, hmem, block, hblock, hmatch 7 sampleSolution entry hmem block hblock⟩

end Stratum

end Coinyecoin
