import Coinyecoin.Stratum.Client

/-!
# Submitted shares

`HandleSubmit`. A submission is looked up, checked for its form and against the
keys seen before, and decoded; then the coinbase announced to the client is
rebuilt around its extranonces, the header is put together and its proof of work
is compared with the target of the client. A header that also meets the target of
the network becomes a block candidate.

`Share` is what an accepted submission stands for. The server-wide counters, the
log lines and what `ProcessNewBlock` makes of a candidate are left out.
-/

namespace Coinyecoin

namespace Stratum

open Foundation List

variable {D : Type}

structure Clock where
  getTime : ℤ
  getAdjustedTime : ℤ

inductive SubmitError where
  | invalidParams
  | jobNotFound
  | malformed
  | duplicate
  | timeOutOfRange
  | internal
  | badCoinbase
  | aboveTarget
deriving DecidableEq, Repr

namespace SubmitError

def nCode : SubmitError → ℕ
  | invalidParams | malformed | timeOutOfRange | internal | badCoinbase => 20
  | jobNotFound => 21
  | duplicate => 22
  | aboveTarget => 23

def strMsg : SubmitError → String
  | invalidParams => "Invalid params"
  | jobNotFound => "Job not found (stale)"
  | malformed => "Malformed submission"
  | duplicate => "Duplicate share"
  | timeOutOfRange => "ntime out of range"
  | internal => "Internal error"
  | badCoinbase => "Bad coinbase"
  | aboveTarget => "Share above target"

/-- Whether the refusal counts as a rejected share of the client. -/
def counted : SubmitError → Bool
  | invalidParams | internal => false
  | _ => true

end SubmitError

/-- An accepted submission: the job, the extranonce, the coinbase and the header
made with it, and the block candidate, if the header solves a block. -/
structure Share where
  job : StratumJob
  vchEn2 : Bytes
  cbTx : CTransaction
  header : CPureBlockHeader
  candidate : Option CBlock
deriving DecidableEq

section

variable (env : StratumEnv D)

/-- The first extranonce, highest byte first. -/
def extraNonce1Bytes (n : UInt32) : Bytes :=
  [(n >>> 24).toUInt8, (n >>> 16).toUInt8, (n >>> 8).toUInt8, n.toUInt8]

def rebuildCoinbase (job : StratumJob) (client : StratumClient D) (vchEn2 : Bytes) :
    Except SubmitError CTransaction :=
  match buildCoinbaseParts job client.payoutScript with
  | none => .error .internal
  | some parts =>
    match unserializeTransaction true
        (parts.1 ++ (extraNonce1Bytes client.nExtraNonce1 ++ (vchEn2 ++ parts.2))) with
    | .ok cbTx => .ok cbTx.1
    | .error _ => .error .badCoinbase

def submitHeader (job : StratumJob) (cbTx : CTransaction) (nTime nNonce : UInt32) :
    CPureBlockHeader where
  nVersion := job.nVersion
  hashPrevBlock := job.hashPrevBlock
  hashMerkleRoot :=
    merkleRootFromSteps env.hashPair (cbTx.getHash env.hash) job.vMerkleSteps
  nTime := nTime
  nBits := job.nBits
  nNonce := nNonce

/-- The block with the coinbase in place, before its merkle root is set. -/
def candidateDraft (job : StratumJob) (cbTx : CTransaction) (nTime nNonce : UInt32) : CBlock where
  header := { job.tmpl.header with nVersion := job.nVersion, nTime := nTime, nNonce := nNonce }
  vtx := cbTx :: job.tmpl.block.vtx.tail

def candidateBlock (job : StratumJob) (cbTx : CTransaction) (nTime nNonce : UInt32) : CBlock :=
  let block := candidateDraft job cbTx nTime nNonce
  let root := (Merkle.blockMerkleRoot env.hashPair (CTransaction.getHash env.hash) block).1
  { block with header := { block.header with hashMerkleRoot := root } }

/-- The share target, or for twenty seconds after a change the previous one. -/
def meetsTarget (clock : Clock) (client : StratumClient D) (powHash : uint256) : Bool :=
  powHash ≤ env.shareTargetForDiff client.dDiff ||
    (clock.getTime - client.nDiffChangeTime < 20 &&
      powHash ≤ env.shareTargetForDiff client.dPrevDiff)

def checkShare (clock : Clock) (job : StratumJob) (client : StratumClient D) (vchEn2 : Bytes)
    (nTime nNonce : UInt32) : Except SubmitError Share :=
  if nTime < job.nTime ∨ (nTime.toNat : ℤ) > clock.getAdjustedTime + 2 * 60 * 60 then
    .error .timeOutOfRange
  else do
    let cbTx ← rebuildCoinbase job client vchEn2
    let header := submitHeader env job cbTx nTime nNonce
    let powHash := env.getPoWHash header
    if meetsTarget env clock client powHash then
      return {
        job := job
        vchEn2 := vchEn2
        cbTx := cbTx
        header := header
        candidate :=
          if env.checkProofOfWork powHash job.nBits job.nHeight then
            some (candidateBlock env job cbTx nTime nNonce)
          else none }
    else throw .aboveTarget

end

namespace StratumClient

def refuse (client : StratumClient D) (id : UniValue) (e : SubmitError) : StratumClient D :=
  let nSharesRejected := client.nSharesRejected + if e.counted then 1 else 0
  StratumClient.sendError { client with nSharesRejected := nSharesRejected } id e.nCode e.strMsg

/-- Adds a key; beyond 5000 of them all are forgotten. -/
def remember (client : StratumClient D) (strKey : StdString) : StratumClient D :=
  let setDupes := strKey :: client.setDupes
  { client with setDupes := if setDupes.length > 5000 then [] else setDupes }

def accept (client : StratumClient D) (id : UniValue) : StratumClient D :=
  StratumClient.sendResult
    { client with
      nSharesAccepted := client.nSharesAccepted + 1
      nVardiffShares := client.nVardiffShares + 1 } id (.bool true)

end StratumClient

section

variable (env : StratumEnv D)

structure SubmitParams where
  strJob : StdString
  strEn2 : StdString
  strTime : StdString
  strNonce : StdString
deriving DecidableEq

namespace SubmitParams

def strKey (p : SubmitParams) : StdString :=
  p.strJob ++ str ":" ++ p.strEn2 ++ str ":" ++ p.strTime ++ str ":" ++ p.strNonce

def nTime (p : SubmitParams) : UInt32 := UInt32.ofNat (strtoul p.strTime)

def nNonce (p : SubmitParams) : UInt32 := UInt32.ofNat (strtoul p.strNonce)

end SubmitParams

def findJob (mapJobs : List StratumJob) (id : StdString) : Option StratumJob :=
  mapJobs.find? fun job => job.id == id

/-- `HandleSubmit` from the strings on: the client afterwards, and the share if
it was accepted. -/
def submit (clock : Clock) (mapJobs : List StratumJob) (client : StratumClient D) (id : UniValue)
    (p : SubmitParams) : StratumClient D × Option Share :=
  match findJob mapJobs p.strJob with
  | none => (client.refuse id .jobNotFound, none)
  | some job =>
    if p.strEn2.length ≠ 8 ∨ p.strTime.length ≠ 8 ∨ p.strNonce.length ≠ 8 then
      (client.refuse id .malformed, none)
    else if p.strKey ∈ client.setDupes then (client.refuse id .duplicate, none)
    else
      let client := client.remember p.strKey
      match checkShare env clock job client (parseHex p.strEn2) p.nTime p.nNonce with
      | .error e => (client.refuse id e, none)
      | .ok share => (client.accept id, some share)

def getSubmitParams (params : List UniValue) : Except Fault SubmitParams := do
  let strJob ← (UniValue.index params 1).getStr
  let strEn2 ← (UniValue.index params 2).getStr
  let strTime ← (UniValue.index params 3).getStr
  let strNonce ← (UniValue.index params 4).getStr
  return ⟨strJob, strEn2, strTime, strNonce⟩

def handleSubmit (clock : Clock) (mapJobs : List StratumJob) (client : StratumClient D)
    (id : UniValue) (params : List UniValue) : Except Fault (StratumClient D × Option Share) :=
  if params.length < 5 then .ok (client.refuse id .invalidParams, none)
  else do
    let p ← getSubmitParams params
    return submit env clock mapJobs client id p

end

section

variable {env : StratumEnv D} {clock : Clock} {job : StratumJob} {client : StratumClient D}
  {share : Share}

theorem extraNonce1Bytes_eq (n : UInt32) : extraNonce1Bytes n = (leBytes 4 n.toNat).reverse := by
  have hbyte {m : ℕ} {b : UInt8} (hb : b.toNat = m % 256) : b = UInt8.ofNat (m % 256) := by
    apply UInt8.toNat_inj.1
    rw [UInt8.toNat_ofNat', hb, Nat.mod_mod]
  simp only [extraNonce1Bytes, leBytes, reverse_cons, reverse_nil, nil_append,
    cons_append, Nat.div_div_eq_div_mul, List.cons.injEq, and_true]
  refine ⟨hbyte ?_, hbyte ?_, hbyte ?_, hbyte ?_⟩ <;> simp [Nat.shiftRight_eq_div_pow]

variable {vchEn2 : Bytes} {cbTx : CTransaction}

theorem length_extraNonces (n : UInt32) (hlen : vchEn2.length = 4) :
    (extraNonce1Bytes n ++ vchEn2).length = 8 := by
  rw [length_append, hlen]
  rfl

theorem rebuildCoinbase_read (h : rebuildCoinbase job client vchEn2 = .ok cbTx) :
    ∃ rest, unserializeTransaction true (coinb1 job ++ (extraNonce1Bytes client.nExtraNonce1 ++
      (vchEn2 ++ coinb2 job client.payoutScript))) = .ok (cbTx, rest) := by
  unfold rebuildCoinbase at h
  rw [buildCoinbaseParts_eq] at h
  split_ifs at h
  dsimp only at h
  split at h
  · rename_i out hout
    cases h
    exact ⟨out.2, hout⟩
  · exact nomatch h

theorem rebuildCoinbase_eq_ok (hlen : vchEn2.length = 4)
    (h : rebuildCoinbase job client vchEn2 = .ok cbTx) :
    cbTx = coinbaseTx job client.payoutScript
        (extraNonce1Bytes client.nExtraNonce1 ++ vchEn2) ∧
      unserializeTransaction true (serializeTransaction true cbTx) = .ok (cbTx, []) := by
  have hextra := length_extraNonces client.nExtraNonce1 hlen
  obtain ⟨rest, hread⟩ := rebuildCoinbase_read h
  rw [← append_assoc (extraNonce1Bytes _), ← append_nil (coinb1 job ++ _)] at hread
  obtain ⟨rfl, rfl⟩ := Prod.mk.inj (unserialize_parts hextra [] _ hread)
  rw [append_nil, ← serialize_coinbaseTx hextra] at hread
  exact ⟨rfl, hread⟩

theorem checkShare_eq_ok {nTime nNonce : UInt32}
    (h : checkShare env clock job client vchEn2 nTime nNonce = .ok share) :
    rebuildCoinbase job client vchEn2 = .ok share.cbTx ∧ share.job = job ∧
      share.vchEn2 = vchEn2 ∧ share.header = submitHeader env job share.cbTx nTime nNonce ∧
      ∀ block, share.candidate = some block →
        block = candidateBlock env job share.cbTx nTime nNonce := by
  unfold checkShare at h
  split at h
  · exact nomatch h
  · obtain ⟨cbTx, hcb, h⟩ := bind_eq_ok.1 h
    dsimp only at h
    split at h
    · cases h
      refine ⟨hcb, rfl, rfl, rfl, fun block hblock => ?_⟩
      split at hblock
      · exact (Option.some_inj.1 hblock).symm
      · exact nomatch hblock
    · exact nomatch h

/-- An accepted submission found its job, has the form of one, was not seen
before and passed the checks. -/
structure Accepts (env : StratumEnv D) (clock : Clock) (mapJobs : List StratumJob)
    (client : StratumClient D) (p : SubmitParams) (share : Share) : Prop where
  found : ∃ job, findJob mapJobs p.strJob = some job ∧
    checkShare env clock job (client.remember p.strKey) (parseHex p.strEn2) p.nTime p.nNonce =
      .ok share
  lengths : p.strEn2.length = 8 ∧ p.strTime.length = 8 ∧ p.strNonce.length = 8
  fresh : p.strKey ∉ client.setDupes

theorem submit_accepts {mapJobs : List StratumJob} {id : UniValue} {p : SubmitParams}
    (h : (submit env clock mapJobs client id p).2 = some share) :
    Accepts env clock mapJobs client p share := by
  unfold submit at h
  split at h
  · exact nomatch h
  · rename_i job hjob
    split at h
    · exact nomatch h
    · rename_i hlen
      split at h
      · exact nomatch h
      · rename_i hfresh
        dsimp only at h
        split at h
        · exact nomatch h
        · rename_i share' hshare
          cases h
          exact ⟨⟨job, hjob, hshare⟩, by tauto, hfresh⟩

end

end Stratum

end Coinyecoin
