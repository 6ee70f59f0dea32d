import Coinyecoin.Stratum.Candidate
import Coinyecoin.Stratum.Registry

/-!
# Announced work

A miner builds its header from a `mining.notify`; `HandleSubmit` rebuilds it from
the job and from the payout script that the client has by then. The two agree as
long as the payout script does not change while the client holds work that is
still in the map.
-/

namespace Coinyecoin

namespace Stratum

open Foundation List

variable {D : Type} {env : StratumEnv D}

section

def uint256OfBytes (bytes : Bytes) : uint256 := BitVec.ofNat 256 (leNat bytes)

/-- The header that a miner builds from a notification, with the extranonce it
got when it subscribed, one of its own, and a time and a nonce. -/
def minerHeader (env : StratumEnv D) (params : Notify) (strEn1 : StdString) (vchEn2 : Bytes)
    (nTime nNonce : UInt32) : CPureBlockHeader where
  nVersion := (UInt32.ofNat (readDigits 0 params.nVersion)).toInt32
  hashPrevBlock := uint256OfBytes (swapWords (parseHex params.prevHash))
  hashMerkleRoot :=
    (params.merkleBranch.map fun strStep => uint256OfBytes (parseHex strStep)).foldl env.hashPair
      (env.hash (parseHex params.coinb1 ++ (parseHex strEn1 ++
        (vchEn2 ++ parseHex params.coinb2))))
  nTime := nTime
  nBits := UInt32.ofNat (readDigits 0 params.nBits)
  nNonce := nNonce

variable (hash : uint256) (n : UInt32)

theorem uint256OfBytes_writeUint256 : uint256OfBytes (writeUint256 hash) = hash := by
  have hlt : hash.toNat < 256 ^ 32 := hash.isLt
  rw [uint256OfBytes, writeUint256, leNat_leBytes hlt, BitVec.ofNat_toNat, BitVec.setWidth_eq]

theorem swapWords_swapWords {bytes : Bytes} (hlen : bytes.length % 4 = 0) :
    swapWords (swapWords bytes) = bytes := by
  match bytes with
  | [] => rfl
  | [_] | [_, _] | [_, _, _] => exact absurd hlen (by simp)
  | a :: b :: c :: d :: bytes =>
    have hrest : bytes.length % 4 = 0 := by
      simp only [length_cons] at hlen
      omega
    simp only [swapWords, swapWords_swapWords hrest]

theorem uint256OfBytes_prevHashStratumHex :
    uint256OfBytes (swapWords (parseHex (prevHashStratumHex hash))) = hash := by
  rw [prevHashStratumHex, parseHex_hexStr, swapWords_swapWords (by simp [writeUint256]),
    uint256OfBytes_writeUint256]

theorem ofNat_readDigits_format08x : UInt32.ofNat (readDigits 0 (format08x n)) = n := by
  rw [readDigits_format08x, UInt32.ofNat_toNat]

theorem parseHex_extraNonce1 : parseHex (format08x n) = extraNonce1Bytes n := by
  rw [parseHex_format08x, extraNonce1Bytes_eq]

theorem submitHeader_eq_minerHeader {job : StratumJob} {client : StratumClient D} {fClean : Bool}
    {params : Notify} (hparams : notifyParams job client.payoutScript fClean = some params)
    {vchEn2 : Bytes} (hlen : vchEn2.length = 4) {cbTx : CTransaction}
    (hcb : rebuildCoinbase job client vchEn2 = .ok cbTx) (nTime nNonce : UInt32) :
    submitHeader env job cbTx nTime nNonce =
      minerHeader env params (format08x client.nExtraNonce1) vchEn2 nTime nNonce := by
  have hextra := length_extraNonces client.nExtraNonce1 hlen
  unfold notifyParams at hparams
  rw [buildCoinbaseParts_eq] at hparams
  split_ifs at hparams
  · exact nomatch hparams
  · cases hparams
    have hbranch : (job.vMerkleSteps.map fun step => hexStr (writeUint256 step)).map
        (fun strStep => uint256OfBytes (parseHex strStep)) = job.vMerkleSteps := by
      rw [map_map]
      refine (map_congr_left fun step _ => ?_).trans (map_id _)
      exact (congrArg uint256OfBytes (parseHex_hexStr _)).trans (uint256OfBytes_writeUint256 step)
    rw [(rebuildCoinbase_eq_ok hlen hcb).1]
    simp only [submitHeader, minerHeader, merkleRootFromSteps, hbranch, parseHex_hexStr,
      getHash_coinbaseTx env.hash hextra, parseHex_extraNonce1, ofNat_readDigits_format08x,
      uint256OfBytes_prevHashStratumHex, append_assoc]
    rfl

def IsAnnounced (s : Server D) (c : ℕ) (conn : Connection D) (params : Notify) : Prop :=
  params ∈ conn.client.announced ∨
    ∃ job fClean vClients, s.jobThread = .sending job fClean vClients c params

/-- The notification is about a registered job, and if the job is still in the
map then the notification is for the payout script the client has now. -/
def Current (s : Server D) (conn : Connection D) (params : Notify) : Prop :=
  ∃ job ∈ s.created, ∃ payoutScript fClean,
    notifyParams job payoutScript fClean = some params ∧
      (job ∈ s.mapJobs → payoutScript = conn.client.payoutScript)

/-- All announced work is current, and the job thread only writes to clients that
exist. -/
structure WorkCurrent (s : Server D) : Prop where
  current : ∀ (c : ℕ) (conn : Connection D) (params : Notify), s.clients[c]? = some conn →
    IsAnnounced s c conn params → Current s conn params
  sending : ∀ job fClean vClients c params,
    s.jobThread = .sending job fClean vClients c params → c < s.clients.length

/-- The steps that keep announced work current. The payout script of a client
changes only while none of the work it was announced is in the map, and no job
is registered after the job counter reached its maximum. -/
def KeepsPayout (env : StratumEnv D) (s : Server D) : Event → Prop
  | .line c strLine _ => ∀ conn script, s.clients[c]? = some conn →
      requestedScript env strLine = some script → script = conn.client.payoutScript ∨
        ∀ params, IsAnnounced s c conn params → findJob s.mapJobs params.jobId = none
  | .registerJob => s.nJobCounter ≠ 0xffffffff
  | _ => True

variable {job : StratumJob} {fClean : Bool}

theorem notifyParams_jobId {payoutScript : CScript}
    {params : Notify} (h : notifyParams job payoutScript fClean = some params) :
    params.jobId = job.id := by
  obtain ⟨parts, -, rfl⟩ := Option.map_eq_some_iff.1 h
  rfl

variable {s s' : Server D} {e : Event} {c : ℕ} {conn conn' : Connection D} {params : Notify}

theorem ClientMove.payoutScript (h : ClientMove env s c conn e conn') :
    conn'.client.payoutScript = conn.client.payoutScript ∨
      ∃ strLine clock, e = .line c strLine clock ∧
        requestedScript env strLine = some conn'.client.payoutScript := by
  rcases h.line_or_unchanged with ⟨strLine, clock, handled, rfl, hhandled, heq⟩ | hsame
  · have hkeeps := (handleLine_keeps hhandled).2
    rw [heq]
    cases hscript : requestedScript env strLine with
    | none =>
      rw [hscript] at hkeeps
      exact .inl hkeeps
    | some script =>
      rw [hscript] at hkeeps
      exact .inr ⟨strLine, clock, rfl, hscript.trans (congrArg some hkeeps.symm)⟩
  · exact .inl hsame.payoutScript

theorem ClientMove.announced (h : ClientMove env s c conn e conn')
    (hparams : params ∈ conn'.client.announced) :
    params ∈ conn.client.announced ∨
      (∃ job, conn.thread = .announce job ∧ e = .subscription c ∧
        notifyParams job conn.client.payoutScript true = some params) ∨
      ∃ job fClean vClients, s.jobThread = .sending job fClean vClients c params := by
  cases h with
  | line strLine clock handled hidle hhandled =>
    exact .inl ((handleLine_keeps hhandled).1.announced ▸ hparams)
  | close =>
    rw [closeConnection_client] at hparams
    exact .inl hparams
  | subscription =>
    unfold stepSubscription at hparams
    split at hparams
    · split at hparams <;> exact .inl hparams
    · rename_i job hthread
      unfold StratumClient.sendNotify at hparams
      dsimp only at hparams
      split at hparams
      · rename_i params' hparams'
        rw [StratumClient.announced_send_notify, mem_append, mem_singleton] at hparams
        rcases hparams with hparams | rfl
        · exact .inl hparams
        · exact .inr (.inl ⟨job, hthread, rfl, hparams'⟩)
      · exact .inl hparams
    · exact .inl hparams
  | vardiff nNow => exact .inl (announced_adjustDifficulty nNow conn.client ▸ hparams)
  | notify job fClean vClients params' hthread =>
    rw [StratumClient.announced_send_notify, mem_append, mem_singleton] at hparams
    rcases hparams with hparams | rfl
    · exact .inl hparams
    · exact .inr (.inr ⟨job, fClean, vClients, hthread⟩)
  | _ => exact .inl hparams

theorem Effect.sending (h : Effect env s e s')
    {vClients : List ℕ} (hthread : s'.jobThread = .sending job fClean vClients c params) :
    s.jobThread = .sending job fClean vClients c params ∨
      e = .buildNotify ∧ s.jobThread.job? = some job ∧ ∃ conn, s.clients[c]? = some conn ∧
        notifyParams job conn.client.payoutScript fClean = some params := by
  cases h with
  | buildNotify job' fClean' c' vClients' conn params' hthread' hconn hparams =>
    cases hthread
    exact .inr ⟨rfl, by rw [hthread']; rfl, conn, hconn, hparams⟩
  | buildTemplate | readHeight | registerJob | startBroadcast | finish | passOver | sendNotify =>
    exact nomatch hthread
  | _ => exact .inl hthread

theorem Effect.mem_mapJobs (h : Effect env s e s') (hreg : Registry s)
    (hok : KeepsPayout env s e) (hjob : job ∈ s.created)
    (hmem : job ∈ s'.mapJobs) : job ∈ s.mapJobs := by
  cases h with
  | registerJob job' hthread =>
    rcases mem_registerJob hmem with rfl | hmem
    · exact absurd rfl (hreg.id_fresh hok _ hjob)
    · exact hmem
  | _ => exact hmem

theorem Effect.isAnnounced (h : Effect env s e s') (hreg : Registry s)
    (hconn : s.clients[c]? = some conn) (hmove : ClientMove env s c conn e conn')
    (hann : IsAnnounced s' c conn' params) :
    IsAnnounced s c conn params ∨
      (∀ strLine clock, e ≠ .line c strLine clock) ∧ ∃ job ∈ s.created, ∃ fClean,
        notifyParams job conn.client.payoutScript fClean = some params := by
  rcases hann with hsent | ⟨job, fClean, vClients, hthread⟩
  · rcases hmove.announced hsent with hsent | ⟨job, hthread, rfl, hparams⟩ | hsending
    · exact .inl (.inl hsent)
    · exact .inr ⟨fun _ _ => nofun, job, hreg.announce c conn job hconn hthread, true, hparams⟩
    · exact .inl (.inr hsending)
  · rcases h.sending hthread with hthread | ⟨rfl, hjob, conn₀, hconn₀, hparams⟩
    · exact .inl (.inr ⟨job, fClean, vClients, hthread⟩)
    · cases Option.some_inj.1 (hconn.symm.trans hconn₀)
      exact .inr ⟨fun _ _ => nofun, job, hreg.jobThread job hjob, fClean, hparams⟩

theorem WorkCurrent.init (tip : uint256) : WorkCurrent (Server.init tip : Server D) where
  current := fun _ _ _ h => nomatch h
  sending := fun _ _ _ _ _ h => nomatch h

theorem WorkCurrent.effect (hs : WorkCurrent s) (hreg : Registry s) (h : Effect env s e s')
    (hok : KeepsPayout env s e) : WorkCurrent s' := by
  refine ⟨fun c conn' params hconn' hann => ?_, fun job fClean vClients c params hthread => ?_⟩
  · rcases h.client hconn' with ⟨nNow, rfl, rfl, -, rfl⟩ | ⟨conn, hconn, hmove⟩
    · -- the job thread writes to no client that is yet to come
      rcases hann with hsent | ⟨job, fClean, vClients, hthread⟩
      · exact nomatch hsent
      · rcases h.sending hthread with hthread | ⟨he, -⟩
        · exact absurd (hs.sending _ _ _ _ _ hthread) (lt_irrefl _)
        · exact nomatch he
    · rcases h.isAnnounced hreg hconn hmove hann with hann | ⟨hline, job, hjob, fClean, hparams⟩
      · obtain ⟨job, hjob, script, fClean, hparams, hscript⟩ := hs.current c conn params hconn hann
        refine ⟨job, h.mem_created hjob, script, fClean, hparams, fun hmem => ?_⟩
        have hmem₀ := h.mem_mapJobs hreg hok hjob hmem
        rw [hscript hmem₀]
        rcases hmove.payoutScript with heq | ⟨strLine, clock, rfl, hreq⟩
        · exact heq.symm
        · rcases hok conn _ hconn hreq with heq | hnone
          · exact heq.symm
          · have hmiss := find?_eq_none.1 (hnone params hann) job hmem₀
            exact absurd (by simp [notifyParams_jobId hparams]) hmiss
      · refine ⟨job, h.mem_created hjob, _, fClean, hparams, fun _ => ?_⟩
        rcases hmove.payoutScript with heq | ⟨strLine, clock, he, -⟩
        · exact heq.symm
        · exact absurd he (hline strLine clock)
  · refine lt_of_lt_of_le ?_ h.length_clients
    rcases h.sending hthread with hthread | ⟨-, -, conn, hconn, -⟩
    · exact hs.sending _ _ _ _ _ hthread
    · exact (List.getElem?_eq_some_iff.1 hconn).1

end

/-- Two headers for a submission of client `c`: the one that `HandleSubmit`
rebuilds, and the one that the miner built from the last notification sent to it
for that job. There are none if the job is not in the map or was not announced. -/
def submissionHeaders (env : StratumEnv D) (s : Server D) (c : ℕ) (p : SubmitParams) :
    Option (CPureBlockHeader × CPureBlockHeader) := do
  let conn ← s.clients[c]?
  let job ← findJob s.mapJobs p.strJob
  let params ← conn.client.lastNotify p.strJob
  let cbTx ← (rebuildCoinbase job conn.client (parseHex p.strEn2)).toOption
  return (submitHeader env job cbTx p.nTime p.nNonce,
    minerHeader env params (format08x conn.client.nExtraNonce1) (parseHex p.strEn2) p.nTime p.nNonce)

/-- Whatever a client submits with an extranonce of the announced size is
validated as the work that was announced. -/
def WorkValidated (env : StratumEnv D) (s : Server D) : Prop :=
  ∀ (c : ℕ) (p : SubmitParams) (rebuilt mined : CPureBlockHeader),
    (parseHex p.strEn2).length = 4 → submissionHeaders env s c p = some (rebuilt, mined) →
      rebuilt = mined

theorem WorkCurrent.workValidated {s : Server D} (hs : WorkCurrent s) (hreg : Registry s) :
    WorkValidated env s := by
  intro c p rebuilt mined hlen h
  unfold submissionHeaders at h
  obtain ⟨conn, hconn, h⟩ := Option.bind_eq_some_iff.1 h
  obtain ⟨job, hjob, h⟩ := Option.bind_eq_some_iff.1 h
  obtain ⟨params, hparams, h⟩ := Option.bind_eq_some_iff.1 h
  obtain ⟨cbTx, hcb, h⟩ := Option.bind_eq_some_iff.1 h
  cases h
  have hsent : params ∈ conn.client.announced :=
    mem_reverse.1 (mem_of_find?_eq_some hparams)
  obtain ⟨job', hjob', script, fClean, hparams', hscript⟩ :=
    hs.current c conn params hconn (.inl hsent)
  -- the notification and the submission name the same job
  have hmem : job ∈ s.mapJobs := mem_of_find?_eq_some hjob
  have hid : job.id = p.strJob := by simpa using find?_some hjob
  have hid' : job'.id = p.strJob := by
    rw [← notifyParams_jobId hparams']
    simpa using find?_some hparams
  have heq : job = job' :=
    hreg.distinct job (hreg.mapJobs job hmem) job' hjob' (hid.trans hid'.symm)
  subst heq
  rw [hscript hmem] at hparams'
  exact submitHeader_eq_minerHeader hparams' hlen (eq_ok_of_toOption hcb) p.nTime p.nNonce

/-- In a run that changes no payout script under work still in the map, and in
which the job counter does not wrap, the header that is validated is the one the
miner built from what was announced to it. -/
theorem announced_work_is_validated (env : StratumEnv D) (tip : uint256) (events : List Event)
    (hmeet : AllMeet (step env) (KeepsPayout env) (Server.init tip) events) :
    WorkValidated env (run env tip events) := by
  have hstep (s : Server D) (e : Event) (hok : KeepsPayout env s e)
      (hs : Registry s ∧ WorkCurrent s) : Registry (step env s e) ∧ WorkCurrent (step env s e) := by
    refine ⟨hs.1.effect (step_effect e) ?_, hs.2.effect hs.1 (step_effect e) hok⟩
    rintro rfl
    exact hok
  have hrun := runEvents_keeps hstep ⟨Registry.init tip, WorkCurrent.init tip⟩ hmeet
  exact hrun.2.workValidated hrun.1

def sampleSubscribed : List Event :=
  sampleCreateJob ++
    [.connect 100, .line 0 [0] sampleClock, .subscription 0, .subscription 0]

def sampleParams : SubmitParams := ⟨str "1", str "0000000a", str "00000001", str "00000002"⟩

theorem announced_work_is_validated_sample :
    ∃ header, submissionHeaders sampleEnv (run sampleEnv 7 sampleSubscribed) 0 sampleParams =
      some (header, header) := by
  have hmeet : AllMeet (step sampleEnv) (KeepsPayout sampleEnv) (Server.init 7)
      sampleSubscribed := by
    have hcounter : (step sampleEnv (step sampleEnv (Server.init 7)
        (.buildTemplate sampleTemplate 100)) .readHeight).nJobCounter ≠ 0xffffffff := by
      decide +kernel
    have hnone : requestedScript sampleEnv [0] = none := by decide +kernel
    refine ⟨trivial, trivial, hcounter, trivial, fun _ script _ hscript => ?_, trivial, trivial,
      trivial⟩
    exact nomatch hnone.symm.trans hscript
  have hsome : (submissionHeaders sampleEnv (run sampleEnv 7 sampleSubscribed) 0
      sampleParams).isSome = true := by
    decide +kernel
  obtain ⟨⟨rebuilt, mined⟩, hheaders⟩ := Option.isSome_iff_exists.1 hsome
  have heq := announced_work_is_validated sampleEnv 7 sampleSubscribed hmeet 0 sampleParams
    rebuilt mined (by decide) hheaders
  exact ⟨rebuilt, by rw [hheaders, heq]⟩

/-- The ordinary order: the client subscribes, is sent the current job, and then
authorizes with its own address. Its work on that job is not what is validated. -/
theorem authorize_invalidates_announced_work :
    ¬ WorkValidated sampleEnv
      (run sampleEnv 7 (sampleSubscribed ++ [.line 0 [1] sampleClock])) := by
  intro h
  have hne : ((submissionHeaders sampleEnv
      (run sampleEnv 7 (sampleSubscribed ++ [.line 0 [1] sampleClock])) 0 sampleParams).map
        fun headers => decide (headers.1 = headers.2)) = some false := by
    decide +kernel
  obtain ⟨⟨rebuilt, mined⟩, hheaders, hfalse⟩ := Option.map_eq_some_iff.1 hne
  exact of_decide_eq_false hfalse (h 0 sampleParams rebuilt mined (by decide) hheaders)

end Stratum

end Coinyecoin
