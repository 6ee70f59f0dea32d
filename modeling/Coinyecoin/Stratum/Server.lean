import Coinyecoin.Foundation.Runs
import Coinyecoin.Stratum.Request

/-!
# The stratum server

The server as a state machine over the steps of its threads: one thread per
client, the thread that accepts connections, and the thread that creates jobs
and announces them. A step is a stretch of one thread that no other thread can
come between, because it holds a lock or touches only what is its own.

The job thread builds a template and reads the height of the chain in two
critical sections, registers the job in a third, and then builds and sends the
notification of one client after the other. When it creates a job is left open,
as are the moves of the chain tip.

`created` and `shares` record all jobs registered and all shares accepted; the
code does not keep them.
-/

namespace Coinyecoin

namespace Stratum

open Foundation List

variable {D : Type}

section

/-- The job `CreateJob` makes of a template, before it has an id. -/
def jobOfTemplate (env : StratumEnv D) (tmpl : CBlockTemplate) (nCreated : ℤ) (nHeight : Int32) :
    StratumJob where
  id := []
  tmpl := tmpl
  hashPrevBlock := tmpl.header.hashPrevBlock
  nVersion := tmpl.header.nVersion
  nBits := tmpl.header.nBits
  nTime := tmpl.header.nTime
  nHeight := nHeight
  vMerkleSteps := computeMerkleSteps env.hashPair (CTransaction.getHash env.hash) tmpl.block
  nCreated := nCreated

/-- `g_mapJobs[job->id] = job`; the map is kept in the order of its keys. -/
def insertJob (job : StratumJob) : List StratumJob → List StratumJob
  | [] => [job]
  | first :: mapJobs =>
    if job.id < first.id then job :: first :: mapJobs
    else if job.id = first.id then job :: mapJobs
    else first :: insertJob job mapJobs

/-- The job created first, of several the one that comes first in the map. -/
def oldestJob (first : StratumJob) (mapJobs : List StratumJob) : StratumJob :=
  mapJobs.foldl (fun oldest job => if job.nCreated < oldest.nCreated then job else oldest) first

/-- The loop that keeps only the most recent jobs around; the first argument
bounds its rounds. -/
def pruneJobs (id : StdString) : ℕ → List StratumJob → List StratumJob
  | 0, mapJobs => mapJobs
  | _, [] => []
  | fuel + 1, first :: mapJobs =>
    if (first :: mapJobs).length > 8 then
      let oldest := oldestJob first mapJobs
      if oldest.id = id then first :: mapJobs
      else pruneJobs id fuel ((first :: mapJobs).eraseP fun job => job.id == oldest.id)
    else first :: mapJobs

def registerJob (job : StratumJob) (mapJobs : List StratumJob) : List StratumJob :=
  let inserted := insertJob job mapJobs
  pruneJobs job.id inserted.length inserted

variable {job job' : StratumJob} {mapJobs : List StratumJob}

theorem mem_insertJob (h : job' ∈ insertJob job mapJobs) : job' = job ∨ job' ∈ mapJobs := by
  induction mapJobs with
  | nil => exact .inl (mem_singleton.1 h)
  | cons first mapJobs ih =>
    rw [insertJob] at h
    split_ifs at h
    · exact mem_cons.1 h
    · exact (mem_cons.1 h).imp_right (mem_cons_of_mem first)
    · rcases mem_cons.1 h with rfl | h
      · exact .inr mem_cons_self
      · exact (ih h).imp_right (mem_cons_of_mem first)

theorem mem_of_mem_pruneJobs {id : StdString} {fuel : ℕ}
    (h : job ∈ pruneJobs id fuel mapJobs) : job ∈ mapJobs := by
  induction fuel generalizing mapJobs with
  | zero => exact h
  | succ fuel ih =>
    cases mapJobs with
    | nil => exact h
    | cons first mapJobs =>
      simp only [pruneJobs] at h
      split_ifs at h
      · exact h
      · exact mem_of_mem_eraseP (ih h)
      · exact h

theorem mem_registerJob (h : job' ∈ registerJob job mapJobs) : job' = job ∨ job' ∈ mapJobs :=
  mem_insertJob (mem_of_mem_pruneJobs h)

end

/-- Where the thread of a client is: waiting for a line, about to look up the
current job, or about to announce the one it found. -/
inductive ClientThread where
  | idle
  | lookup
  | announce (job : StratumJob)

/-- Where the job thread is. -/
inductive JobThread where
  | idle
  | built (tmpl : CBlockTemplate) (nCreated : ℤ)
  | measured (job : StratumJob)
  | registered (job : StratumJob)
  | broadcast (job : StratumJob) (fClean : Bool) (vClients : List ℕ)
  | sending (job : StratumJob) (fClean : Bool) (vClients : List ℕ) (c : ℕ) (params : Notify)

structure Connection (D : Type) where
  client : StratumClient D
  fOpen : Bool
  thread : ClientThread

structure Server (D : Type) where
  tip : uint256
  mapJobs : List StratumJob
  strCurrentJob : StdString
  nJobCounter : UInt32
  nClientCounter : UInt32
  clients : List (Connection D)
  jobThread : JobThread
  created : List StratumJob
  shares : List (ℕ × Share)

def Server.init (tip : uint256) : Server D where
  tip := tip
  mapJobs := []
  strCurrentJob := []
  nJobCounter := 0
  nClientCounter := 0
  clients := []
  jobThread := .idle
  created := []
  shares := []

/-- The steps. Those of the job thread are in the order in which it takes them. -/
inductive Event where
  | connect (nNow : ℤ)
  | disconnect (c : ℕ)
  | line (c : ℕ) (strLine : StdString) (clock : Clock)
  | subscription (c : ℕ)
  | vardiff (c : ℕ) (nNow : ℤ)
  | changeTip (hash : uint256)
  | buildTemplate (tmpl : CBlockTemplate) (nNow : ℤ)
  | readHeight
  | registerJob
  | startBroadcast (fClean : Bool)
  | buildNotify
  | sendNotify

section

variable (env : StratumEnv D)

/-- Aims for a share every four seconds, looking back every 45. -/
def adjustDifficulty (nNow : ℤ) (client : StratumClient D) : StratumClient D :=
  let nElapsed := nNow - client.nVardiffStart
  if client.fSubscribed ∧ nElapsed ≥ 45 then
    let client' :=
      match env.vardiff client.dDiff client.nVardiffShares nElapsed with
      | some dNew => StratumClient.send
          { client with dPrevDiff := client.dDiff, dDiff := dNew, nDiffChangeTime := nNow }
          (.setDifficulty dNew)
      | none => client
    { client' with nVardiffStart := nNow, nVardiffShares := 0 }
  else client

/-- The thread of a client stops between two lines. -/
def closeConnection (conn : Connection D) : Connection D :=
  match conn.thread with
  | .idle => { conn with fOpen := false }
  | _ => conn

def Connection.handled (conn : Connection D) (handled : Handled D) : Connection D :=
  { conn with
    client := handled.client
    thread := if handled.fLookup then .lookup else .idle }

def stepLine (s : Server D) (c : ℕ) (strLine : StdString) (clock : Clock)
    (conn : Connection D) : Server D :=
  match conn.fOpen, conn.thread with
  | true, .idle =>
    match handleLine env clock s.mapJobs conn.client strLine with
    | .ok handled =>
      { s with
        clients := s.clients.set c (conn.handled handled)
        shares := s.shares ++ handled.share.toList.map fun share => (c, share) }
    | .error _ => s
  | _, _ => s

/-- `mining.subscribe` takes the current job from the map. -/
def currentJob (s : Server D) : Option StratumJob :=
  if s.strCurrentJob.isEmpty then none else findJob s.mapJobs s.strCurrentJob

/-- The thread of a client goes on with a subscription. -/
def stepSubscription (s : Server D) (conn : Connection D) : Connection D :=
  match conn.thread with
  | .lookup =>
    match currentJob s with
    | some job => { conn with thread := .announce job }
    | none => { conn with thread := .idle }
  | .announce job => { conn with client := conn.client.sendNotify job true, thread := .idle }
  | .idle => conn

def openClients (s : Server D) : List ℕ :=
  (List.range s.clients.length).filter fun c => s.clients[c]?.any Connection.fOpen

def stepBuildNotify (s : Server D) : Server D :=
  match s.jobThread with
  | .broadcast _ _ [] => { s with jobThread := .idle }
  | .broadcast job fClean (c :: vClients) =>
    match s.clients[c]? with
    | some conn =>
      match conn.client.fSubscribed,
          notifyParams job conn.client.payoutScript fClean with
      | true, some params => { s with jobThread := .sending job fClean vClients c params }
      | _, _ => { s with jobThread := .broadcast job fClean vClients }
    | none => { s with jobThread := .broadcast job fClean vClients }
  | _ => s

/-- The third critical section of `CreateJob`: the job gets its id and enters the
map. -/
def Server.register (s : Server D) (job : StratumJob) : Server D :=
  let nJobCounter := s.nJobCounter + 1
  let job := { job with id := formatX nJobCounter }
  { s with
    mapJobs := registerJob job s.mapJobs
    strCurrentJob := job.id
    nJobCounter := nJobCounter
    jobThread := .registered job
    created := s.created ++ [job] }

def step (s : Server D) : Event → Server D
  | .connect nNow =>
    if (openClients s).length ≥ env.maxConn then s
    else
      let n := s.nClientCounter + 1
      { s with
        nClientCounter := n
        clients := s.clients ++ [⟨StratumClient.new env n nNow, true, .idle⟩] }
  | .disconnect c => { s with clients := s.clients.modify c closeConnection }
  | .line c strLine clock =>
    match s.clients[c]? with
    | some conn => stepLine env s c strLine clock conn
    | none => s
  | .subscription c => { s with clients := s.clients.modify c (stepSubscription s) }
  | .vardiff c nNow =>
    { s with clients := s.clients.modify c fun conn =>
        { conn with client := adjustDifficulty env nNow conn.client } }
  | .changeTip hash => { s with tip := hash }
  | .buildTemplate tmpl nNow =>
    match s.jobThread with
    | .idle =>
      if tmpl.header.hashPrevBlock = s.tip then { s with jobThread := .built tmpl nNow }
      else s
    | _ => s
  | .readHeight =>
    match s.jobThread with
    | .built tmpl nCreated =>
      { s with jobThread :=
          .measured (jobOfTemplate env tmpl nCreated (env.blockHeight s.tip + 1)) }
    | _ => s
  | .registerJob =>
    match s.jobThread with
    | .measured job => s.register job
    | _ => s
  | .startBroadcast fClean =>
    match s.jobThread with
    | .registered job => { s with jobThread := .broadcast job fClean (openClients s) }
    | _ => s
  | .buildNotify => stepBuildNotify s
  | .sendNotify =>
    match s.jobThread with
    | .sending job fClean vClients c params =>
      { s with
        clients := s.clients.modify c fun conn =>
          { conn with client := conn.client.send (.notify params) }
        jobThread := .broadcast job fClean vClients }
    | _ => s

def run (tip : uint256) (events : List Event) : Server D :=
  runEvents (step env) (Server.init tip) events

end

structure Unchanged (client client' : StratumClient D) : Prop where
  nExtraNonce1 : client'.nExtraNonce1 = client.nExtraNonce1
  payoutScript : client'.payoutScript = client.payoutScript
  setDupes : client'.setDupes = client.setDupes

theorem adjustDifficulty_unchanged {env : StratumEnv D} {nNow : ℤ} {client : StratumClient D} :
    Unchanged client (adjustDifficulty env nNow client) := by
  unfold adjustDifficulty
  dsimp only
  split
  · split <;> exact ⟨rfl, rfl, rfl⟩
  · exact ⟨rfl, rfl, rfl⟩

theorem announced_adjustDifficulty {env : StratumEnv D} (nNow : ℤ) (client : StratumClient D) :
    (adjustDifficulty env nNow client).announced = client.announced := by
  unfold adjustDifficulty
  dsimp only
  split
  · split
    · simp [StratumClient.announced, StratumClient.send, Message.notify?]
    · rfl
  · rfl

theorem stepSubscription_unchanged (s : Server D) {conn : Connection D} :
    Unchanged conn.client (stepSubscription s conn).client := by
  unfold stepSubscription
  split
  · split <;> exact ⟨rfl, rfl, rfl⟩
  · unfold StratumClient.sendNotify
    dsimp only
    split <;> exact ⟨rfl, rfl, rfl⟩
  · exact ⟨rfl, rfl, rfl⟩

theorem closeConnection_client (conn : Connection D) :
    (closeConnection conn).client = conn.client := by
  unfold closeConnection
  split <;> rfl

section

variable (env : StratumEnv D) (s : Server D)

/-- What a step can do: nothing, or one of the moves below under its guard. -/
inductive Effect : Event → Server D → Prop
  | none (e : Event) : Effect e s
  | connect (nNow : ℤ) : Effect (.connect nNow)
      { s with
        nClientCounter := s.nClientCounter + 1
        clients := s.clients ++
          [⟨StratumClient.new env (s.nClientCounter + 1) nNow, true, .idle⟩] }
  | disconnect (c : ℕ) : Effect (.disconnect c)
      { s with clients := s.clients.modify c closeConnection }
  | line (c : ℕ) (strLine : StdString) (clock : Clock) (conn : Connection D)
      (handled : Handled D) (hconn : s.clients[c]? = some conn) (hidle : conn.thread = .idle)
      (hhandled : handleLine env clock s.mapJobs conn.client strLine = .ok handled) :
      Effect (.line c strLine clock)
        { s with
          clients := s.clients.set c (conn.handled handled)
          shares := s.shares ++ handled.share.toList.map fun share => (c, share) }
  | subscription (c : ℕ) : Effect (.subscription c)
      { s with clients := s.clients.modify c (stepSubscription s) }
  | vardiff (c : ℕ) (nNow : ℤ) : Effect (.vardiff c nNow)
      { s with clients := s.clients.modify c fun conn =>
          { conn with client := adjustDifficulty env nNow conn.client } }
  | changeTip (hash : uint256) : Effect (.changeTip hash) { s with tip := hash }
  | buildTemplate (tmpl : CBlockTemplate) (nNow : ℤ) (hthread : s.jobThread = .idle)
      (hprev : tmpl.header.hashPrevBlock = s.tip) :
      Effect (.buildTemplate tmpl nNow) { s with jobThread := .built tmpl nNow }
  | readHeight (tmpl : CBlockTemplate) (nCreated : ℤ)
      (hthread : s.jobThread = .built tmpl nCreated) :
      Effect .readHeight
        { s with jobThread :=
            .measured (jobOfTemplate env tmpl nCreated (env.blockHeight s.tip + 1)) }
  | registerJob (job : StratumJob) (hthread : s.jobThread = .measured job) :
      Effect .registerJob (s.register job)
  | startBroadcast (job : StratumJob) (fClean : Bool) (hthread : s.jobThread = .registered job) :
      Effect (.startBroadcast fClean)
        { s with jobThread := .broadcast job fClean (openClients s) }
  | finish (job : StratumJob) (fClean : Bool) (hthread : s.jobThread = .broadcast job fClean []) :
      Effect .buildNotify { s with jobThread := .idle }
  | passOver (job : StratumJob) (fClean : Bool) (c : ℕ) (vClients : List ℕ)
      (hthread : s.jobThread = .broadcast job fClean (c :: vClients)) :
      Effect .buildNotify { s with jobThread := .broadcast job fClean vClients }
  | buildNotify (job : StratumJob) (fClean : Bool) (c : ℕ) (vClients : List ℕ)
      (conn : Connection D) (params : Notify)
      (hthread : s.jobThread = .broadcast job fClean (c :: vClients))
      (hconn : s.clients[c]? = some conn)
      (hparams : notifyParams job conn.client.payoutScript fClean = some params) :
      Effect .buildNotify { s with jobThread := .sending job fClean vClients c params }
  | sendNotify (job : StratumJob) (fClean : Bool) (vClients : List ℕ) (c : ℕ) (params : Notify)
      (hthread : s.jobThread = .sending job fClean vClients c params) :
      Effect .sendNotify
        { s with
          clients := s.clients.modify c fun conn =>
            { conn with client := conn.client.send (.notify params) }
          jobThread := .broadcast job fClean vClients }

variable {env s}

theorem step_effect (e : Event) : Effect env s e (step env s e) := by
  cases e with
  | connect nNow =>
    simp only [step]
    split
    · exact .none _
    · exact .connect nNow
  | disconnect c => exact .disconnect c
  | line c strLine clock =>
    simp only [step]
    split
    · rename_i conn hconn
      unfold stepLine
      split
      · rename_i hopen hidle
        split
        · rename_i handled hhandled
          exact .line c strLine clock conn handled hconn hidle hhandled
        · exact .none _
      · exact .none _
    · exact .none _
  | subscription c => exact .subscription c
  | vardiff c nNow => exact .vardiff c nNow
  | changeTip hash => exact .changeTip hash
  | buildTemplate tmpl nNow =>
    simp only [step]
    split
    · rename_i hthread
      split
      · rename_i hprev
        exact .buildTemplate tmpl nNow hthread hprev
      · exact .none _
    · exact .none _
  | readHeight =>
    simp only [step]
    split
    · rename_i tmpl nCreated hthread
      exact .readHeight tmpl nCreated hthread
    · exact .none _
  | registerJob =>
    simp only [step]
    split
    · rename_i job hthread
      exact .registerJob job hthread
    · exact .none _
  | startBroadcast fClean =>
    simp only [step]
    split
    · rename_i job hthread
      exact .startBroadcast job fClean hthread
    · exact .none _
  | buildNotify =>
    simp only [step, stepBuildNotify]
    split
    · rename_i job fClean hthread
      exact .finish job fClean hthread
    · rename_i job fClean c vClients hthread
      split
      · rename_i conn hconn
        split
        · rename_i params hsub hparams
          exact .buildNotify job fClean c vClients conn params hthread hconn hparams
        · exact .passOver job fClean c vClients hthread
      · exact .passOver job fClean c vClients hthread
    · exact .none _
  | sendNotify =>
    simp only [step]
    split
    · rename_i job fClean vClients c params hthread
      exact .sendNotify job fClean vClients c params hthread
    · exact .none _

end

section

theorem getElem?_modify_eq_some {α : Type} {l : List α} {i j : ℕ} {f : α → α} {b : α}
    (h : (l.modify i f)[j]? = some b) : ∃ a, l[j]? = some a ∧ (b = a ∨ i = j ∧ b = f a) := by
  rw [getElem?_modify] at h
  obtain ⟨a, ha, hb⟩ := Option.map_eq_some_iff.1 h
  refine ⟨a, ha, ?_⟩
  split_ifs at hb with hij
  · exact .inr ⟨hij, hb.symm⟩
  · exact .inl hb.symm

inductive ClientMove (env : StratumEnv D) (s : Server D) (c : ℕ) (conn : Connection D) :
    Event → Connection D → Prop
  | stay (e : Event) : ClientMove env s c conn e conn
  | close : ClientMove env s c conn (.disconnect c) (closeConnection conn)
  | line (strLine : StdString) (clock : Clock) (handled : Handled D)
      (hidle : conn.thread = .idle)
      (hhandled : handleLine env clock s.mapJobs conn.client strLine = .ok handled) :
      ClientMove env s c conn (.line c strLine clock) (conn.handled handled)
  | subscription : ClientMove env s c conn (.subscription c) (stepSubscription s conn)
  | vardiff (nNow : ℤ) : ClientMove env s c conn (.vardiff c nNow)
      { conn with client := adjustDifficulty env nNow conn.client }
  | notify (job : StratumJob) (fClean : Bool) (vClients : List ℕ) (params : Notify)
      (hthread : s.jobThread = .sending job fClean vClients c params) :
      ClientMove env s c conn .sendNotify
        { conn with client := conn.client.send (.notify params) }

variable {env : StratumEnv D} {s s' : Server D} {e : Event} {c : ℕ} {conn' conn : Connection D}

theorem Effect.client (h : Effect env s e s') (hconn' : s'.clients[c]? = some conn') :
    (∃ nNow, e = .connect nNow ∧ c = s.clients.length ∧
        s'.nClientCounter = s.nClientCounter + 1 ∧
        conn' = ⟨StratumClient.new env (s.nClientCounter + 1) nNow, true, .idle⟩) ∨
      ∃ conn, s.clients[c]? = some conn ∧ ClientMove env s c conn e conn' := by
  cases h with
  | connect nNow =>
    change (s.clients ++ [_])[c]? = some conn' at hconn'
    rw [getElem?_append] at hconn'
    split_ifs at hconn' with hc
    · exact .inr ⟨conn', hconn', .stay _⟩
    · rw [getElem?_singleton] at hconn'
      split_ifs at hconn' with hzero
      exact .inl ⟨nNow, rfl, by omega, rfl, (Option.some_inj.1 hconn').symm⟩
  | disconnect c' =>
    obtain ⟨conn, hconn, rfl | ⟨rfl, rfl⟩⟩ := getElem?_modify_eq_some hconn'
    · exact .inr ⟨_, hconn, .stay _⟩
    · exact .inr ⟨conn, hconn, .close⟩
  | line c' strLine clock conn handled hconn hidle hhandled =>
    change (s.clients.set c' _)[c]? = some conn' at hconn'
    rw [getElem?_set] at hconn'
    split_ifs at hconn' with hc hlt
    · cases hconn'
      subst hc
      exact .inr ⟨conn, hconn, .line strLine clock handled hidle hhandled⟩
    · exact .inr ⟨conn', hconn', .stay _⟩
  | subscription c' =>
    obtain ⟨conn, hconn, rfl | ⟨rfl, rfl⟩⟩ := getElem?_modify_eq_some hconn'
    · exact .inr ⟨_, hconn, .stay _⟩
    · exact .inr ⟨conn, hconn, .subscription⟩
  | vardiff c' nNow =>
    obtain ⟨conn, hconn, rfl | ⟨rfl, rfl⟩⟩ := getElem?_modify_eq_some hconn'
    · exact .inr ⟨_, hconn, .stay _⟩
    · exact .inr ⟨conn, hconn, .vardiff nNow⟩
  | sendNotify job fClean vClients c' params hthread =>
    obtain ⟨conn, hconn, rfl | ⟨rfl, rfl⟩⟩ := getElem?_modify_eq_some hconn'
    · exact .inr ⟨_, hconn, .stay _⟩
    · exact .inr ⟨conn, hconn, .notify job fClean vClients params hthread⟩
  | _ => exact .inr ⟨conn', hconn', .stay _⟩

theorem ClientMove.line_or_unchanged (h : ClientMove env s c conn e conn') :
    (∃ strLine clock handled, e = .line c strLine clock ∧
        handleLine env clock s.mapJobs conn.client strLine = .ok handled ∧
        conn'.client = handled.client) ∨
      Unchanged conn.client conn'.client := by
  cases h with
  | line strLine clock handled hidle hhandled =>
    exact .inl ⟨strLine, clock, handled, rfl, hhandled, rfl⟩
  | close =>
    rw [closeConnection_client]
    exact .inr ⟨rfl, rfl, rfl⟩
  | subscription => exact .inr (stepSubscription_unchanged s)
  | vardiff nNow => exact .inr (adjustDifficulty_unchanged)
  | _ => exact .inr ⟨rfl, rfl, rfl⟩

theorem Effect.length_clients (h : Effect env s e s') : s.clients.length ≤ s'.clients.length := by
  cases h with
  | connect | disconnect | line | subscription | vardiff | sendNotify => simp
  | _ => exact le_rfl

theorem Effect.client_move (h : Effect env s e s') (hconn : s.clients[c]? = some conn) :
    ∃ conn', s'.clients[c]? = some conn' ∧ ClientMove env s c conn e conn' := by
  have hc : c < s.clients.length := (List.getElem?_eq_some_iff.1 hconn).1
  have hconn' := getElem?_eq_getElem (hc.trans_le h.length_clients)
  rcases h.client hconn' with ⟨-, -, rfl, -⟩ | ⟨conn₀, hconn₀, hmove⟩
  · exact absurd hc (lt_irrefl _)
  · cases hconn.symm.trans hconn₀
    exact ⟨_, hconn', hmove⟩

end

end Stratum

end Coinyecoin
