import Coinyecoin.Stratum.Job

/-!
# Stratum clients

The state of a connection, the messages the server sends on it, and
`SendNotify`. Difficulties are floating-point numbers in the source; here they
are of an arbitrary type `D`, and the few operations on them are parameters, as
are the hash functions, the reading of JSON and of addresses, and the options the
server was started with.

A client keeps what was sent to it, in order. A message counts as sent when
`SendJson` is called: a connection that breaks in the middle is left out.
-/

namespace Coinyecoin

namespace Stratum

open Foundation

/-- A JSON value. A number is kept as its text. -/
inductive UniValue where
  | null
  | bool (b : Bool)
  | num (text : StdString)
  | str (s : StdString)
  | arr (values : List UniValue)
  | obj (fields : List (StdString × UniValue))
deriving Repr

namespace UniValue

/-- `find_value`: the first field of the name, null if there is none. -/
def findValue (fields : List (StdString × UniValue)) (name : StdString) : UniValue :=
  match fields.find? fun field => field.1 == name with
  | some field => field.2
  | none => .null

/-- `operator[]` of an array: null beyond its end. -/
def index (values : List UniValue) (i : ℕ) : UniValue := values.getD i .null

def getStr : UniValue → Except Fault StdString
  | .str s => .ok s
  | _ => .error (.thrown "JSON value is not a string as expected")

def ofNat (n : ℕ) : UniValue := .num (Coinyecoin.str (toString n))

end UniValue

structure Notify where
  jobId : StdString
  prevHash : StdString
  coinb1 : StdString
  coinb2 : StdString
  merkleBranch : List StdString
  nVersion : StdString
  nBits : StdString
  nTime : StdString
  fClean : Bool
deriving DecidableEq, Repr

/-- What the server sends: the answer to a request, or one of its two own
methods. -/
inductive Message (D : Type) where
  | reply (id result error : UniValue)
  | setDifficulty (dDiff : D)
  | notify (params : Notify)

def Message.notify? {D : Type} : Message D → Option Notify
  | .notify params => some params
  | _ => none

/-- The parts of the node that the server relies on, and its options. -/
structure StratumEnv (D : Type) where
  hash : Bytes → uint256
  hashPair : uint256 → uint256 → uint256
  getPoWHash : CPureBlockHeader → uint256
  shareTargetForDiff : D → uint256
  checkProofOfWork : uint256 → UInt32 → Int32 → Bool
  readJson : StdString → Option UniValue
  getReal : StdString → Except Fault D
  suggestible : D → Bool
  vardiff : D → ℕ → ℤ → Option D
  scriptForAddress : StdString → Option CScript
  defaultPayoutScript : CScript
  startDiff : D
  maxConn : ℕ
  blockHeight : uint256 → Int32

structure StratumClient (D : Type) where
  nExtraNonce1 : UInt32
  fSubscribed : Bool
  fAuthorized : Bool
  strWorker : StdString
  payoutScript : CScript
  fPayoutFromUser : Bool
  dDiff : D
  dPrevDiff : D
  nDiffChangeTime : ℤ
  nVardiffStart : ℤ
  nVardiffShares : ℕ
  nSharesAccepted : ℕ
  nSharesRejected : ℕ
  setDupes : List StdString
  sent : List (Message D)

def swapWords : Bytes → Bytes
  | a :: b :: c :: d :: bytes => d :: c :: b :: a :: swapWords bytes
  | _ => []

def prevHashStratumHex (hash : uint256) : StdString := hexStr (swapWords (writeUint256 hash))

/-- The parameters `SendNotify` sends, if the coinbase can be built. -/
def notifyParams (job : StratumJob) (payoutScript : CScript) (fClean : Bool) : Option Notify :=
  (buildCoinbaseParts job payoutScript).map fun parts =>
    { jobId := job.id
      prevHash := prevHashStratumHex job.hashPrevBlock
      coinb1 := hexStr parts.1
      coinb2 := hexStr parts.2
      merkleBranch := job.vMerkleSteps.map fun step => hexStr (writeUint256 step)
      nVersion := format08x job.nVersion.toUInt32
      nBits := format08x job.nBits
      nTime := format08x job.nTime
      fClean := fClean }

namespace StratumClient

variable {D : Type}

/-- A connection that was just accepted, the `n`-th of the server, and whose
thread started at `nNow`. -/
def new (env : StratumEnv D) (n : UInt32) (nNow : ℤ) : StratumClient D where
  nExtraNonce1 := n
  fSubscribed := false
  fAuthorized := false
  strWorker := []
  payoutScript := env.defaultPayoutScript
  fPayoutFromUser := false
  dDiff := env.startDiff
  dPrevDiff := env.startDiff
  nDiffChangeTime := 0
  nVardiffStart := nNow
  nVardiffShares := 0
  nSharesAccepted := 0
  nSharesRejected := 0
  setDupes := []
  sent := []

def send (client : StratumClient D) (msg : Message D) : StratumClient D :=
  { client with sent := client.sent ++ [msg] }

def sendResult (client : StratumClient D) (id result : UniValue) : StratumClient D :=
  client.send (.reply id result .null)

def sendError (client : StratumClient D) (id : UniValue) (nCode : ℕ) (strMsg : String) :
    StratumClient D :=
  client.send (.reply id .null (.arr [.ofNat nCode, .str (str strMsg), .null]))

def sendNotify (client : StratumClient D) (job : StratumJob) (fClean : Bool) : StratumClient D :=
  match notifyParams job client.payoutScript fClean with
  | some params => client.send (.notify params)
  | none => client

def announced (client : StratumClient D) : List Notify := client.sent.filterMap Message.notify?

def lastNotify (client : StratumClient D) (jobId : StdString) : Option Notify :=
  client.announced.reverse.find? fun params => params.jobId = jobId

variable (client : StratumClient D)

@[simp] theorem announced_send_notify (params : Notify) :
    (client.send (.notify params)).announced = client.announced ++ [params] := by
  simp [announced, send, Message.notify?]

@[simp] theorem announced_send_reply (id result error : UniValue) :
    (client.send (.reply id result error)).announced = client.announced := by
  simp [announced, send, Message.notify?]

end StratumClient

end Stratum

end Coinyecoin
