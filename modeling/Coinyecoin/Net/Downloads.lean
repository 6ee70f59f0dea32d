import Coinyecoin.Net.CompactBlocks

/-!
# Compact block downloads

The blocks in flight, and how `cmpctblock`, `blocktxn`, `block` and `headers`
messages and disconnections change them. The source keeps a queue of blocks per
node and a map of iterators into them; here the queue has the hashes of the blocks,
and the block that an iterator points to is in the map, with the node it is expected
from. `nBlocksInFlight` is the length of the queue.

What a handler reads of the block index is part of the event (`HeaderView`), and so
are the pool and the extra transactions at that time. `cs_main` is released before a
compact block that is complete is handled like an empty `blocktxn` message, so that
this is an event of its own.
-/

namespace Coinyecoin

open Foundation ReadStatus

abbrev NodeId := ℤ

def MAX_BLOCKS_IN_TRANSIT_PER_PEER : ℕ := 16

structure NodeEnv extends RelayEnv where
  getBlockHash : CBlockHeader → uint256

structure QueuedBlock where
  nodeid : NodeId
  partialBlock : Option PartiallyDownloadedBlock
deriving DecidableEq

structure Downloads where
  mapNodeState : Finmap fun _ : NodeId => List uint256
  mapBlocksInFlight : Finmap fun _ : uint256 => QueuedBlock

/-- What the handler of a compact block finds out about its header: whether the previous block is
known, whether the initial download is going on, whether the header is accepted and, if not, how bad
it is, whether its block is already stored, whether there is nothing to gain from it, whether the
tip is recent, whether compact blocks of this node are of the wrong version, and whether the block
is close to the tip. -/
structure HeaderView where
  fPrevKnown : Bool
  fInitialDownload : Bool
  fAccepted : Bool
  nDoS : ℕ
  fHaveData : Bool
  fKnowBetter : Bool
  fCanDirectFetch : Bool
  fWrongVersion : Bool
  fNearTip : Bool
deriving DecidableEq, Repr

inductive Reaction where
  | getheaders
  | getdata (hash : uint256)
  | getblocktxn (hash : uint256) (indexes : List ℕ)
  | misbehaving (howmuch : ℕ)
  | processBlockTxn (hash : uint256)
  | processHeaders (header : CBlockHeader)
  | processNewBlock (block : CWholeBlock)
deriving DecidableEq, Repr

namespace Downloads

def init : Downloads := ⟨∅, ∅⟩

variable (s : Downloads)

def vBlocksInFlight (nodeid : NodeId) : Except Fault (List uint256) :=
  match s.mapNodeState.lookup nodeid with
  | some queue => .ok queue
  | none => .error .nullDereference

def initializeNode (nodeid : NodeId) : Downloads :=
  if nodeid ∈ s.mapNodeState then s
  else { s with mapNodeState := s.mapNodeState.insert nodeid [] }

def finalizeNode (nodeid : NodeId) : Except Fault Downloads := do
  let queue ← s.vBlocksInFlight nodeid
  let mapBlocksInFlight := queue.foldl (fun m hash => m.erase hash) s.mapBlocksInFlight
  let mapNodeState := s.mapNodeState.erase nodeid
  if mapNodeState.keys = ∅ then
    assertThat (mapBlocksInFlight.keys = ∅) "mapBlocksInFlight.empty()"
  .ok ⟨mapNodeState, mapBlocksInFlight⟩

def markBlockAsReceived (hash : uint256) : Except Fault Downloads :=
  match s.mapBlocksInFlight.lookup hash with
  | none => .ok s
  | some queued => do
    let queue ← s.vBlocksInFlight queued.nodeid
    .ok ⟨s.mapNodeState.insert queued.nodeid (queue.erase hash), s.mapBlocksInFlight.erase hash⟩

/-- With `fPit`, the caller asks for the queued block, and a new one gets an object for a compact
block. The result is false if the block was already in flight from the same node. -/
def markBlockAsInFlight (nodeid : NodeId) (hash : uint256) (fPit : Bool) :
    Except Fault (Downloads × Bool) := do
  assertThat (nodeid ∈ s.mapNodeState) "state != NULL"
  if (s.mapBlocksInFlight.lookup hash).any (·.nodeid = nodeid) then
    if fPit then .ok (s, false) else .error .nullDereference
  else do
    let s ← s.markBlockAsReceived hash
    let queue ← s.vBlocksInFlight nodeid
    .ok (⟨s.mapNodeState.insert nodeid (queue ++ [hash]), s.mapBlocksInFlight.insert hash
      ⟨nodeid, if fPit then some .init else none⟩⟩, true)

def setPartialBlock (hash : uint256) (nodeid : NodeId) (p : PartiallyDownloadedBlock) :
    Downloads :=
  { s with mapBlocksInFlight := s.mapBlocksInFlight.insert hash ⟨nodeid, some p⟩ }

/-- The blocks that `headers` or the download logic asks this node for. -/
def fetchBlocks (nodeid : NodeId) : Downloads → List uint256 →
    Except Fault (Downloads × List Reaction)
  | s, [] => .ok (s, [])
  | s, hash :: vToFetch => do
    let queue ← s.vBlocksInFlight nodeid
    if queue.length ≥ MAX_BLOCKS_IN_TRANSIT_PER_PEER then .ok (s, [])
    else do
      let (s, _) ← s.markBlockAsInFlight nodeid hash false
      let (s, vGetData) ← fetchBlocks nodeid s vToFetch
      .ok (s, .getdata hash :: vGetData)

section

variable (env : NodeEnv) (fuel : ℕ)

def missingIndexes (p : PartiallyDownloadedBlock) : List ℕ → Except Fault (List ℕ)
  | [] => .ok []
  | i :: rest => do
    let available ← p.isTxAvailable i
    let indexes ← missingIndexes p rest
    .ok (if available then indexes else i :: indexes)

def downloadCompact (nodeid : NodeId) (cmpctblock : CBlockHeaderAndShortTxIDs) (hash : uint256)
    (vTxHashes : List (uint256 × CTransaction)) (extra_txn : List (uint256 × CTransactionRef)) :
    Except Stop (Downloads × List Reaction) := do
  let p ← PartiallyDownloadedBlock.initData env.toRelayEnv fuel .init cmpctblock vTxHashes extra_txn
  match p with
  | (READ_STATUS_INVALID, p) => do
    let s ← orStop ((s.setPartialBlock hash nodeid p).markBlockAsReceived hash)
    .ok (s, [.misbehaving 100])
  | (READ_STATUS_FAILED, p) => .ok (s.setPartialBlock hash nodeid p, [.getdata hash])
  | (_, p) => do
    let indexes ← orStop (missingIndexes p (List.range cmpctblock.blockTxCount))
    .ok (s.setPartialBlock hash nodeid p,
      [if indexes.isEmpty then .processBlockTxn hash else .getblocktxn hash indexes])

def tryCompact (cmpctblock : CBlockHeaderAndShortTxIDs)
    (vTxHashes : List (uint256 × CTransaction)) (extra_txn : List (uint256 × CTransactionRef)) :
    Except Stop (Downloads × List Reaction) := do
  let (status, p) ← PartiallyDownloadedBlock.initData env.toRelayEnv fuel .init cmpctblock vTxHashes
    extra_txn
  if status ≠ READ_STATUS_OK then .ok (s, [])
  else do
    let (status, _, block) ← orStop (p.fillBlock env.toRelayEnv [])
    match status, block with
    | READ_STATUS_OK, some block => .ok (s, [.processNewBlock block])
    | _, _ => .ok (s, [])

def processNearTip (nodeid : NodeId) (cmpctblock : CBlockHeaderAndShortTxIDs) (hash : uint256)
    (vTxHashes : List (uint256 × CTransaction)) (extra_txn : List (uint256 × CTransactionRef)) :
    Except Stop (Downloads × List Reaction) := do
  let inFlight := s.mapBlocksInFlight.lookup hash
  let queue ← orStop (s.vBlocksInFlight nodeid)
  if (inFlight.isNone && queue.length < MAX_BLOCKS_IN_TRANSIT_PER_PEER) ||
      inFlight.any (·.nodeid = nodeid) then do
    let (s, fNew) ← orStop (s.markBlockAsInFlight nodeid hash true)
    if !fNew && inFlight.any (·.partialBlock.isSome) then .ok (s, [])
    else s.downloadCompact env fuel nodeid cmpctblock hash vTxHashes extra_txn
  else s.tryCompact env fuel cmpctblock vTxHashes extra_txn

def processCmpctBlock (nodeid : NodeId) (cmpctblock : CBlockHeaderAndShortTxIDs)
    (view : HeaderView) (vTxHashes : List (uint256 × CTransaction))
    (extra_txn : List (uint256 × CTransactionRef)) : Except Stop (Downloads × List Reaction) :=
  let hash := env.getBlockHash cmpctblock.header
  let fAlreadyInFlight := (s.mapBlocksInFlight.lookup hash).isSome
  if !view.fPrevKnown then .ok (s, if view.fInitialDownload then [] else [.getheaders])
  else if !view.fAccepted then .ok (s, if view.nDoS > 0 then [.misbehaving view.nDoS] else [])
  else if view.fHaveData then .ok (s, [])
  else if view.fKnowBetter then .ok (s, if fAlreadyInFlight then [.getdata hash] else [])
  else if !fAlreadyInFlight && !view.fCanDirectFetch then .ok (s, [])
  else if view.fWrongVersion then .ok (s, [])
  else if view.fNearTip then
    s.processNearTip env fuel nodeid cmpctblock hash vTxHashes extra_txn
  else .ok (s, [if fAlreadyInFlight then .getdata hash else .processHeaders cmpctblock.header])

def processBlockTxn (nodeid : NodeId) (hash : uint256) (txn : List CTransaction) :
    Except Fault (Downloads × List Reaction) :=
  match s.mapBlocksInFlight.lookup hash with
  | some ⟨other, some p⟩ =>
    if other ≠ nodeid then .ok (s, [])
    else do
      let (status, p, block) ← p.fillBlock env.toRelayEnv txn
      match status, block with
      | READ_STATUS_FAILED, _ => .ok (s.setPartialBlock hash nodeid p, [.getdata hash])
      | READ_STATUS_INVALID, _ => do
        let s ← (s.setPartialBlock hash nodeid p).markBlockAsReceived hash
        .ok (s, [.misbehaving 100])
      | _, block => do
        let s ← (s.setPartialBlock hash nodeid p).markBlockAsReceived hash
        .ok (s, block.toList.map .processNewBlock)
  | _ => .ok (s, [])

end

end Downloads

/-- What happens to the node. `received` is a block that arrived, or was put together from a
compact block of another node; `fetch` are blocks asked for after `headers`, none of them in flight
and none twice. -/
inductive DownloadEvent where
  | connect (nodeid : NodeId)
  | disconnect (nodeid : NodeId)
  | cmpctblock (nodeid : NodeId) (message : CBlockHeaderAndShortTxIDs) (view : HeaderView)
      (vTxHashes : List (uint256 × CTransaction)) (extra_txn : List (uint256 × CTransactionRef))
  | blocktxn (nodeid : NodeId) (hash : uint256) (txn : List CTransaction)
  | received (hash : uint256)
  | fetch (nodeid : NodeId) (vToFetch : List uint256)

namespace Downloads

def fromNode (s : Downloads) (nodeid : NodeId) (x : Except Stop (Downloads × List Reaction)) :
    Except Stop (Downloads × List Reaction) :=
  if nodeid ∈ s.mapNodeState then x else .ok (s, [])

def step (env : NodeEnv) (fuel : ℕ) (s : Downloads) :
    DownloadEvent → Except Stop (Downloads × List Reaction)
  | .connect nodeid => .ok (s.initializeNode nodeid, [])
  | .disconnect nodeid => s.fromNode nodeid do
      let s ← orStop (s.finalizeNode nodeid)
      .ok (s, [])
  | .cmpctblock nodeid message view vTxHashes extra_txn =>
    s.fromNode nodeid (s.processCmpctBlock env fuel nodeid message view vTxHashes extra_txn)
  | .blocktxn nodeid hash txn => s.fromNode nodeid (orStop (s.processBlockTxn env nodeid hash txn))
  | .received hash => do
    let s ← orStop (s.markBlockAsReceived hash)
    .ok (s, [])
  | .fetch nodeid vToFetch => s.fromNode nodeid (orStop (fetchBlocks nodeid s
      (vToFetch.dedup.filter fun hash => (s.mapBlocksInFlight.lookup hash).isNone)))

end Downloads

/-- The downloads, and the messages so far: `asked` has the nodes and blocks for which a `blocktxn`
message was answered with a request for the whole block, which has not arrived since. -/
structure Session where
  downloads : Downloads
  asked : List (NodeId × uint256)

namespace Session

def init : Session := ⟨.init, []⟩

def record (asked : List (NodeId × uint256)) (reactions : List Reaction) :
    DownloadEvent → List (NodeId × uint256)
  | .blocktxn nodeid hash _ =>
    if .getdata hash ∈ reactions then (nodeid, hash) :: asked else asked
  | .received hash => asked.filter (·.2 ≠ hash)
  | .disconnect nodeid => asked.filter (·.1 ≠ nodeid)
  | _ => asked

def step (env : NodeEnv) (fuel : ℕ) (session : Session) (event : DownloadEvent) :
    Except Stop Session := do
  let (s, reactions) ← session.downloads.step env fuel event
  .ok ⟨s, record session.asked reactions event⟩

/-- A `blocktxn` message that follows one of the same node for the same block which was answered
with a request for the whole block. -/
def Repeats (session : Session) : DownloadEvent → Prop
  | .blocktxn nodeid hash _ => (nodeid, hash) ∈ session.asked
  | _ => False

instance (session : Session) (event : DownloadEvent) : Decidable (session.Repeats event) := by
  cases event <;> unfold Repeats <;> infer_instance

end Session

end Coinyecoin
