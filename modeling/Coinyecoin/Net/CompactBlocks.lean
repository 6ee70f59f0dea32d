import Coinyecoin.AuxPow.Format
import Coinyecoin.Validation.CheckBlock
import Mathlib.Data.Finmap

/-!
# Compact blocks

`CBlockHeaderAndShortTxIDs`, and `PartiallyDownloadedBlock` with `InitData`,
`IsTxAvailable` and `FillBlock`. A `CTransactionRef` is a pointer, which may be
null. The inner loop of `InitData`, which looks for the next free slot with a
16-bit offset, runs on fuel.

The hashes of a transaction, the keyed hash behind the short ids, the sizes of
the buckets of `std::unordered_map` and `CheckBlock` are parameters, `RelayEnv`.
-/

namespace Coinyecoin

open Foundation

abbrev CTransactionRef := Option CTransaction

def CPureBlockHeader.isNull (header : CPureBlockHeader) : Bool := header.nBits == 0

/-- What `SetNull` leaves. -/
def CBlockHeader.null : CBlockHeader := ⟨⟨0, 0, 0, 0, 0, 0⟩, none⟩

def CTransaction.isNull (tx : CTransaction) : Bool := tx.vin.isEmpty && tx.vout.isEmpty

def CTransaction.null : CTransaction := ⟨1, [], [], 0⟩

def MIN_TRANSACTION_BASE_SIZE : ℕ := (serializeTransaction false CTransaction.null).length

inductive ReadStatus where
  | READ_STATUS_OK
  | READ_STATUS_INVALID
  | READ_STATUS_FAILED
  | READ_STATUS_CHECKBLOCK_FAILED
deriving DecidableEq, Repr

open ReadStatus

structure PrefilledTransaction where
  index : UInt16
  tx : CTransaction
deriving DecidableEq, Repr

structure CBlockHeaderAndShortTxIDs where
  header : CBlockHeader
  nonce : UInt64
  shorttxids : List UInt64
  prefilledtxn : List PrefilledTransaction
deriving DecidableEq, Repr

/-- The parts of the node that compact blocks rely on. `sipHash` is keyed by the header and the
nonce, `bucketSize n keys key` is the number of elements in the bucket of `key` of a map that was
built for `n` elements and got the keys `keys`. -/
structure RelayEnv where
  getHash : CTransaction → uint256
  getWitnessHash : CTransaction → uint256
  sipHash : CBlockHeader → UInt64 → uint256 → UInt64
  bucketSize : ℕ → List UInt64 → UInt64 → ℕ
  checkBlock : CWholeBlock → Except Reject Unit

namespace CBlockHeaderAndShortTxIDs

variable (env : RelayEnv) (cmpctblock : CBlockHeaderAndShortTxIDs)

def getShortID (txhash : uint256) : UInt64 :=
  env.sipHash cmpctblock.header cmpctblock.nonce txhash &&& 0xffffffffffff

def blockTxCount : ℕ := cmpctblock.shorttxids.length + cmpctblock.prefilledtxn.length

/-- The constructor, with the nonce it draws. A block without transactions is undefined
behaviour. -/
def ofBlock (nonce : UInt64) (block : CWholeBlock) (fUseWTXID : Bool) :
    Except Fault CBlockHeaderAndShortTxIDs :=
  match block.vtx with
  | [] => .error .indexOutOfRange
  | coinbase :: vtx =>
    let empty : CBlockHeaderAndShortTxIDs := ⟨block.header, nonce, [], [⟨0, coinbase⟩]⟩
    .ok { empty with shorttxids := vtx.map fun tx =>
      empty.getShortID env (if fUseWTXID then env.getWitnessHash tx else env.getHash tx) }

end CBlockHeaderAndShortTxIDs

abbrev ShortIds := Finmap fun _ : UInt64 => UInt16

structure PartiallyDownloadedBlock where
  header : CBlockHeader
  txn_available : List CTransactionRef
  prefilled_count : UInt64
  mempool_count : UInt64
  extra_count : UInt64
deriving DecidableEq, Repr

namespace PartiallyDownloadedBlock

def init : PartiallyDownloadedBlock := ⟨CBlockHeader.null, [], 0, 0, 0⟩

/-- The loop over the prefilled transactions, from number `i` and `lastprefilledindex`. -/
def prefill (nShort : ℕ) : ℕ → ℤ → List PrefilledTransaction → List CTransactionRef →
    Except Fault (ReadStatus × List CTransactionRef)
  | _, _, [], txn_available => .ok (READ_STATUS_OK, txn_available)
  | i, last, prefilled :: rest, txn_available =>
    if prefilled.tx.isNull then .ok (READ_STATUS_INVALID, txn_available)
    else
      let last := last + (prefilled.index.toNat + 1 : ℕ)
      if last > 65535 then .ok (READ_STATUS_INVALID, txn_available)
      else if last.toNat > nShort + i then .ok (READ_STATUS_INVALID, txn_available)
      else do
        let txn_available ← vectorSet txn_available last.toNat (some prefilled.tx)
        prefill nShort (i + 1) last rest txn_available

/-- `while (txn_available[i + index_offset]) index_offset++`. -/
def nextFree (txn_available : List CTransactionRef) (i : ℕ) : ℕ → UInt16 → Except Stop UInt16
  | 0, _ => .error .outOfFuel
  | fuel + 1, index_offset => do
    let slot ← orStop (vectorAt txn_available (i + index_offset.toNat))
    if slot.isSome then nextFree txn_available i fuel (index_offset + 1) else .ok index_offset

def assignIds (env : RelayEnv) (fuel nBuckets : ℕ) (txn_available : List CTransactionRef) :
    List UInt64 → UInt16 → ShortIds → List UInt64 → Except Stop (ReadStatus × ShortIds)
  | _, _, shorttxids, [] => .ok (READ_STATUS_OK, shorttxids)
  | done, index_offset, shorttxids, id :: rest => do
    let index_offset ← nextFree txn_available done.length fuel index_offset
    let shorttxids :=
      shorttxids.insert id (UInt16.ofNat (done.length + index_offset.toNat))
    if env.bucketSize nBuckets (done ++ [id]) id > 12 then .ok (READ_STATUS_FAILED, shorttxids)
    else assignIds env fuel nBuckets txn_available (done ++ [id]) index_offset shorttxids rest

def mapIds (env : RelayEnv) (fuel : ℕ) (txn_available : List CTransactionRef)
    (ids : List UInt64) : Except Stop (ReadStatus × ShortIds) := do
  let (status, shorttxids) ← assignIds env fuel ids.length txn_available [] 0 ∅ ids
  if status ≠ READ_STATUS_OK then .ok (status, shorttxids)
  else if shorttxids.keys.card ≠ ids.length then .ok (READ_STATUS_FAILED, shorttxids)
  else .ok (READ_STATUS_OK, shorttxids)

structure Scan where
  txn_available : List CTransactionRef
  have_txn : List Bool
  mempool_count : UInt64
  extra_count : UInt64
deriving DecidableEq, Repr

namespace Scan

def place (s : Scan) (n : ℕ) (ref : CTransactionRef) : Except Fault Scan := do
  let txn_available ← vectorSet s.txn_available n ref
  let have_txn ← vectorSet s.have_txn n true
  .ok { s with
    txn_available := txn_available
    have_txn := have_txn
    mempool_count := s.mempool_count + 1 }

def reset (s : Scan) (n : ℕ) : Except Fault Scan := do
  let txn_available ← vectorSet s.txn_available n none
  .ok { s with txn_available := txn_available, mempool_count := s.mempool_count - 1 }

def visitPool (s : Scan) (n : ℕ) (tx : CTransaction) : Except Fault Scan := do
  if !(← vectorAt s.have_txn n) then s.place n (some tx)
  else
    match ← vectorAt s.txn_available n with
    | none => .ok s
    | some _ => s.reset n

def visitExtra (env : RelayEnv) (s : Scan) (n : ℕ) (ref : CTransactionRef) :
    Except Fault Scan := do
  if !(← vectorAt s.have_txn n) then
    let s ← s.place n ref
    .ok { s with extra_count := s.extra_count + 1 }
  else
    match ← vectorAt s.txn_available n with
    | none => .ok s
    | some tx =>
      match ref with
      | none => .error .nullDereference
      | some extra =>
        if env.getWitnessHash tx ≠ env.getWitnessHash extra then do
          let s ← s.reset n
          .ok { s with extra_count := s.extra_count - 1 }
        else .ok s

/-- A scan over transactions with their hashes, which ends early once there is one for each
short id. -/
def scan {β : Type} (shorttxids : ShortIds) (getShortID : uint256 → UInt64)
    (visit : Scan → ℕ → β → Except Fault Scan) : Scan → List (uint256 × β) → Except Fault Scan
  | s, [] => .ok s
  | s, (hash, b) :: rest => do
    let s ← match shorttxids.lookup (getShortID hash) with
      | none => .ok s
      | some n => visit s n.toNat b
    if s.mempool_count == UInt64.ofNat shorttxids.keys.card then .ok s
    else scan shorttxids getShortID visit s rest

end Scan

def findTransactions (env : RelayEnv) (p : PartiallyDownloadedBlock) (shorttxids : ShortIds)
    (getShortID : uint256 → UInt64) (vTxHashes : List (uint256 × CTransaction))
    (extra_txn : List (uint256 × CTransactionRef)) : Except Fault PartiallyDownloadedBlock := do
  let s : Scan := ⟨p.txn_available, List.replicate p.txn_available.length false,
    p.mempool_count, p.extra_count⟩
  let s ← s.scan shorttxids getShortID Scan.visitPool vTxHashes
  let s ← s.scan shorttxids getShortID (Scan.visitExtra env) extra_txn
  .ok { p with
    txn_available := s.txn_available
    mempool_count := s.mempool_count
    extra_count := s.extra_count }

/-- What `InitData` makes of a message once it is known not to be too long: the prefilled
transactions in their slots, and the map from short ids to positions. -/
def layOut (env : RelayEnv) (fuel : ℕ) (p : PartiallyDownloadedBlock)
    (cmpctblock : CBlockHeaderAndShortTxIDs) :
    Except Stop (ReadStatus × PartiallyDownloadedBlock × ShortIds) := do
  let (status, txn_available) ← orStop (prefill cmpctblock.shorttxids.length 0 (-1)
    cmpctblock.prefilledtxn (List.replicate cmpctblock.blockTxCount none))
  let p := { p with header := cmpctblock.header, txn_available := txn_available }
  if status ≠ READ_STATUS_OK then .ok (status, p, ∅)
  else do
    let p := { p with prefilled_count := UInt64.ofNat cmpctblock.prefilledtxn.length }
    let (status, shorttxids) ← mapIds env fuel txn_available cmpctblock.shorttxids
    .ok (status, p, shorttxids)

def initData (env : RelayEnv) (fuel : ℕ) (p : PartiallyDownloadedBlock)
    (cmpctblock : CBlockHeaderAndShortTxIDs) (vTxHashes : List (uint256 × CTransaction))
    (extra_txn : List (uint256 × CTransactionRef)) :
    Except Stop (ReadStatus × PartiallyDownloadedBlock) := do
  if cmpctblock.header.isNull ||
      (cmpctblock.shorttxids.isEmpty && cmpctblock.prefilledtxn.isEmpty) then
    .ok (READ_STATUS_INVALID, p)
  else if cmpctblock.shorttxids.length + cmpctblock.prefilledtxn.length >
      MAX_BLOCK_BASE_SIZE / MIN_TRANSACTION_BASE_SIZE then
    .ok (READ_STATUS_INVALID, p)
  else do
    orStop (assertThat (p.header.isNull ∧ p.txn_available = [])
      "header.IsNull() && txn_available.empty()")
    let (status, p, shorttxids) ← layOut env fuel p cmpctblock
    if status ≠ READ_STATUS_OK then .ok (status, p)
    else do
      let p ← orStop (findTransactions env p shorttxids (cmpctblock.getShortID env) vTxHashes
        extra_txn)
      .ok (READ_STATUS_OK, p)

def isTxAvailable (p : PartiallyDownloadedBlock) (index : ℕ) : Except Fault Bool := do
  assertThat (¬ p.header.isNull) "!header.IsNull()"
  assertThat (index < p.txn_available.length) "index < txn_available.size()"
  let ref ← vectorAt p.txn_available index
  .ok ref.isSome

/-- The loop of `FillBlock`: the transactions of the block with those of `vtx_missing` that are
left over or, if they run out, what is left in `txn_available`. -/
def fill : List CTransactionRef → List CTransaction →
    Except (List CTransactionRef) (List CTransaction × List CTransaction)
  | [], vtx_missing => .ok ([], vtx_missing)
  | none :: txn_available, [] => .error (none :: txn_available)
  | none :: txn_available, tx :: vtx_missing =>
    match fill txn_available vtx_missing with
    | .ok (vtx, left) => .ok (tx :: vtx, left)
    | .error left => .error (none :: left)
  | some tx :: txn_available, vtx_missing =>
    match fill txn_available vtx_missing with
    | .ok (vtx, left) => .ok (tx :: vtx, left)
    | .error left => .error (none :: left)

/-- The block is the out parameter; it is not complete if the missing transactions run out. -/
def fillBlock (env : RelayEnv) (p : PartiallyDownloadedBlock) (vtx_missing : List CTransaction) :
    Except Fault (ReadStatus × PartiallyDownloadedBlock × Option CWholeBlock) := do
  assertThat (¬ p.header.isNull) "!header.IsNull()"
  match fill p.txn_available vtx_missing with
  | .error left => .ok (READ_STATUS_INVALID, { p with txn_available := left }, none)
  | .ok (vtx, left) =>
    let block : CWholeBlock := ⟨p.header, vtx⟩
    let p := { p with header := CBlockHeader.null, txn_available := [] }
    if !left.isEmpty then .ok (READ_STATUS_INVALID, p, some block)
    else
      match env.checkBlock block with
      | .ok () => .ok (READ_STATUS_OK, p, some block)
      | .error reject => .ok (if reject.corruptionPossible then READ_STATUS_FAILED
          else READ_STATUS_CHECKBLOCK_FAILED, p, some block)

end PartiallyDownloadedBlock

/-- The ring of extra transactions: empty until the first one is added, then of the length it was
given, with a place in it to write next. -/
structure ExtraTxns (max_extra_txn : ℕ) where
  vExtraTxnForCompact : List (uint256 × CTransactionRef)
  vExtraTxnForCompactIt : ℕ
  bound : vExtraTxnForCompact = [] ∧ vExtraTxnForCompactIt = 0 ∨
    vExtraTxnForCompact.length = max_extra_txn ∧ vExtraTxnForCompactIt < max_extra_txn

namespace ExtraTxns

variable {max_extra_txn : ℕ}

def init : ExtraTxns max_extra_txn := ⟨[], 0, .inl ⟨rfl, rfl⟩⟩

def addToCompactExtraTransactions (env : RelayEnv) (extra : ExtraTxns max_extra_txn)
    (tx : CTransaction) : ExtraTxns max_extra_txn :=
  if hmax : max_extra_txn = 0 then extra
  else
    let v := if extra.vExtraTxnForCompact.isEmpty then List.replicate max_extra_txn (0, none)
      else extra.vExtraTxnForCompact
    { vExtraTxnForCompact := v.set extra.vExtraTxnForCompactIt (env.getWitnessHash tx, some tx)
      vExtraTxnForCompactIt := (extra.vExtraTxnForCompactIt + 1) % max_extra_txn
      bound := by
        refine .inr ⟨?_, Nat.mod_lt _ (Nat.pos_of_ne_zero hmax)⟩
        rw [List.length_set]
        rcases extra.bound with ⟨hempty, -⟩ | ⟨hlength, -⟩
        · simp [v, hempty]
        · by_cases hempty : extra.vExtraTxnForCompact.isEmpty = true
          · simp [v, hempty]
          · simp [v, hempty, hlength] }

def after (env : RelayEnv) (max_extra_txn : ℕ) (txs : List CTransaction) :
    ExtraTxns max_extra_txn :=
  txs.foldl (addToCompactExtraTransactions env) init

end ExtraTxns

end Coinyecoin
