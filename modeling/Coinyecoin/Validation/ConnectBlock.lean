import Coinyecoin.Consensus.Subsidy
import Coinyecoin.Validation.Inputs

/-!
# Connecting and disconnecting a block

`UpdateCoins` spends the inputs of a transaction, records how to undo that and
creates its outputs. `ConnectBlock` does so for every transaction of a block
that passes its checks. A view that is left behind by a failed check is dropped
by every caller, so a failure returns none.

`DisconnectBlock` takes the transactions in reverse order: it checks that the outputs
a transaction created are there, removes them, and puts back the outputs it spent, last
input first. It goes on when something does not fit and says in the end whether
everything did.
-/

namespace Coinyecoin

/-- How to undo the spending of one input. The metadata is only there, and the
height only non-zero, when the last output of the transaction was spent. -/
structure CTxInUndo where
  txout : CTxOut
  fCoinBase : Bool
  nHeight : UInt32
  nVersion : Int32
deriving DecidableEq, Repr

/-- The undo record for an output, given the coins it was just spent from. -/
def CTxInUndo.ofSpent (txout : CTxOut) (coins : CCoins) : CTxInUndo :=
  if coins.vout.length == 0 then
    ⟨txout, coins.fCoinBase, coins.nHeight.toUInt32, coins.nVersion⟩
  else
    ⟨txout, false, 0, 0⟩

structure CTxUndo where
  vprevout : List CTxInUndo
deriving DecidableEq, Repr

/-- Undo information for all transactions of a block but the coinbase. -/
structure CBlockUndo where
  vtxundo : List CTxUndo
deriving DecidableEq, Repr

/-- What `ConnectBlock` and `DisconnectBlock` read of the block's index entry:
`hashPrev` is missing for the genesis block, and `hashBIP34` is the hash of the
ancestor at the BIP34 height, if the chain is that long. -/
structure BlockPosition where
  nHeight : Int32
  hash : uint256
  hashPrev : Option uint256
  hashBIP34 : Option uint256
deriving DecidableEq, Repr

/-- The answers of the files that `ConnectBlock` writes to, and its settings. -/
structure ConnectOptions where
  fJustCheck : Bool
  fScriptChecks : Bool
  undoWritten : Bool
  txIndexWritten : Bool
deriving DecidableEq, Repr

namespace ViewStack

variable {B : CCoinsView}

def spendInput (s : ViewStack B) (txin : CTxIn) : Except Fault (CTxInUndo × ViewStack B) :=
  s.modifyCoins txin.prevout.hash fun coins =>
    match coins.output txin.prevout.n.toNat with
    | none => .error (.assertFailed "false")
    | some txout =>
      let coins := coins.spend txin.prevout.n
      .ok (.ofSpent txout coins, coins)

def spendInputs (s : ViewStack B) : List CTxIn → Except Fault (List CTxInUndo × ViewStack B)
  | [] => .ok ([], s)
  | txin :: vin => do
    let (undo, s) ← s.spendInput txin
    let (vprevout, s) ← spendInputs s vin
    return (undo :: vprevout, s)

def markSpent (s : ViewStack B) (tx : CTransaction) :
    Except Fault (List CTxInUndo × ViewStack B) :=
  if tx.isCoinBase then .ok ([], s) else s.spendInputs tx.vin

def updateCoins (env : ConnectEnv) (tx : CTransaction) (s : ViewStack B) (nHeight : Int32) :
    Except Fault (CTxUndo × ViewStack B) := do
  let (vprevout, s) ← s.markSpent tx
  let s ← s.modifyNewCoins (env.getHash tx) tx.isCoinBase fun _ => CCoins.fromTx tx nHeight
  return (⟨vprevout⟩, s)

/-- The BIP30 loop: no transaction of the block has unspent outputs already. -/
def checkBIP30 (env : ConnectEnv) (s : ViewStack B) :
    List CTransaction → Except Failure (ViewStack B)
  | [] => .ok s
  | tx :: vtx => do
    let accessed := s.accessCoins (env.getHash tx)
    rejectIf (accessed.1.any fun coins => !coins.isPruned) (dos 100 "bad-txns-BIP30" false)
    checkBIP30 env accessed.2 vtx

end ViewStack

structure ConnectState (B : CCoinsView) where
  view : ViewStack B
  nFees : ℤ
  nSigOpsCost : ℤ
  /-- All script checks so far pass. -/
  scriptsPass : Bool
  vtxundo : List CTxUndo

section

variable {B : CCoinsView} (env : ConnectEnv)

/-- The checks of a transaction that is not a coinbase: its inputs exist and its
sequence locks are met. -/
def checkSpends (tx : CTransaction) (view : ViewStack B) : Except Failure (ViewStack B) := do
  if tx.isCoinBase then
    return view
  let found := view.haveInputs tx
  rejectIf (!found.1) (dos 100 "bad-txns-inputs-missingorspent" false)
  let (prevheights, view) ← orFault (found.2.getHeights tx.vin)
  rejectIf (!env.sequenceLocks tx prevheights) (dos 100 "bad-txns-nonfinal" false)
  return view

/-- What a transaction adds to the fees; nothing for a coinbase. -/
def connectFee (tx : CTransaction) (view : ViewStack B) : Except Fault (ℤ × ViewStack B) := do
  if tx.isCoinBase then
    return (0, view)
  let (nValueIn, view) ← view.getValueIn tx
  let nValueOut ← tx.getValueOut
  return (nValueIn - nValueOut, view)

/-- The body of the loop of `ConnectBlock`, for the transaction of index `i`. -/
def connectTx (opts : ConnectOptions) (nHeight : Int32) (i : ℕ) (tx : CTransaction)
    (st : ConnectState B) : Except Failure (ConnectState B) := do
  let view ← checkSpends env tx st.view
  let (prevouts, view) ← orFault (if tx.isCoinBase then .ok ([], view) else view.getOutputs tx.vin)
  let nSigOpsCost := st.nSigOpsCost + env.getTransactionSigOpCost tx prevouts
  rejectIf (nSigOpsCost > MAX_BLOCK_SIGOPS_COST) (dos 100 "bad-blk-sigops" false)
  let (nTxFee, view) ← orFault (connectFee tx view)
  let (scriptsPass, view) ← view.checkInputs env tx opts.fScriptChecks
  let (txundo, view) ← orFault (view.updateCoins env tx nHeight)
  return {
    view
    nFees := st.nFees + nTxFee
    nSigOpsCost
    scriptsPass := st.scriptsPass && scriptsPass
    vtxundo := if i > 0 then st.vtxundo ++ [txundo] else st.vtxundo }

/-- The loop of `ConnectBlock`, from the transaction of index `i` on. -/
def connectTxs (opts : ConnectOptions) (nHeight : Int32) (i : ℕ) :
    List CTransaction → ConnectState B → Except Failure (ConnectState B)
  | [], st => .ok st
  | tx :: vtx, st => do
    let st ← connectTx env opts nHeight i tx st
    connectTxs opts nHeight (i + 1) vtx st

/-- BIP30 is skipped only on the chain with the known block at the BIP34
height. -/
def enforceBIP30 (pindex : BlockPosition) : Bool :=
  pindex.hashBIP34 != some (env.network.getConsensus 0).BIP34Hash

def checkOverwrites (pindex : BlockPosition) (vtx : List CTransaction) (view : ViewStack B) :
    Except Failure (ViewStack B) :=
  if enforceBIP30 env pindex then view.checkBIP30 env vtx else .ok view

/-- `ConnectBlock`; it returns the undo data with the view. -/
def connectBlock (opts : ConnectOptions) (block : CBlock) (pindex : BlockPosition)
    (view : ViewStack B) : Except Failure (CBlockUndo × ViewStack B) := do
  checkBlock env.toCheckEnv block (!opts.fJustCheck) (!opts.fJustCheck)
  let hashPrevBlock := pindex.hashPrev.getD 0
  let best := view.bestBlock
  orFault (assertThat (hashPrevBlock = best.1) "hashPrevBlock == view.GetBestBlock()")
  let view := best.2
  if env.getBlockHash block == env.hashGenesisBlock then
    return (⟨[]⟩, if opts.fJustCheck then view else view.setBestBlock pindex.hash)
  -- the ancestor is looked up from pindex->pprev, which only genesis lacks
  rejectIf pindex.hashPrev.isNone (.error (.fault .indexOutOfRange))
  let view ← checkOverwrites env pindex block.vtx view
  let st ← connectTxs env opts pindex.nHeight 0 block.vtx ⟨view, 0, 0, true, []⟩
  let nSubsidy ← orFault (Consensus.getCoinyecoinBlockSubsidy pindex.nHeight.toInt
    (env.network.getConsensus pindex.nHeight.toUInt32.toNat))
  let nCoinbaseOut ← orFault (((block.vtx.head?.map CTransaction.getValueOut).getD (.ok 0)))
  rejectIf (nCoinbaseOut > st.nFees + nSubsidy) (dos 100 "bad-cb-amount" false)
  rejectIf (!st.scriptsPass) (.error (.invalid ⟨100, 0, "", false⟩))
  if opts.fJustCheck then
    return (⟨st.vtxundo⟩, st.view)
  rejectIf (!opts.undoWritten) (.error (.error "Failed to write undo data"))
  rejectIf (!opts.txIndexWritten) (.error (.error "Failed to write transaction index"))
  return (⟨st.vtxundo⟩, st.view.setBestBlock pindex.hash)

end

namespace ViewStack

variable {B : CCoinsView}

/-- The coins an undo record is applied to, before the output is put back, and
whether they are the ones it was made from. -/
def undoTarget (undo : CTxInUndo) (coins : CCoins) : Bool × CCoins :=
  if undo.nHeight != 0 then
    (coins.isPruned, ⟨undo.fCoinBase, [], undo.nHeight.toInt32, undo.nVersion⟩)
  else
    (!coins.isPruned, coins)

/-- Puts an output at a position, growing the vector to reach it: `out.n + 1` is
computed in 32 bits. -/
def putOutput (coins : CCoins) (n : UInt32) (txout : CTxOut) : Except Fault CCoins :=
  let vout := coins.vout ++ List.replicate ((n + 1).toNat - coins.vout.length) CTxOut.null
  if n.toNat < vout.length then
    .ok { coins with vout := vout.set n.toNat txout }
  else
    .error .indexOutOfRange

/-- What `ApplyTxInUndo` does with the coins, and whether they fit. -/
def undoEdit (undo : CTxInUndo) (n : UInt32) (coins : CCoins) : Except Fault (Bool × CCoins) := do
  let target := undoTarget undo coins
  let coins ← putOutput target.2 n undo.txout
  return (target.1 && !target.2.isAvailable n, coins)

def applyTxInUndo (undo : CTxInUndo) (s : ViewStack B) (out : COutPoint) :
    Except Fault (Bool × ViewStack B) :=
  s.modifyCoins out.hash (undoEdit undo out.n)

/-- Whether coins are the outputs of a transaction as the block created them. A
negative version is not stored by `CCoins`, so it is not compared. -/
def outputsMatch (tx : CTransaction) (nHeight : Int32) (outs : CCoins) : Bool :=
  let outs := outs.clearUnspendable
  let outsBlock := CCoins.fromTx tx nHeight
  let outs := if outsBlock.nVersion < 0 then { outs with nVersion := outsBlock.nVersion } else outs
  outs.equal outsBlock

def removeOutputs (env : ConnectEnv) (tx : CTransaction) (nHeight : Int32) (s : ViewStack B) :
    Except Fault (Bool × ViewStack B) :=
  s.modifyCoins (env.getHash tx) fun outs => .ok (outputsMatch tx nHeight outs, CCoins.empty)

/-- Puts the spent outputs back, the last one first. -/
def restoreInputs (s : ViewStack B) : List (CTxIn × CTxInUndo) → Except Fault (Bool × ViewStack B)
  | [] => .ok (true, s)
  | (txin, undo) :: rest => do
    let (fClean, s) ← restoreInputs s rest
    let (fClean', s) ← applyTxInUndo undo s txin.prevout
    return (fClean && fClean', s)

/-- The body of the loop of `DisconnectBlock`; the coinbase has no undo data. -/
def disconnectTx (env : ConnectEnv) (nHeight : Int32) (tx : CTransaction)
    (txundo : Option CTxUndo) (s : ViewStack B) : Except Failure (Bool × ViewStack B) := do
  let (fClean, s) ← orFault (removeOutputs env tx nHeight s)
  match txundo with
  | none => return (fClean, s)
  | some txundo =>
    rejectIf (txundo.vprevout.length != tx.vin.length)
      (.error (.error "DisconnectBlock(): transaction and undo data inconsistent"))
    let (fClean', s) ← orFault (s.restoreInputs (tx.vin.zip txundo.vprevout))
    return (fClean && fClean', s)

/-- The loop of `DisconnectBlock` over the transactions with their undo data, the
last one first. -/
def disconnectTxs (env : ConnectEnv) (nHeight : Int32) (s : ViewStack B) :
    List (CTransaction × Option CTxUndo) → Except Failure (Bool × ViewStack B)
  | [] => .ok (true, s)
  | (tx, txundo) :: rest => do
    let (fClean, s) ← disconnectTxs env nHeight s rest
    let (fClean', s) ← disconnectTx env nHeight tx txundo s
    return (fClean && fClean', s)

end ViewStack

def CBlockUndo.pair (blockUndo : CBlockUndo) (vtx : List CTransaction) :
    List (CTransaction × Option CTxUndo) :=
  vtx.zip (none :: blockUndo.vtxundo.map some)

/-- `DisconnectBlock` with the undo data read from disk. -/
def disconnectBlock {B : CCoinsView} (env : ConnectEnv) (block : CBlock) (pindex : BlockPosition)
    (blockUndo : CBlockUndo) (view : ViewStack B) : Except Failure (Bool × ViewStack B) := do
  let best := view.bestBlock
  orFault (assertThat (pindex.hash = best.1) "pindex->GetBlockHash() == view.GetBestBlock()")
  rejectIf (blockUndo.vtxundo.length + 1 != block.vtx.length)
    (.error (.error "DisconnectBlock(): block and undo data inconsistent"))
  let (fClean, view) ← best.2.disconnectTxs env pindex.nHeight (blockUndo.pair block.vtx)
  match pindex.hashPrev with
  | some hashPrev => return (fClean, view.setBestBlock hashPrev)
  | none => .error (.fault .indexOutOfRange)

end Coinyecoin
