import Coinyecoin.Foundation.SetLoops
import Coinyecoin.Mempool.Entry
import Coinyecoin.Util.StrEncodings
import Mathlib.Data.Finset.Sort

/-!
# The memory pool

`CTxMemPool` as its maps: the entries by transaction hash, the links between
them, the inputs of the pool with the transactions that spend them, and the fee
deltas. An iterator into `mapTx` is the hash it points at; using one that points
at nothing is a fault. A `setEntries` is a finite set, gone through in the order
of the hashes.
-/

namespace Coinyecoin

open Foundation

def hashKey (hash : uint256) : List ℕ := (writeUint256 hash).map UInt8.toNat

def hashLe (a b : uint256) : Prop := hashKey a ≤ hashKey b

instance : DecidableRel hashLe := fun a b => inferInstanceAs (Decidable (hashKey a ≤ hashKey b))

theorem hashKey_injective : Function.Injective hashKey := fun _ _ hab =>
  writeUint256_injective (List.map_injective_iff.2 (fun _ _ h => UInt8.toNat_inj.1 h) hab)

instance : IsTrans uint256 hashLe := ⟨fun _ _ _ hab hbc => le_trans hab hbc⟩

instance : Std.Antisymm hashLe := ⟨fun _ _ hab hba => hashKey_injective (le_antisymm hab hba)⟩

instance : Std.Total hashLe := ⟨fun a b => le_total (hashKey a) (hashKey b)⟩

def byHash : SetOrder uint256 where
  elems s := s.sort hashLe
  nodup s := Finset.sort_nodup s hashLe
  mem_elems _ _ := Finset.mem_sort hashLe

/-- Iterators into `mapTx`, by the hash of what they point at. -/
abbrev SetEntries := Finset uint256

structure TxLinks where
  parents : SetEntries
  children : SetEntries
deriving DecidableEq

def TxLinks.empty : TxLinks := ⟨∅, ∅⟩

structure CTxMemPool where
  mapTx : Finmap fun _ : uint256 => CTxMemPoolEntry
  mapLinks : Finmap fun _ : uint256 => TxLinks
  mapNextTx : Finmap fun _ : COutPoint => CTransaction
  mapDeltas : Finmap fun _ : uint256 => Int64
  totalTxSize : UInt64

structure AncestorLimits where
  limitAncestorCount : UInt64
  limitAncestorSize : UInt64
  limitDescendantCount : UInt64
  limitDescendantSize : UInt64

def nNoLimit : AncestorLimits :=
  ⟨0xffffffffffffffff, 0xffffffffffffffff, 0xffffffffffffffff, 0xffffffffffffffff⟩

/-- How the search for ancestors can stop short: a fault, or `return false` with the ancestors
found so far and `errString`. -/
inductive AncestorStop where
  | fault (f : Fault)
  | limit (setAncestors : SetEntries) (errString : StdString)

namespace CTxMemPool

def init : CTxMemPool := ⟨∅, ∅, ∅, ∅, 0⟩

section

variable (pool : CTxMemPool)

def deref (it : uint256) : Except Fault CTxMemPoolEntry :=
  match pool.mapTx.lookup it with
  | none => .error .indexOutOfRange
  | some entry => .ok entry

def modify (it : uint256) (f : CTxMemPoolEntry → Except Fault CTxMemPoolEntry) :
    Except Fault CTxMemPool := do
  let entry ← pool.deref it
  let entry ← f entry
  return { pool with mapTx := pool.mapTx.insert it entry }

def getLinks (entry : uint256) : Except Fault TxLinks := do
  assertThat (entry ∈ pool.mapTx) "entry != mapTx.end()"
  match pool.mapLinks.lookup entry with
  | none => .error (.assertFailed "it != mapLinks.end()")
  | some links => .ok links

def getMemPoolParents (entry : uint256) : Except Fault SetEntries := do
  let links ← pool.getLinks entry
  return links.parents

def getMemPoolChildren (entry : uint256) : Except Fault SetEntries := do
  let links ← pool.getLinks entry
  return links.children

/-- `mapLinks[entry]`, which makes the links if there are none, changed by `f`. -/
def updateLinks (entry : uint256) (f : TxLinks → TxLinks) : CTxMemPool :=
  { pool with
    mapLinks := pool.mapLinks.insert entry (f ((pool.mapLinks.lookup entry).getD .empty)) }

def updateChild (entry child : uint256) (add : Bool) : CTxMemPool :=
  pool.updateLinks entry fun links =>
    { links with
      children := if add then insert child links.children else links.children.erase child }

def updateParent (entry parent : uint256) (add : Bool) : CTxMemPool :=
  pool.updateLinks entry fun links =>
    { links with
      parents := if add then insert parent links.parents else links.parents.erase parent }

end

section

variable (env : PoolEnv) (pool : CTxMemPool)

/-- One round of `CalculateDescendants`: the children not seen yet are staged. -/
def visitDescendant (it : uint256) (stage setDescendants : SetEntries) :
    Except Fault (SetEntries × SetEntries) := do
  let setDescendants := insert it setDescendants
  let setChildren ← pool.getMemPoolChildren it
  return (stage ∪ setChildren \ setDescendants, setDescendants)

/-- `CalculateDescendants`: `setDescendants` with what it adds. -/
def calculateDescendants (entryit : uint256) (setDescendants : SetEntries) :
    Except Fault SetEntries :=
  worklist byHash pool.visitDescendant pool.mapTx.keys.card
    (if entryit ∈ setDescendants then ∅ else {entryit}) setDescendants

/-- `%u` of a limit, after the text of the message. -/
def limitMessage (text : StdString) (limit : UInt64) : StdString :=
  text ++ str " [limit: " ++ str (toString limit.toNat) ++ str "]"

def hashToString (hash : uint256) : StdString := hexFixed 64 hash.toNat

/-- The parents that are looked up by the inputs of a transaction that may not be in the pool. -/
def searchParents (tx : CTransaction) (limitAncestorCount : UInt64) :
    Except AncestorStop SetEntries :=
  tx.vin.foldlM (fun parentHashes txin =>
    if txin.prevout.hash ∈ pool.mapTx then do
      let parentHashes := insert txin.prevout.hash parentHashes
      rejectIf (UInt64.ofNat (parentHashes.card + 1) > limitAncestorCount)
        (.error (.limit ∅ (limitMessage (str "too many unconfirmed parents") limitAncestorCount)))
      return parentHashes
    else return parentHashes) ∅

/-- One round of the search: an ancestor is taken off the stage and checked against the limits, and
its parents are staged. -/
def visitAncestor (entry : CTxMemPoolEntry) (limits : AncestorLimits) (stageit : uint256)
    (parentHashes : SetEntries) (found : SetEntries × UInt64) :
    Except AncestorStop (SetEntries × SetEntries × UInt64) := do
  let setAncestors := insert stageit found.1
  let stage ← (pool.deref stageit).mapError .fault
  let totalSizeWithAncestors := found.2 + stage.getTxSize env
  rejectIf (stage.nSizeWithDescendants + entry.getTxSize env > limits.limitDescendantSize)
    (.error (.limit setAncestors (limitMessage (str "exceeds descendant size limit for tx " ++
      hashToString (stage.tx.getHash env.hash)) limits.limitDescendantSize)))
  rejectIf (stage.nCountWithDescendants + 1 > limits.limitDescendantCount)
    (.error (.limit setAncestors (limitMessage (str "too many descendants for tx " ++
      hashToString (stage.tx.getHash env.hash)) limits.limitDescendantCount)))
  rejectIf (totalSizeWithAncestors > limits.limitAncestorSize)
    (.error (.limit setAncestors
      (limitMessage (str "exceeds ancestor size limit") limits.limitAncestorSize)))
  let setMemPoolParents ← (pool.getMemPoolParents stageit).mapError .fault
  let parentHashes ← forEach byHash setMemPoolParents (fun parentHashes phash => do
    let parentHashes := if phash ∈ setAncestors then parentHashes else insert phash parentHashes
    rejectIf (UInt64.ofNat (parentHashes.card + setAncestors.card + 1) >
        limits.limitAncestorCount)
      (.error (.limit setAncestors
        (limitMessage (str "too many unconfirmed ancestors") limits.limitAncestorCount)))
    return parentHashes) parentHashes
  return (parentHashes, setAncestors, totalSizeWithAncestors)

/-- The first stage of the search; without a search for parents the entry is in the pool. -/
def firstParents (entry : CTxMemPoolEntry) (limits : AncestorLimits) (fSearchForParents : Bool) :
    Except AncestorStop SetEntries :=
  if fSearchForParents then pool.searchParents entry.tx limits.limitAncestorCount
  else (pool.getMemPoolParents (entry.tx.getHash env.hash)).mapError .fault

def searchAncestors (entry : CTxMemPoolEntry) (limits : AncestorLimits)
    (fSearchForParents : Bool) : Except AncestorStop SetEntries := do
  let parentHashes ← pool.firstParents env entry limits fSearchForParents
  let found ← worklist byHash (pool.visitAncestor env entry limits) pool.mapTx.keys.card
    parentHashes (∅, entry.getTxSize env)
  return found.1

/-- `CalculateMemPoolAncestors`: the ancestors, and `errString` if it returns false. -/
def calculateMemPoolAncestors (entry : CTxMemPoolEntry) (limits : AncestorLimits)
    (fSearchForParents : Bool) : Except Fault (SetEntries × Option StdString) :=
  match pool.searchAncestors env entry limits fSearchForParents with
  | .ok setAncestors => .ok (setAncestors, none)
  | .error (.limit setAncestors errString) => .ok (setAncestors, some errString)
  | .error (.fault f) => .error f

def updateAncestorsOf (add : Bool) (it : uint256) (setAncestors : SetEntries) :
    Except Fault CTxMemPool := do
  let parentIters ← pool.getMemPoolParents it
  let pool ← forEach byHash parentIters
    (fun pool piter => .ok (updateChild pool piter it add)) pool
  let entry ← pool.deref it
  let updateCount : Int64 := if add then 1 else -1
  let updateSize := updateCount * (entry.getTxSize env).toInt64
  let updateFee := updateCount * entry.getModifiedFee
  forEach byHash setAncestors (fun pool ancestorIt =>
    modify pool ancestorIt (CTxMemPoolEntry.updateDescendantState updateSize updateFee
      updateCount)) pool

def addAncestor (sums : Int64 × Int64 × Int64) (ancestorIt : uint256) :
    Except Fault (Int64 × Int64 × Int64) := do
  let ancestor ← pool.deref ancestorIt
  return (sums.1 + (ancestor.getTxSize env).toInt64, sums.2.1 + ancestor.getModifiedFee,
    sums.2.2 + ancestor.sigOpCost)

def updateEntryForAncestors (it : uint256) (setAncestors : SetEntries) :
    Except Fault CTxMemPool := do
  let updateCount : Int64 := Int64.ofNat setAncestors.card
  let (updateSize, updateFee, updateSigOpsCost) ←
    forEach byHash setAncestors (pool.addAncestor env) (0, 0, 0)
  pool.modify it (CTxMemPoolEntry.updateAncestorState updateSize updateFee updateCount
    updateSigOpsCost.toInt32)

def updateChildrenForRemoval (it : uint256) : Except Fault CTxMemPool := do
  let setMemPoolChildren ← pool.getMemPoolChildren it
  forEach byHash setMemPoolChildren
    (fun pool updateIt => .ok (updateParent pool updateIt it false)) pool

/-- The first part of `UpdateForRemoveFromMempool`: what stays no longer counts `removeIt` among
its ancestors. -/
def updateDescendantsForRemoval (removeIt : uint256) : Except Fault CTxMemPool := do
  let setDescendants ← pool.calculateDescendants removeIt ∅
  let setDescendants := setDescendants.erase removeIt
  let entry ← pool.deref removeIt
  let modifySize := -(entry.getTxSize env).toInt64
  let modifyFee := -entry.getModifiedFee
  let modifySigOps : Int32 := (-entry.sigOpCost).toInt32
  forEach byHash setDescendants (fun pool dit =>
    modify pool dit (CTxMemPoolEntry.updateAncestorState modifySize modifyFee (-1)
      modifySigOps)) pool

/-- The second part: `removeIt` is taken off its ancestors, which are those of `mapLinks`. -/
def updateAncestorsForRemoval (removeIt : uint256) : Except Fault CTxMemPool := do
  let entry ← pool.deref removeIt
  let (setAncestors, _) ← pool.calculateMemPoolAncestors env entry nNoLimit false
  pool.updateAncestorsOf env false removeIt setAncestors

def updateForRemoveFromMempool (entriesToRemove : SetEntries) (updateDescendants : Bool) :
    Except Fault CTxMemPool := do
  let pool ← (if updateDescendants then
      forEach byHash entriesToRemove (updateDescendantsForRemoval env) pool
    else .ok pool)
  let pool ← forEach byHash entriesToRemove (updateAncestorsForRemoval env) pool
  forEach byHash entriesToRemove updateChildrenForRemoval pool

def insertNew {K : Type} [DecidableEq K] {V : Type} (m : Finmap fun _ : K => V) (k : K) (v : V) :
    Finmap fun _ : K => V :=
  if k ∈ m then m else m.insert k v

def insertEntry (newit : uint256) (entry : CTxMemPoolEntry) : CTxMemPool :=
  { pool with
    mapTx := insertNew pool.mapTx newit entry
    mapLinks := insertNew pool.mapLinks newit .empty }

def applyDelta (newit hash : uint256) : Except Fault CTxMemPool :=
  match pool.mapDeltas.lookup hash with
  | none => .ok pool
  | some delta =>
    if delta ≠ 0 then pool.modify newit fun entry => .ok (entry.updateFeeDelta delta)
    else .ok pool

def linkInputs (newit : uint256) (tx : CTransaction) : Except Fault CTxMemPool :=
  let pool := { pool with
    mapNextTx := tx.vin.foldl (fun m txin => insertNew m txin.prevout tx) pool.mapNextTx }
  let setParentTransactions := (tx.vin.map fun txin => txin.prevout.hash).toFinset
  forEach byHash setParentTransactions (fun (pool : CTxMemPool) phash =>
    .ok (if phash ∈ pool.mapTx then pool.updateParent newit phash true else pool)) pool

def addUnchecked (hash : uint256) (entry : CTxMemPoolEntry) (setAncestors : SetEntries) :
    Except Fault CTxMemPool := do
  let newit := entry.tx.getHash env.hash
  let pool ← (pool.insertEntry newit entry).applyDelta newit hash
  let newEntry ← pool.deref newit
  let pool ← pool.linkInputs newit newEntry.tx
  let pool ← pool.updateAncestorsOf env true newit setAncestors
  let pool ← pool.updateEntryForAncestors env newit setAncestors
  return { pool with totalTxSize := pool.totalTxSize + entry.getTxSize env }

def removeUnchecked (it : uint256) : Except Fault CTxMemPool := do
  let entry ← pool.deref it
  return { pool with
    mapNextTx := entry.tx.vin.foldl (fun m txin => m.erase txin.prevout) pool.mapNextTx
    totalTxSize := pool.totalTxSize - entry.getTxSize env
    mapLinks := pool.mapLinks.erase it
    mapTx := pool.mapTx.erase it }

def removeStaged (stage : SetEntries) (updateDescendants : Bool) : Except Fault CTxMemPool := do
  let pool ← pool.updateForRemoveFromMempool env stage updateDescendants
  forEach byHash stage (removeUnchecked env) pool

def calculateAllDescendants (txToRemove : SetEntries) : Except Fault SetEntries :=
  forEach byHash txToRemove (fun setAllRemoves it =>
    pool.calculateDescendants it setAllRemoves) ∅

/-- The pool's spender of output `i`, if there is one, is to be removed. -/
def stageSpender (hash : uint256) (txToRemove : SetEntries) (i : ℕ) : Except Fault SetEntries :=
  match pool.mapNextTx.lookup ⟨hash, UInt32.ofNat i⟩ with
  | none => .ok txToRemove
  | some tx => do
    assertThat (tx.getHash env.hash ∈ pool.mapTx) "nextit != mapTx.end()"
    return insert (tx.getHash env.hash) txToRemove

/-- Where `removeRecursive` starts: the transaction, or else the pool's spenders of its outputs. -/
def recursiveStart (origTx : CTransaction) : Except Fault SetEntries :=
  let hash := origTx.getHash env.hash
  if hash ∈ pool.mapTx then .ok {hash}
  else (List.range origTx.vout.length).foldlM (pool.stageSpender env hash) ∅

def removeRecursive (origTx : CTransaction) : Except Fault CTxMemPool := do
  let txToRemove ← pool.recursiveStart env origTx
  let setAllRemoves ← pool.calculateAllDescendants txToRemove
  pool.removeStaged env setAllRemoves false

def prioritiseTransaction (hash : uint256) (nFeeDelta : Int64) : Except Fault CTxMemPool := do
  let delta := (pool.mapDeltas.lookup hash).getD 0 + nFeeDelta
  let pool := { pool with mapDeltas := pool.mapDeltas.insert hash delta }
  if hash ∈ pool.mapTx then do
    let pool ← pool.modify hash fun entry => .ok (entry.updateFeeDelta delta)
    let entry ← pool.deref hash
    let (setAncestors, _) ← pool.calculateMemPoolAncestors env entry nNoLimit false
    let pool ← forEach byHash setAncestors (fun pool ancestorIt =>
      modify pool ancestorIt (CTxMemPoolEntry.updateDescendantState 0 nFeeDelta 0)) pool
    let setDescendants ← pool.calculateDescendants hash ∅
    let setDescendants := setDescendants.erase hash
    forEach byHash setDescendants (fun pool descendantIt =>
      modify pool descendantIt (CTxMemPoolEntry.updateAncestorState 0 nFeeDelta 0 0)) pool
  else return pool

end

end CTxMemPool

end Coinyecoin
