import Coinyecoin.Coins.CCoins
import Coinyecoin.Foundation.KeyedFold

/-!
# Stacked coins caches

`CCoinsViewCache` caches the coins of a parent view, which is another cache or
the view at the bottom. A `ViewStack` is the caches from the top
one down with the state of the bottom view. Reading through a cache may fill it
and every cache below it, so reads return the stack they leave.

A `CCoinsModifier` lives while the caller edits the coins it was opened on, and
its destructor closes the edit. `modifyCoins` and `modifyNewCoins` take the edit
as a function and do both. The source's `hasModifier` and memory counters are
not modelled: no edit opens another one on the same cache.
-/

namespace Coinyecoin

open Foundation

abbrev CCoinsCacheEntry := CacheSlot CCoins

abbrev CCoinsMap := AList fun _ : uint256 => CCoinsCacheEntry

structure CCoinsView where
  State : Type
  getCoins : State → uint256 → Option CCoins
  getBestBlock : State → uint256
  batchWrite : State → CCoinsMap → uint256 → Bool × State

/-- One cache. A null `hashBlock` has not been read from the parent yet. -/
structure CCoinsViewCache where
  cacheCoins : CCoinsMap
  hashBlock : uint256

namespace CCoinsViewCache

def empty : CCoinsViewCache := ⟨∅, 0⟩

def fetchCoins (view : CCoinsViewCache) (below : List CCoinsViewCache)
    (base : Option CCoins × List CCoinsViewCache) (txid : uint256) :
    Option CCoins × CCoinsViewCache × List CCoinsViewCache :=
  match view.cacheCoins.lookup txid with
  | some it => (some it.value, view, below)
  | none =>
    match base with
    | (none, below) => (none, view, below)
    | (some tmp, below) =>
      -- a parent that only has a pruned entry counts as having none
      (some tmp,
        { view with cacheCoins := view.cacheCoins.insert txid ⟨tmp, false, tmp.isPruned⟩ },
        below)

def closeModifier (view : CCoinsViewCache) (txid : uint256) (it : CCoinsCacheEntry) :
    CCoinsViewCache :=
  let coins := it.value.cleanup
  if it.fresh && coins.isPruned then
    { view with cacheCoins := view.cacheCoins.erase txid }
  else
    { view with cacheCoins := view.cacheCoins.insert txid { it with value := coins } }

def batchWriteEntry (cacheCoins : CCoinsMap) (txid : uint256) (it : CCoinsCacheEntry) :
    Except Fault CCoinsMap :=
  if it.dirty then
    match cacheCoins.lookup txid with
    | none =>
      if it.fresh && it.value.isPruned then
        .ok cacheCoins
      else
        .ok (cacheCoins.insert txid ⟨it.value, true, it.fresh⟩)
    | some itUs =>
      if it.fresh && !itUs.value.isPruned then
        .error (.thrown
          "FRESH flag misapplied to cache entry for base transaction with spendable outputs")
      else if itUs.fresh && it.value.isPruned then
        .ok (cacheCoins.erase txid)
      else
        -- the child's FRESH flag is not copied
        .ok (cacheCoins.insert txid ⟨it.value, true, itUs.fresh⟩)
  else
    .ok cacheCoins

def batchWrite (view : CCoinsViewCache) (mapCoins : CCoinsMap) (hashBlock : uint256) :
    Except Fault CCoinsViewCache := do
  let cacheCoins ← mapCoins.entries.foldlM (fun m e => batchWriteEntry m e.1 e.2) view.cacheCoins
  return ⟨cacheCoins, hashBlock⟩

def uncache (view : CCoinsViewCache) (hash : uint256) : CCoinsViewCache :=
  match view.cacheCoins.lookup hash with
  | some it =>
    if !it.dirty && !it.fresh then
      { view with cacheCoins := view.cacheCoins.erase hash }
    else view
  | none => view

end CCoinsViewCache

/-- A cache on top of `below`, the caches from the next one down, over a bottom
view in state `base`. -/
structure ViewStack (B : CCoinsView) where
  top : CCoinsViewCache
  below : List CCoinsViewCache
  base : B.State

namespace ViewStack

variable {B : CCoinsView}

def getCoins (base : B.State) :
    List CCoinsViewCache → uint256 → Option CCoins × List CCoinsViewCache
  | [], txid => (B.getCoins base txid, [])
  | view :: below, txid =>
    let fetched := view.fetchCoins below (getCoins base below txid) txid
    (fetched.1, fetched.2.1 :: fetched.2.2)

def getBestBlock (base : B.State) : List CCoinsViewCache → uint256 × List CCoinsViewCache
  | [] => (B.getBestBlock base, [])
  | view :: below =>
    if view.hashBlock == 0 then
      let best := getBestBlock base below
      (best.1, { view with hashBlock := best.1 } :: best.2)
    else
      (view.hashBlock, view :: below)

def bestBlock (s : ViewStack B) : uint256 × ViewStack B :=
  if s.top.hashBlock == 0 then
    let best := getBestBlock s.base s.below
    (best.1, { s with top := { s.top with hashBlock := best.1 }, below := best.2 })
  else
    (s.top.hashBlock, s)

/-- `AccessCoins` and `GetCoins` of the top cache. -/
def accessCoins (s : ViewStack B) (txid : uint256) : Option CCoins × ViewStack B :=
  let fetched := s.top.fetchCoins s.below (getCoins s.base s.below txid) txid
  (fetched.1, { s with top := fetched.2.1, below := fetched.2.2 })

/-- `HaveCoins` of the top cache: it asks for outputs, not for unspent ones. -/
def haveCoins (s : ViewStack B) (txid : uint256) : Bool × ViewStack B :=
  let accessed := s.accessCoins txid
  (accessed.1.any fun coins => !coins.vout.isEmpty, accessed.2)

/-- The entry a modifier is opened on, and the caches below as the lookup leaves
them. -/
def openEntry (s : ViewStack B) (txid : uint256) : CCoinsCacheEntry × List CCoinsViewCache :=
  match s.top.cacheCoins.lookup txid with
  | some it => (it, s.below)
  | none =>
    match getCoins s.base s.below txid with
    | (none, below) => (⟨CCoins.empty, false, true⟩, below)
    | (some coins, below) => (⟨coins, false, coins.isPruned⟩, below)

/-- `ModifyCoins`, an edit of the coins it opens, and the end of the edit. -/
def modifyCoins {α : Type} (s : ViewStack B) (txid : uint256)
    (edit : CCoins → Except Fault (α × CCoins)) : Except Fault (α × ViewStack B) := do
  let (it, below) := s.openEntry txid
  let (a, coins) ← edit it.value
  return (a, { s with top := s.top.closeModifier txid ⟨coins, true, it.fresh⟩, below })

/-- The entry `ModifyNewCoins` is called on; the parent is not asked. -/
def newEntry (s : ViewStack B) (txid : uint256) : CCoinsCacheEntry :=
  (s.top.cacheCoins.lookup txid).getD ⟨CCoins.empty, false, false⟩

/-- `ModifyNewCoins`, an edit of the cleared coins, and the end of the edit. -/
def modifyNewCoins (s : ViewStack B) (txid : uint256) (coinbase : Bool)
    (edit : CCoins → CCoins) : Except Fault (ViewStack B) :=
  let it := s.newEntry txid
  if !coinbase && !it.value.isPruned then
    .error (.thrown ("ModifyNewCoins should not find pre-existing coins on a non-coinbase " ++
      "unless they are pruned!"))
  else
    let fresh := it.fresh || (!coinbase && !it.dirty)
    .ok { s with top := s.top.closeModifier txid ⟨edit CCoins.empty, true, fresh⟩ }

def setBestBlock (s : ViewStack B) (hashBlock : uint256) : ViewStack B :=
  { s with top := { s.top with hashBlock } }

def uncache (s : ViewStack B) (hash : uint256) : ViewStack B :=
  { s with top := s.top.uncache hash }

/-- `Flush` of the top cache into the one below it, or into the bottom view. -/
def flush (s : ViewStack B) : Except Fault (Bool × ViewStack B) :=
  match s.below with
  | [] =>
    let (fOk, base) := B.batchWrite s.base s.top.cacheCoins s.top.hashBlock
    .ok (fOk, { s with top := { s.top with cacheCoins := ∅ }, base })
  | parent :: below => do
    let parent ← parent.batchWrite s.top.cacheCoins s.top.hashBlock
    return (true, { s with top := { s.top with cacheCoins := ∅ }, below := parent :: below })

def push (s : ViewStack B) : ViewStack B :=
  { s with top := CCoinsViewCache.empty, below := s.top :: s.below }

def drop (s : ViewStack B) : ViewStack B :=
  match s.below with
  | [] => s
  | view :: below => { s with top := view, below }

end ViewStack

/-- A plain `CCoinsView`, as the source puts under caches that are filled later:
it has nothing and takes nothing. -/
def dummyView : CCoinsView where
  State := Unit
  getCoins _ _ := none
  getBestBlock _ := 0
  batchWrite _ _ _ := (false, ())

/-- A map of coins. Only records with unspent outputs are ever stored. -/
structure CoinsMap where
  coins : AList fun _ : uint256 => CCoins
  hashBestBlock : uint256
  unspent : ∀ txid c, coins.lookup txid = some c → c.isPruned = false

namespace CoinsMap

def empty : CoinsMap := ⟨∅, 0, fun _ _ h => nomatch h⟩

def writeEntry (db : CoinsMap) (txid : uint256) (it : CCoinsCacheEntry) : CoinsMap :=
  if it.dirty then
    if h : it.value.isPruned = true then
      { db with
        coins := db.coins.erase txid
        unspent := fun t c hc => by
          by_cases ht : t = txid
          · subst ht
            rw [AList.lookup_erase] at hc
            cases hc
          · rw [AList.lookup_erase_ne ht] at hc
            exact db.unspent t c hc }
    else
      { db with
        coins := db.coins.insert txid it.value
        unspent := fun t c hc => by
          by_cases ht : t = txid
          · subst ht
            rw [AList.lookup_insert] at hc
            cases hc
            exact Bool.eq_false_iff.2 h
          · rw [AList.lookup_insert_ne ht] at hc
            exact db.unspent t c hc }
  else db

/-- A null block hash is not written. -/
def batchWrite (db : CoinsMap) (mapCoins : CCoinsMap) (hashBlock : uint256) : CoinsMap :=
  let db := mapCoins.entries.foldl (fun db e => db.writeEntry e.1 e.2) db
  if hashBlock == 0 then db else { db with hashBestBlock := hashBlock }

end CoinsMap

/-- The view of a map. `CCoinsViewDB` keeps bytes instead, from which not every record comes back:
not one with a negative version or an overlong script. -/
def coinsMapView : CCoinsView where
  State := CoinsMap
  getCoins db txid := db.coins.lookup txid
  getBestBlock db := db.hashBestBlock
  batchWrite db mapCoins hashBlock := (true, db.batchWrite mapCoins hashBlock)

end Coinyecoin
