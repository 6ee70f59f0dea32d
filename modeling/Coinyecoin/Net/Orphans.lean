import Coinyecoin.Net.Downloads
import Coinyecoin.Mempool.Entry
import Coinyecoin.Foundation.Table

/-!
# The orphan pool

Transactions whose inputs are not known yet, by hash, and for each outpoint the
orphans that spend it. The second map holds iterators into the first, which here
are the hashes they point to. A loop that erases orphans while it goes over the
map has its own iterator, which is a key of the map and must stay one.

The order of the map and of the hashes of transactions are parameters, and the
clock and the random hashes are part of a call.
-/

namespace Coinyecoin

open Foundation Table Function

def ORPHAN_TX_EXPIRE_TIME : ℤ := 20 * 60

def ORPHAN_TX_EXPIRE_INTERVAL : ℤ := 5 * 60

def SYNC_TRANSACTION_NOT_IN_BLOCK : ℤ := -1

structure OrphanEnv where
  getHash : CTransaction → uint256
  less : uint256 → uint256 → Bool

structure COrphanTx where
  tx : CTransaction
  fromPeer : NodeId
  nTimeExpire : ℤ
deriving DecidableEq, Repr

structure OrphanPool where
  mapOrphanTransactions : List (uint256 × COrphanTx)
  mapOrphanTransactionsByPrev : COutPoint → Option (List uint256)
  nNextSweep : ℤ

namespace OrphanPool

def init : OrphanPool := ⟨[], fun _ => none, 0⟩

section

variable (env : OrphanEnv) (s : OrphanPool)

def link (hash : uint256) (byPrev : COutPoint → Option (List uint256)) (txin : CTxIn) :
    COutPoint → Option (List uint256) :=
  let set := (byPrev txin.prevout).getD []
  Function.update byPrev txin.prevout (some (if hash ∈ set then set else set ++ [hash]))

def unlink (hash : uint256) (byPrev : COutPoint → Option (List uint256)) (txin : CTxIn) :
    COutPoint → Option (List uint256) :=
  match byPrev txin.prevout with
  | none => byPrev
  | some set =>
    let set := set.erase hash
    Function.update byPrev txin.prevout (if set = [] then none else some set)

def addOrphanTx (tx : CTransaction) (peer : NodeId) (nTime : ℤ) :
    Except Fault (OrphanPool × Bool) :=
  let hash := env.getHash tx
  if (s.mapOrphanTransactions.lookup hash).isSome then .ok (s, false)
  else if getTransactionWeight tx ≥ MAX_STANDARD_TX_WEIGHT then .ok (s, false)
  else do
    assertThat (s.mapOrphanTransactions.lookup hash = none) "ret.second"
    .ok ({ s with
      mapOrphanTransactions := insertRow env.less (hash, ⟨tx, peer, nTime + ORPHAN_TX_EXPIRE_TIME⟩)
        s.mapOrphanTransactions
      mapOrphanTransactionsByPrev := tx.vin.foldl (link hash) s.mapOrphanTransactionsByPrev },
      true)

/-- The result counts the erased transactions. -/
def eraseOrphanTx (hash : uint256) : OrphanPool × ℤ :=
  match s.mapOrphanTransactions.lookup hash with
  | none => (s, 0)
  | some orphan =>
    ({ s with
      mapOrphanTransactions := eraseAt hash s.mapOrphanTransactions
      mapOrphanTransactionsByPrev :=
        orphan.tx.vin.foldl (unlink hash) s.mapOrphanTransactionsByPrev }, 1)

/-- A loop over the map: `iter` moves on to the next key before the orphan is visited. -/
def sweepLoop (visit : OrphanPool × ℤ → COrphanTx → OrphanPool × ℤ) :
    ℕ → Option uint256 → OrphanPool × ℤ → Except Stop (OrphanPool × ℤ)
  | 0, _, _ => .error .outOfFuel
  | _ + 1, none, acc => .ok acc
  | fuel + 1, some maybeErase, acc =>
    match acc.1.mapOrphanTransactions.lookup maybeErase with
    | none => .error (.fault .danglingPointer)
    | some orphan =>
      let iter := nextKey maybeErase acc.1.mapOrphanTransactions
      sweepLoop visit fuel iter (visit acc orphan)

def sweep (visit : OrphanPool × ℤ → COrphanTx → OrphanPool × ℤ) (n : ℤ) :
    Except Stop (OrphanPool × ℤ) :=
  sweepLoop visit (s.mapOrphanTransactions.length + 1)
    (s.mapOrphanTransactions.head?.map Prod.fst) (s, n)

def eraseFromPeer (peer : NodeId) : OrphanPool × ℤ → COrphanTx → OrphanPool × ℤ
  | (s, nErased), orphan =>
    if orphan.fromPeer = peer then
      let (s, n) := s.eraseOrphanTx (env.getHash orphan.tx)
      (s, nErased + n)
    else (s, nErased)

def eraseOrphansFor (peer : NodeId) : Except Stop (OrphanPool × ℤ) :=
  s.sweep (eraseFromPeer env peer) 0

def eraseExpired (nNow : ℤ) : OrphanPool × ℤ → COrphanTx → OrphanPool × ℤ
  | (s, nMinExpTime), orphan =>
    if orphan.nTimeExpire ≤ nNow then ((s.eraseOrphanTx (env.getHash orphan.tx)).1, nMinExpTime)
    else (s, min orphan.nTimeExpire nMinExpTime)

def sweepExpired (nNow : ℤ) : Except Stop OrphanPool := do
  let (s, nMinExpTime) ← s.sweep (eraseExpired env nNow)
    (nNow + ORPHAN_TX_EXPIRE_TIME - ORPHAN_TX_EXPIRE_INTERVAL)
  .ok { s with nNextSweep := nMinExpTime + ORPHAN_TX_EXPIRE_INTERVAL }

/-- `lower_bound(randomhash)`, or the beginning of the map instead of its end. -/
def lowerBound (randomhash : uint256) : Option uint256 :=
  ((s.mapOrphanTransactions.find? fun row => !env.less row.1 randomhash).or
    s.mapOrphanTransactions.head?).map Prod.fst

def evictLoop (getRandHash : ℕ → uint256) (nMaxOrphans : ℕ) :
    ℕ → ℕ → OrphanPool → Except Stop (OrphanPool × ℕ)
  | 0, _, _ => .error .outOfFuel
  | fuel + 1, nEvicted, s =>
    if s.mapOrphanTransactions.length > nMaxOrphans then
      match s.lowerBound env (getRandHash nEvicted) with
      | none => .error (.fault .danglingPointer)
      | some it => evictLoop getRandHash nMaxOrphans fuel (nEvicted + 1) (s.eraseOrphanTx it).1
    else .ok (s, nEvicted)

def evict (getRandHash : ℕ → uint256) (nMaxOrphans : ℕ) : Except Stop (OrphanPool × ℕ) :=
  evictLoop env getRandHash nMaxOrphans (s.mapOrphanTransactions.length + 1) 0 s

def limitOrphanTxSize (nMaxOrphans : ℕ) (nNow : ℤ) (getRandHash : ℕ → uint256) :
    Except Stop (OrphanPool × ℕ) :=
  if s.nNextSweep ≤ nNow then do
    let s ← s.sweepExpired env nNow
    s.evict env getRandHash nMaxOrphans
  else s.evict env getRandHash nMaxOrphans

def orphanHashes (set : List uint256) : Except Fault (List uint256) :=
  set.mapM fun it =>
    match s.mapOrphanTransactions.lookup it with
    | none => .error .danglingPointer
    | some orphan => .ok (env.getHash orphan.tx)

def syncTransaction (tx : CTransaction) (nPosInBlock : ℤ) : Except Fault OrphanPool :=
  if nPosInBlock = SYNC_TRANSACTION_NOT_IN_BLOCK then .ok s
  else do
    let vOrphanErase ← tx.vin.mapM fun txin =>
      s.orphanHashes env ((s.mapOrphanTransactionsByPrev txin.prevout).getD [])
    .ok (vOrphanErase.flatten.foldl (fun s hash => (s.eraseOrphanTx hash).1) s)

end

end OrphanPool

inductive OrphanEvent where
  | addOrphanTx (tx : CTransaction) (peer : NodeId) (nTime : ℤ)
  | eraseOrphanTx (hash : uint256)
  | eraseOrphansFor (peer : NodeId)
  | limitOrphanTxSize (nMaxOrphans : ℕ) (nNow : ℤ) (getRandHash : ℕ → uint256)
  | syncTransaction (tx : CTransaction) (nPosInBlock : ℤ)

namespace OrphanPool

def step (env : OrphanEnv) (s : OrphanPool) : OrphanEvent → Except Stop OrphanPool
  | .addOrphanTx tx peer nTime => return (← orStop (s.addOrphanTx env tx peer nTime)).1
  | .eraseOrphanTx hash => .ok (s.eraseOrphanTx hash).1
  | .eraseOrphansFor peer => return (← s.eraseOrphansFor env peer).1
  | .limitOrphanTxSize nMaxOrphans nNow getRandHash =>
    return (← s.limitOrphanTxSize env nMaxOrphans nNow getRandHash).1
  | .syncTransaction tx nPosInBlock => orStop (s.syncTransaction env tx nPosInBlock)

section

def listed (byPrev : COutPoint → Option (List uint256)) (prevout : COutPoint) : List uint256 :=
  (byPrev prevout).getD []

def Proper (byPrev : COutPoint → Option (List uint256)) : Prop :=
  ∀ prevout set, byPrev prevout = some set → set ≠ [] ∧ set.Nodup

variable {byPrev : COutPoint → Option (List uint256)}

theorem Proper.nodup (h : Proper byPrev) (prevout : COutPoint) : (listed byPrev prevout).Nodup := by
  rw [listed]
  cases hset : byPrev prevout with
  | none => exact List.nodup_nil
  | some set => exact (h prevout set hset).2

theorem mem_listed_link (hash other : uint256) (txin : CTxIn) (prevout : COutPoint) :
    other ∈ listed (link hash byPrev txin) prevout ↔
      other ∈ listed byPrev prevout ∨ other = hash ∧ prevout = txin.prevout := by
  by_cases heq : prevout = txin.prevout
  · subst heq
    rw [listed, link, update_self, Option.getD_some, and_iff_left rfl]
    split_ifs with hmem
    · refine ⟨.inl, fun h => h.elim id ?_⟩
      rintro rfl
      exact hmem
    · rw [List.mem_append, List.mem_singleton]
      rfl
  · rw [listed, link, update_of_ne heq, and_iff_right_of_imp (fun h => absurd h heq)]
    simp [listed, heq]

section

variable (h : Proper byPrev)
include h

variable (hash : uint256) (vin : List CTxIn) (txin : CTxIn)

theorem Proper.link : Proper (link hash byPrev txin) := by
  intro prevout set hset
  by_cases heq : prevout = txin.prevout
  · subst heq
    rw [OrphanPool.link, update_self, Option.some_inj] at hset
    subst hset
    have hnodup := h.nodup txin.prevout
    rw [listed] at hnodup
    split_ifs with hmem
    · exact ⟨List.ne_nil_of_mem hmem, hnodup⟩
    · refine ⟨by simp, List.nodup_append.2 ⟨hnodup, List.nodup_singleton _, ?_⟩⟩
      intro a ha b hb hab
      rw [hab, List.mem_singleton.1 hb] at ha
      exact hmem ha
  · rw [OrphanPool.link, update_of_ne heq] at hset
    exact h prevout set hset

theorem mem_listed_unlink (hash other : uint256) (txin : CTxIn) (prevout : COutPoint) :
    other ∈ listed (unlink hash byPrev txin) prevout ↔
      other ∈ listed byPrev prevout ∧ ¬ (other = hash ∧ prevout = txin.prevout) := by
  rw [unlink]
  cases hset : byPrev txin.prevout with
  | none =>
    refine ⟨fun hmem => ⟨hmem, ?_⟩, fun hmem => hmem.1⟩
    rintro ⟨rfl, rfl⟩
    simp [listed, hset] at hmem
  | some set =>
    have hnodup := (h _ _ hset).2
    dsimp only
    by_cases heq : prevout = txin.prevout
    · subst heq
      rw [listed, update_self, listed, hset, Option.getD_some, and_iff_left rfl,
        and_comm, ← ne_eq, ← hnodup.mem_erase_iff]
      split_ifs with hempty
      · rw [hempty]
        rfl
      · rfl
    · rw [listed, update_of_ne heq, ← listed, and_iff_left fun h => heq h.2]

theorem Proper.unlink : Proper (unlink hash byPrev txin) := by
  intro prevout set hset
  rw [OrphanPool.unlink] at hset
  cases hold : byPrev txin.prevout with
  | none =>
    rw [hold] at hset
    exact h prevout set hset
  | some old =>
    rw [hold] at hset
    dsimp only at hset
    by_cases heq : prevout = txin.prevout
    · subst heq
      rw [update_self] at hset
      split_ifs at hset with hempty
      obtain rfl := Option.some_inj.1 hset
      exact ⟨hempty, (h _ _ hold).2.erase hash⟩
    · rw [update_of_ne heq] at hset
      exact h prevout set hset

theorem foldl_link :
    Proper (vin.foldl (link hash) byPrev) ∧ ∀ other prevout,
      other ∈ listed (vin.foldl (link hash) byPrev) prevout ↔
        other ∈ listed byPrev prevout ∨ other = hash ∧ ∃ txin ∈ vin, prevout = txin.prevout := by
  induction vin generalizing byPrev with
  | nil => exact ⟨h, by simp⟩
  | cons txin vin ih =>
    obtain ⟨hproper, hmem⟩ := ih (h.link hash txin)
    refine ⟨hproper, fun other prevout => ?_⟩
    rw [List.foldl_cons, hmem, mem_listed_link, List.exists_mem_cons_iff, or_assoc, and_or_left]

theorem foldl_unlink :
    Proper (vin.foldl (unlink hash) byPrev) ∧ ∀ other prevout,
      other ∈ listed (vin.foldl (unlink hash) byPrev) prevout ↔
        other ∈ listed byPrev prevout ∧
          ¬ (other = hash ∧ ∃ txin ∈ vin, prevout = txin.prevout) := by
  induction vin generalizing byPrev with
  | nil => exact ⟨h, by simp⟩
  | cons txin vin ih =>
    obtain ⟨hproper, hmem⟩ := ih (h.unlink hash txin)
    refine ⟨hproper, fun other prevout => ?_⟩
    rw [List.foldl_cons, hmem, mem_listed_unlink h, List.exists_mem_cons_iff, and_or_left, not_or,
      and_assoc]

end

end

/-- The index lists for each outpoint exactly the stored orphans that spend it. -/
structure Indexed (env : OrphanEnv) (s : OrphanPool) : Prop where
  keys : (s.mapOrphanTransactions.map Prod.fst).Nodup
  hashes : ∀ hash orphan, s.mapOrphanTransactions.lookup hash = some orphan →
    env.getHash orphan.tx = hash
  proper : Proper s.mapOrphanTransactionsByPrev
  exact : ∀ prevout hash, hash ∈ listed s.mapOrphanTransactionsByPrev prevout ↔
    ∃ orphan, s.mapOrphanTransactions.lookup hash = some orphan ∧
      ∃ txin ∈ orphan.tx.vin, prevout = txin.prevout

variable {env : OrphanEnv} {s : OrphanPool}

theorem indexed_init : Indexed env init where
  keys := List.nodup_nil
  hashes := nofun
  proper := nofun
  exact := by simp [init, listed]

section

variable (h : Indexed env s)
include h

theorem Indexed.addOrphanTx (tx : CTransaction) (peer : NodeId) (nTime : ℤ) :
    ∃ s' f, s.addOrphanTx env tx peer nTime = .ok (s', f) ∧ Indexed env s' := by
  rw [OrphanPool.addOrphanTx]
  split_ifs with hcount hweight
  · exact ⟨s, false, rfl, h⟩
  · exact ⟨s, false, rfl, h⟩
  · have hnew := Option.not_isSome_iff_eq_none.1 hcount
    obtain ⟨hproper, hlisted⟩ := foldl_link h.proper (env.getHash tx) tx.vin
    rw [assertThat_of_true hnew, ok_bind]
    refine ⟨_, true, rfl, ?_, fun hash orphan hlook => ?_, hproper, fun prevout hash => ?_⟩
    · have hperm := (insertRow_perm env.less
        (env.getHash tx, (⟨tx, peer, nTime + ORPHAN_TX_EXPIRE_TIME⟩ : COrphanTx))
        s.mapOrphanTransactions).map Prod.fst
      refine hperm.nodup_iff.2 (List.nodup_cons.2 ⟨fun hmem => ?_, h.keys⟩)
      obtain ⟨orphan, hlook⟩ := exists_lookup hmem
      rw [hnew] at hlook
      cases hlook
    · rw [lookup_insertRow env.less hnew] at hlook
      split_ifs at hlook with heq
      · obtain rfl := Option.some_inj.1 hlook
        exact heq.symm
      · exact h.hashes hash orphan hlook
    · rw [hlisted, h.exact, lookup_insertRow env.less hnew]
      by_cases heq : hash = env.getHash tx
      · rw [if_pos heq, heq, hnew]
        simp
      · rw [if_neg heq]
        simp [heq]

theorem Indexed.eraseOrphanTx (hash : uint256) :
    Indexed env (s.eraseOrphanTx hash).1 ∧ (s.eraseOrphanTx hash).1.mapOrphanTransactions =
      if (s.mapOrphanTransactions.lookup hash).isSome then eraseAt hash s.mapOrphanTransactions
      else s.mapOrphanTransactions := by
  rw [OrphanPool.eraseOrphanTx]
  cases hlook : s.mapOrphanTransactions.lookup hash with
  | none => exact ⟨h, rfl⟩
  | some orphan =>
    obtain ⟨hproper, hlisted⟩ := foldl_unlink h.proper hash orphan.tx.vin
    refine ⟨⟨h.keys.sublist keys_eraseAt_sublist, fun other o ho => ?_, hproper,
      fun prevout other => ?_⟩, rfl⟩
    · rw [lookup_eraseAt h.keys] at ho
      split_ifs at ho
      exact h.hashes other o ho
    · rw [hlisted, h.exact, lookup_eraseAt h.keys]
      by_cases heq : other = hash
      · rw [if_pos heq, heq, hlook]
        simp
      · rw [if_neg heq]
        simp [heq]

end

variable {visit : OrphanPool × ℤ → COrphanTx → OrphanPool × ℤ}

/-- A visit that erases the visited orphan, or none, keeps the iterator of the loop good. -/
theorem sweepLoop_ok
    (hvisit : ∀ s n orphan, Indexed env s → visit (s, n) orphan = (s, (visit (s, n) orphan).2) ∨
      (visit (s, n) orphan).1 = (s.eraseOrphanTx (env.getHash orphan.tx)).1)
    (rest done : List (uint256 × COrphanTx)) (fuel : ℕ) (hfuel : rest.length < fuel) (n : ℤ)
    (hs : Indexed env s) (hrows : s.mapOrphanTransactions = done ++ rest) :
    ∃ s' n', sweepLoop visit fuel (rest.head?.map Prod.fst) (s, n) = .ok (s', n') ∧
      Indexed env s' := by
  induction rest generalizing done fuel s n with
  | nil =>
    cases fuel with
    | zero => exact absurd hfuel (Nat.not_lt_zero _)
    | succ fuel => exact ⟨s, n, rfl, hs⟩
  | cons row rest ih =>
    obtain ⟨key, orphan⟩ := row
    cases fuel with
    | zero => exact absurd hfuel (Nat.not_lt_zero _)
    | succ fuel =>
      have hkeys := hs.keys
      rw [hrows, List.map_append, List.map_cons, List.nodup_middle, List.nodup_cons] at hkeys
      have hnew : key ∉ done.map Prod.fst := fun hmem => hkeys.1 (List.mem_append_left _ hmem)
      have hlook : s.mapOrphanTransactions.lookup key = some orphan := by
        rw [hrows, lookup_middle hnew]
      have hnext : nextKey key s.mapOrphanTransactions = rest.head?.map Prod.fst := by
        rw [hrows, nextKey_middle hnew]
      have hrest : rest.length < fuel := Nat.lt_of_succ_lt_succ hfuel
      rw [List.head?_cons, Option.map_some, sweepLoop]
      dsimp only
      rw [hlook]
      dsimp only
      rw [hnext]
      rcases hvisit s n orphan hs with hstay | herase
      · rw [hstay]
        exact ih (done ++ [(key, orphan)]) fuel hrest _ hs (by rw [hrows, List.append_assoc]; rfl)
      · rw [hs.hashes key orphan hlook] at herase
        obtain ⟨hs', hmap⟩ := hs.eraseOrphanTx key
        rw [← herase] at hs' hmap
        rw [hlook, Option.isSome_some, if_pos rfl, hrows, eraseAt_middle hnew] at hmap
        exact ih done fuel hrest _ hs' hmap

theorem Indexed.sweep (h : Indexed env s)
    (hvisit : ∀ s n orphan, Indexed env s → visit (s, n) orphan = (s, (visit (s, n) orphan).2) ∨
      (visit (s, n) orphan).1 = (s.eraseOrphanTx (env.getHash orphan.tx)).1) (n : ℤ) :
    ∃ s' n', s.sweep visit n = .ok (s', n') ∧ Indexed env s' :=
  sweepLoop_ok hvisit s.mapOrphanTransactions [] _ (Nat.lt_succ_self _) n h rfl

theorem Indexed.eraseOrphansFor (h : Indexed env s) (peer : NodeId) :
    ∃ s' n, s.eraseOrphansFor env peer = .ok (s', n) ∧ Indexed env s' := by
  refine h.sweep (fun s n orphan _ => ?_) 0
  rw [eraseFromPeer]
  split_ifs
  · exact .inr rfl
  · exact .inl rfl

theorem Indexed.sweepExpired (h : Indexed env s) (nNow : ℤ) :
    ∃ s', s.sweepExpired env nNow = .ok s' ∧ Indexed env s' := by
  have hvisit : ∀ s n orphan, Indexed env s →
      eraseExpired env nNow (s, n) orphan = (s, (eraseExpired env nNow (s, n) orphan).2) ∨
        (eraseExpired env nNow (s, n) orphan).1 =
          (s.eraseOrphanTx (env.getHash orphan.tx)).1 := by
    intro s n orphan _
    rw [eraseExpired]
    split_ifs
    · exact .inr rfl
    · exact .inl rfl
  obtain ⟨s', n, hsweep, h'⟩ :=
    h.sweep hvisit (nNow + ORPHAN_TX_EXPIRE_TIME - ORPHAN_TX_EXPIRE_INTERVAL)
  refine ⟨{ s' with nNextSweep := n + ORPHAN_TX_EXPIRE_INTERVAL }, ?_,
    ⟨h'.keys, h'.hashes, h'.proper, h'.exact⟩⟩
  rw [OrphanPool.sweepExpired, hsweep]
  rfl

theorem exists_lowerBound {env : OrphanEnv} {randomhash : uint256}
    (hpos : 0 < s.mapOrphanTransactions.length) :
    ∃ key orphan, s.lowerBound env randomhash = some key ∧
      s.mapOrphanTransactions.lookup key = some orphan := by
  have hrow : ∃ row ∈ s.mapOrphanTransactions, s.lowerBound env randomhash = some row.1 := by
    rw [lowerBound]
    cases hfind : s.mapOrphanTransactions.find? fun row => !env.less row.1 randomhash with
    | some row => exact ⟨row, List.mem_of_find?_eq_some hfind, rfl⟩
    | none =>
      cases hrows : s.mapOrphanTransactions with
      | nil =>
        rw [hrows] at hpos
        exact absurd hpos (Nat.lt_irrefl 0)
      | cons row rest => exact ⟨row, List.mem_cons_self, rfl⟩
  obtain ⟨row, hmem, hkey⟩ := hrow
  obtain ⟨orphan, hlook⟩ := exists_lookup (List.mem_map_of_mem hmem)
  exact ⟨row.1, orphan, hkey, hlook⟩

theorem evictLoop_ok {getRandHash : ℕ → uint256} {nMaxOrphans : ℕ} (fuel nEvicted : ℕ)
    (hs : Indexed env s) (hfuel : s.mapOrphanTransactions.length < fuel) :
    ∃ s' n, evictLoop env getRandHash nMaxOrphans fuel nEvicted s = .ok (s', n) ∧
      Indexed env s' ∧ s'.mapOrphanTransactions.length ≤ nMaxOrphans := by
  induction fuel generalizing nEvicted s with
  | zero => exact absurd hfuel (Nat.not_lt_zero _)
  | succ fuel ih =>
    rw [evictLoop]
    split_ifs with hmore
    · obtain ⟨key, orphan, hkey, hlook⟩ :=
        exists_lowerBound (Nat.zero_lt_of_lt hmore)
      obtain ⟨hs', hmap⟩ := hs.eraseOrphanTx key
      rw [hlook, Option.isSome_some, if_pos rfl] at hmap
      have hlength := length_eraseAt hlook
      rw [hkey]
      exact ih (nEvicted + 1) hs' (by rw [hmap]; omega)
    · exact ⟨s, nEvicted, rfl, hs, Nat.le_of_not_lt hmore⟩

theorem Indexed.limitOrphanTxSize (h : Indexed env s) (nMaxOrphans : ℕ) (nNow : ℤ)
    (getRandHash : ℕ → uint256) :
    ∃ s' n, s.limitOrphanTxSize env nMaxOrphans nNow getRandHash = .ok (s', n) ∧
      Indexed env s' ∧ s'.mapOrphanTransactions.length ≤ nMaxOrphans := by
  rw [OrphanPool.limitOrphanTxSize]
  split_ifs
  · obtain ⟨s₁, hsweep, h₁⟩ := h.sweepExpired nNow
    rw [hsweep, ok_bind]
    exact evictLoop_ok _ 0 h₁ (Nat.lt_succ_self _)
  · exact evictLoop_ok _ 0 h (Nat.lt_succ_self _)

theorem Indexed.eraseAll (h : Indexed env s) {hashes : List uint256} :
    Indexed env (hashes.foldl (fun s hash => (s.eraseOrphanTx hash).1) s) := by
  induction hashes generalizing s with
  | nil => exact h
  | cons hash hashes ih => exact ih (h.eraseOrphanTx hash).1

theorem mapM_returns {α β : Type} {f : α → Except Fault β} {l : List α}
    (h : ∀ a ∈ l, ∃ b, f a = .ok b) : ∃ bs, l.mapM f = .ok bs := by
  induction l with
  | nil => exact ⟨[], rfl⟩
  | cons a l ih =>
    obtain ⟨ha, hl⟩ := List.forall_mem_cons.1 h
    obtain ⟨b, hb⟩ := ha
    obtain ⟨bs, hbs⟩ := ih hl
    exact ⟨b :: bs, by rw [List.mapM_cons, hb, ok_bind, hbs]; rfl⟩

theorem Indexed.syncTransaction (h : Indexed env s) (tx : CTransaction) (nPosInBlock : ℤ) :
    ∃ s', s.syncTransaction env tx nPosInBlock = .ok s' ∧ Indexed env s' := by
  rw [OrphanPool.syncTransaction]
  split_ifs
  · exact ⟨s, rfl, h⟩
  · obtain ⟨hashes, hmapM⟩ := mapM_returns (l := tx.vin)
      (f := fun txin => s.orphanHashes env ((s.mapOrphanTransactionsByPrev txin.prevout).getD []))
      fun txin _ => mapM_returns fun it hit => by
        obtain ⟨orphan, hlook, _⟩ := (h.exact txin.prevout it).1 hit
        exact ⟨env.getHash orphan.tx, by rw [hlook]⟩
    rw [hmapM, ok_bind]
    exact ⟨_, rfl, h.eraseAll⟩

/-- After any sequence of calls the index lists for each outpoint exactly the stored orphans that
spend it, no assertion has failed, and a call of `LimitOrphanTxSize` leaves at most as many
orphans as it is asked to. -/
theorem run_indexed (env : OrphanEnv) (events : List OrphanEvent) :
    ∃ s, events.foldlM (step env) init = .ok s ∧ Indexed env s ∧
      ∀ nMaxOrphans nNow getRandHash, ∃ s' n,
        s.limitOrphanTxSize env nMaxOrphans nNow getRandHash = .ok (s', n) ∧
          s'.mapOrphanTransactions.length ≤ nMaxOrphans := by
  have hstep : ∀ s event, Indexed env s →
      Ends (fun _ => False) (Indexed env) (step env s event) := by
    intro s event h
    cases event with
    | addOrphanTx tx peer nTime =>
      obtain ⟨s', f, hcall, h'⟩ := h.addOrphanTx tx peer nTime
      rw [step, orStop_eq_ok.2 hcall]
      exact h'
    | eraseOrphanTx hash => exact (h.eraseOrphanTx hash).1
    | eraseOrphansFor peer =>
      obtain ⟨s', n, hcall, h'⟩ := h.eraseOrphansFor peer
      rw [step, hcall]
      exact h'
    | limitOrphanTxSize nMaxOrphans nNow getRandHash =>
      obtain ⟨s', n, hcall, h', _⟩ := h.limitOrphanTxSize nMaxOrphans nNow getRandHash
      rw [step, hcall]
      exact h'
    | syncTransaction tx nPosInBlock =>
      obtain ⟨s', hcall, h'⟩ := h.syncTransaction tx nPosInBlock
      rw [step, orStop_eq_ok.2 hcall]
      exact h'
  obtain ⟨s, hrun, h⟩ := (Ends.foldlM hstep indexed_init events).returns
  refine ⟨s, hrun, h, fun nMaxOrphans nNow getRandHash => ?_⟩
  obtain ⟨s', n, hcall, _, hlength⟩ := h.limitOrphanTxSize nMaxOrphans nNow getRandHash
  exact ⟨s', n, hcall, hlength⟩

end OrphanPool

end Coinyecoin
