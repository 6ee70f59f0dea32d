import Coinyecoin.Foundation.Runs
import Coinyecoin.Mempool.Runs
import Coinyecoin.Validation.Contextual

/-!
# The witness hashes of the pool

Next to its maps the pool keeps `vTxHashes`, the witness hash of every entry
with an iterator to it, in no particular order, and every entry knows where it
stands there. Compact blocks are filled by going through this vector and
following the iterators. Removing an entry moves the last element into its
place; `clear` leaves the vector as it is.
-/

namespace Coinyecoin

open Foundation List Option Function Finmap

variable {x : uint256}

structure HashedPool where
  pool : CTxMemPool
  vTxHashes : List (uint256 × uint256)
  vTxHashesIdx : uint256 → ℕ

namespace CTxMemPool

/-- `clear`; the fee deltas stay. -/
def clear (pool : CTxMemPool) : CTxMemPool :=
  { pool with mapLinks := ∅, mapTx := ∅, mapNextTx := ∅, totalTxSize := 0 }

def txOf (pool : CTxMemPool) (x : uint256) : Option CTransaction :=
  (pool.mapTx.lookup x).map (·.tx)

variable {env : PoolEnv} {pool pool' : CTxMemPool}

theorem mem_mapTx_iff : x ∈ pool.mapTx ↔ ∃ tx, pool.txOf x = some tx := by
  constructor
  · intro hx
    obtain ⟨entry, hentry⟩ := exists_lookup hx
    exact ⟨entry.tx, by rw [txOf, hentry]; rfl⟩
  · rintro ⟨tx, htx⟩
    obtain ⟨entry, hentry, -⟩ := map_eq_some_iff.1 htx
    exact mem_of_lookup hentry

theorem mem_of_deref {entry : CTxMemPoolEntry} (h : pool.deref x = .ok entry) : x ∈ pool.mapTx := by
  rw [deref] at h
  split at h
  · cases h
  · exact mem_of_lookup ‹_›

section

variable {it : uint256} {modifySize modifyFee modifyCount : Int64} {entry after : CTxMemPoolEntry}
  {newit hash : uint256} {A : SetEntries}

theorem txOf_modify {f : CTxMemPoolEntry → Except Fault CTxMemPoolEntry}
    (hf : ∀ entry after, f entry = .ok after → after.tx = entry.tx)
    (h : pool.modify it f = .ok pool') : pool'.txOf = pool.txOf := by
  obtain ⟨entry, hentry, h⟩ := bind_eq_ok.1 h
  obtain ⟨after, hafter, h⟩ := bind_eq_ok.1 h
  cases h
  have hlookup : pool.mapTx.lookup it = some entry := by
    rw [deref] at hentry
    split at hentry
    · cases hentry
    · cases hentry
      assumption
  funext x
  rw [txOf, txOf]
  by_cases hx : x = it
  · subst hx
    rw [lookup_insert, hlookup, map_some, map_some, hf entry after hafter]
  · rw [lookup_insert_of_ne _ hx]

theorem tx_updateDescendantState
    (h : entry.updateDescendantState modifySize modifyFee modifyCount = .ok after) :
    after.tx = entry.tx := by
  obtain ⟨_, -, h⟩ := bind_eq_ok.1 h
  obtain ⟨_, -, h⟩ := bind_eq_ok.1 h
  cases h
  rfl

theorem tx_updateAncestorState {modifySigOps : Int32}
    (h : entry.updateAncestorState modifySize modifyFee modifyCount modifySigOps = .ok after) :
    after.tx = entry.tx := by
  obtain ⟨_, -, h⟩ := bind_eq_ok.1 h
  obtain ⟨_, -, h⟩ := bind_eq_ok.1 h
  obtain ⟨_, -, h⟩ := bind_eq_ok.1 h
  cases h
  rfl

theorem txOf_forEach {s : SetEntries} {body : CTxMemPool → uint256 → Except Fault CTxMemPool}
    (hbody : ∀ p a p', body p a = .ok p' → p'.txOf = p.txOf)
    (h : forEach byHash s body pool = .ok pool') : pool'.txOf = pool.txOf := by
  refine foldlM_keeps (P := fun p => p.txOf = pool.txOf) (fun p a p' _ hp hrun => ?_) rfl h
  rw [hbody p a p' hrun, hp]

theorem txOf_applyDelta (h : pool.applyDelta newit hash = .ok pool') : pool'.txOf = pool.txOf := by
  rw [applyDelta] at h
  split at h
  · cases h
    rfl
  · split_ifs at h
    · refine txOf_modify (fun entry after hafter => ?_) h
      cases hafter
      rfl
    · cases h
      rfl

theorem txOf_linkInputs {tx : CTransaction}
    (h : pool.linkInputs newit tx = .ok pool') : pool'.txOf = pool.txOf := by
  refine (txOf_forEach (fun p a p' hrun => ?_) h).trans rfl
  cases hrun
  split_ifs <;> rfl

theorem txOf_updateAncestorsOf {add : Bool}
    (h : pool.updateAncestorsOf env add it A = .ok pool') : pool'.txOf = pool.txOf := by
  obtain ⟨parents, -, h⟩ := bind_eq_ok.1 h
  obtain ⟨linked, hlinked, h⟩ := bind_eq_ok.1 h
  obtain ⟨entry, -, h⟩ := bind_eq_ok.1 h
  have hfirst : linked.txOf = pool.txOf := by
    refine txOf_forEach (fun p a p' hrun => ?_) hlinked
    cases hrun
    rfl
  rw [← hfirst]
  exact txOf_forEach (fun p a p' => txOf_modify fun _ _ => tx_updateDescendantState) h

theorem txOf_updateEntryForAncestors
    (h : pool.updateEntryForAncestors env it A = .ok pool') : pool'.txOf = pool.txOf := by
  obtain ⟨sums, -, h⟩ := bind_eq_ok.1 h
  exact txOf_modify (fun _ _ => tx_updateAncestorState) h

theorem txOf_insertEntry (newit : uint256) {entry : CTxMemPoolEntry} (x : uint256) :
    (pool.insertEntry newit entry).txOf x =
      if x = newit ∧ newit ∉ pool.mapTx then some entry.tx else pool.txOf x := by
  rw [txOf, insertEntry, insertNew]
  by_cases hmem : newit ∈ pool.mapTx
  · rw [if_pos hmem, if_neg (fun h => h.2 hmem), txOf]
  · rw [if_neg hmem]
    by_cases hx : x = newit
    · subst hx
      rw [if_pos ⟨rfl, hmem⟩, lookup_insert, map_some]
    · rw [if_neg (fun h => hx h.1), lookup_insert_of_ne _ hx, txOf]

theorem txOf_addUnchecked (h : pool.addUnchecked env hash entry A = .ok pool') (x : uint256) :
    pool'.txOf x =
      if x = entry.tx.getHash env.hash ∧ entry.tx.getHash env.hash ∉ pool.mapTx
      then some entry.tx else pool.txOf x := by
  obtain ⟨withDelta, hdelta, h⟩ := bind_eq_ok.1 h
  obtain ⟨newEntry, -, h⟩ := bind_eq_ok.1 h
  obtain ⟨linked, hlinked, h⟩ := bind_eq_ok.1 h
  obtain ⟨counted, hcounted, h⟩ := bind_eq_ok.1 h
  obtain ⟨summed, hsummed, h⟩ := bind_eq_ok.1 h
  cases h
  have hkeep : summed.txOf = (pool.insertEntry (entry.tx.getHash env.hash) entry).txOf := by
    rw [txOf_updateEntryForAncestors hsummed, txOf_updateAncestorsOf hcounted,
      txOf_linkInputs hlinked, txOf_applyDelta hdelta]
  exact (congrFun hkeep x).trans (txOf_insertEntry _ x)

theorem txOf_removeUnchecked (h : pool.removeUnchecked env it = .ok pool')
    (x : uint256) : pool'.txOf x = if x = it then none else pool.txOf x := by
  obtain ⟨entry, -, h⟩ := bind_eq_ok.1 h
  cases h
  rw [txOf, txOf]
  by_cases hx : x = it
  · subst hx
    rw [if_pos rfl, lookup_erase]
    rfl
  · rw [if_neg hx, lookup_erase_ne hx]

end

end CTxMemPool

inductive PoolCall where
  | add (hash : uint256) (entry : CTxMemPoolEntry) (setAncestors : SetEntries)
  | remove (it : uint256)
  | clear

namespace HashedPool

open CTxMemPool

def init : HashedPool := ⟨CTxMemPool.init, [], fun _ => 0⟩

variable (env : PoolEnv)

def addUnchecked (s : HashedPool) (hash : uint256) (entry : CTxMemPoolEntry)
    (setAncestors : SetEntries) : Except Fault HashedPool := do
  let pool ← s.pool.addUnchecked env hash entry setAncestors
  let newit := entry.tx.getHash env.hash
  let newEntry ← pool.deref newit
  return {
    pool := pool
    vTxHashes := s.vTxHashes ++ [(newEntry.tx.getWitnessHash env.hash, newit)]
    vTxHashesIdx := Function.update s.vTxHashesIdx newit s.vTxHashes.length }

/-- The part of `removeUnchecked` about `vTxHashes`: the last element moves to the place of `it`,
and the entry that it refers to is told so. -/
def moveBack (s : HashedPool) (it : uint256) : Except Fault HashedPool :=
  if 1 < s.vTxHashes.length then
    match s.vTxHashes.getLast? with
    | none => .error .indexOutOfRange
    | some back =>
      if s.vTxHashesIdx it < s.vTxHashes.length then do
        let _ ← s.pool.deref back.2
        return { s with
          vTxHashes := (s.vTxHashes.set (s.vTxHashesIdx it) back).dropLast
          vTxHashesIdx := Function.update s.vTxHashesIdx back.2 (s.vTxHashesIdx it) }
      else .error .indexOutOfRange
  else .ok { s with vTxHashes := [] }

def removeUnchecked (s : HashedPool) (it : uint256) : Except Fault HashedPool := do
  let _ ← s.pool.deref it
  let s ← s.moveBack it
  let pool ← s.pool.removeUnchecked env it
  return { s with pool := pool }

def clear (s : HashedPool) : HashedPool := { s with pool := s.pool.clear }

def call (s : HashedPool) : PoolCall → Except Fault HashedPool
  | .add hash entry setAncestors => s.addUnchecked env hash entry setAncestors
  | .remove it => s.removeUnchecked env it
  | .clear => .ok s.clear

/-- Every entry has its element at its index, and every element belongs to an entry of the pool
that stands there. -/
structure Indexed (s : HashedPool) : Prop where
  at_index : ∀ x tx, s.pool.txOf x = some tx →
    s.vTxHashes[s.vTxHashesIdx x]? = some (tx.getWitnessHash env.hash, x)
  refers : ∀ i elem, s.vTxHashes[i]? = some elem →
    elem.2 ∈ s.pool.mapTx ∧ s.vTxHashesIdx elem.2 = i

/-- What a call must meet: a transaction is added once only, and only an empty pool is cleared. -/
def KeepsIndex (s : HashedPool) : PoolCall → Prop
  | .add hash entry setAncestors =>
    (∃ s', s.addUnchecked env hash entry setAncestors = .ok s') →
      entry.tx.getHash env.hash ∉ s.pool.mapTx
  | .remove _ => True
  | .clear => s.pool.mapTx = ∅

variable {env} {s s' : HashedPool}

theorem indexed_init : Indexed env init where
  at_index x tx htx := by
    rw [init, txOf, CTxMemPool.init, Finmap.lookup_empty] at htx
    cases htx
  refers i elem helem := by
    rw [init, getElem?_nil] at helem
    cases helem

theorem Indexed.length_eq (h : Indexed env s) : s.vTxHashes.length = s.pool.mapTx.keys.card := by
  have hset : s.pool.mapTx.keys = (s.vTxHashes.map Prod.snd).toFinset := by
    ext x
    rw [Finmap.mem_keys, List.mem_toFinset, List.mem_map]
    constructor
    · intro hx
      obtain ⟨tx, htx⟩ := mem_mapTx_iff.1 hx
      exact ⟨_, mem_of_getElem? (h.at_index x tx htx), rfl⟩
    · rintro ⟨elem, helem, rfl⟩
      obtain ⟨i, hi⟩ := getElem?_of_mem helem
      exact (h.refers i elem hi).1
  have hnodup : (s.vTxHashes.map Prod.snd).Nodup := by
    rw [nodup_iff_getElem?_ne_getElem?]
    intro i j hij hj heq
    rw [length_map] at hj
    rw [getElem?_map, getElem?_map, getElem?_eq_getElem hj,
      getElem?_eq_getElem (hij.trans hj), map_some, map_some,
      some_inj] at heq
    have hi := (h.refers i _ (getElem?_eq_getElem (hij.trans hj))).2
    rw [heq, (h.refers j _ (getElem?_eq_getElem hj)).2] at hi
    exact hij.ne hi.symm
  rw [hset, toFinset_card_of_nodup hnodup, length_map]

theorem indexed_add_iff (h : Indexed env s) {hash : uint256} {entry : CTxMemPoolEntry}
    {A : SetEntries} (hadd : s.addUnchecked env hash entry A = .ok s') :
    Indexed env s' ↔ entry.tx.getHash env.hash ∉ s.pool.mapTx := by
  obtain ⟨pool, hpool, hadd⟩ := bind_eq_ok.1 hadd
  obtain ⟨newEntry, hnewEntry, hadd⟩ := bind_eq_ok.1 hadd
  cases hadd
  have htxOf := txOf_addUnchecked hpool
  constructor
  · -- the element that is there keeps a place which the entry no longer knows
    intro hindexed hmem
    obtain ⟨tx, htx⟩ := mem_mapTx_iff.1 hmem
    have hold := h.at_index _ tx htx
    obtain ⟨hlt, -⟩ := List.getElem?_eq_some_iff.1 hold
    have hnew := (hindexed.refers (s.vTxHashesIdx (entry.tx.getHash env.hash)) _
      ((getElem?_append_left hlt).trans hold)).2
    dsimp only at hnew
    rw [update_self] at hnew
    exact hlt.ne hnew.symm
  · intro hfresh
    have hself : pool.txOf (entry.tx.getHash env.hash) = some entry.tx := by
      rw [htxOf, if_pos ⟨rfl, hfresh⟩]
    have hother : ∀ x, x ≠ entry.tx.getHash env.hash → pool.txOf x = s.pool.txOf x :=
      fun x hx => by rw [htxOf, if_neg (fun hboth => hx hboth.1)]
    have hnewTx : newEntry.tx = entry.tx := by
      rw [txOf] at hself
      rw [deref] at hnewEntry
      split at hnewEntry
      · cases hnewEntry
      · rename_i found hfound
        cases hnewEntry
        rw [hfound, map_some] at hself
        exact some_inj.1 hself
    refine ⟨fun x tx htx => ?_, fun i elem helem => ?_⟩
    · by_cases hx : x = entry.tx.getHash env.hash
      · subst hx
        rw [hself, some_inj] at htx
        subst htx
        dsimp only
        rw [update_self, getElem?_concat_length, hnewTx]
      · rw [hother x hx] at htx
        have hold := h.at_index x tx htx
        obtain ⟨hlt, -⟩ := List.getElem?_eq_some_iff.1 hold
        dsimp only
        rw [update_of_ne hx, getElem?_append_left hlt, hold]
    · rcases lt_or_ge i s.vTxHashes.length with hlt | hge
      · rw [getElem?_append_left hlt] at helem
        obtain ⟨hmem, hidx⟩ := h.refers i elem helem
        have hne : elem.2 ≠ entry.tx.getHash env.hash := fun heq => hfresh (heq ▸ hmem)
        obtain ⟨tx, htx⟩ := mem_mapTx_iff.1 hmem
        refine ⟨mem_mapTx_iff.2 ⟨tx, (hother _ hne).trans htx⟩, ?_⟩
        dsimp only
        rw [update_of_ne hne, hidx]
      · rw [getElem?_append_right hge, getElem?_singleton] at helem
        split_ifs at helem with hzero
        cases helem
        refine ⟨mem_mapTx_iff.2 ⟨entry.tx, hself⟩, ?_⟩
        dsimp only
        rw [update_self]
        omega

theorem Indexed.idx_ne (h : Indexed env s) {x y : uint256} (hx : x ∈ s.pool.mapTx)
    (hy : y ∈ s.pool.mapTx) (hxy : x ≠ y) : s.vTxHashesIdx x ≠ s.vTxHashesIdx y := by
  intro hidx
  obtain ⟨tx, htx⟩ := mem_mapTx_iff.1 hx
  obtain ⟨ty, hty⟩ := mem_mapTx_iff.1 hy
  have hboth := h.at_index x tx htx
  rw [hidx, h.at_index y ty hty, some_inj] at hboth
  exact hxy (congrArg Prod.snd hboth).symm

theorem Indexed.idx_lt (h : Indexed env s) (hx : x ∈ s.pool.mapTx) :
    s.vTxHashesIdx x < s.vTxHashes.length := by
  obtain ⟨tx, htx⟩ := mem_mapTx_iff.1 hx
  exact (List.getElem?_eq_some_iff.1 (h.at_index x tx htx)).1

structure MovedBack (s : HashedPool) (it : uint256) (moved : HashedPool) : Prop where
  pool_eq : moved.pool = s.pool
  kept : ∀ x ∈ s.pool.mapTx, x ≠ it →
    moved.vTxHashes[moved.vTxHashesIdx x]? = s.vTxHashes[s.vTxHashesIdx x]?
  filled : ∀ i elem, moved.vTxHashes[i]? = some elem →
    elem.2 ∈ s.pool.mapTx ∧ elem.2 ≠ it ∧ moved.vTxHashesIdx elem.2 = i

theorem moveBack_spec (h : Indexed env s) {it : uint256} (hit : it ∈ s.pool.mapTx)
    (hmoved : s.moveBack it = .ok s') : MovedBack s it s' := by
  have hk := h.idx_lt hit
  rw [moveBack] at hmoved
  split_ifs at hmoved with hlen
  · -- at least two elements: the last one is that of `b`, which may be `it`
    obtain ⟨back, hback⟩ : ∃ back, s.vTxHashes[s.vTxHashes.length - 1]? = some back :=
      ⟨_, getElem?_eq_getElem (by omega)⟩
    obtain ⟨hb, hidxb⟩ := h.refers _ _ hback
    rw [getLast?_eq_getElem?, hback] at hmoved
    dsimp only at hmoved
    obtain ⟨entry, -, hmoved⟩ := bind_eq_ok.1 hmoved
    cases hmoved
    refine ⟨rfl, fun x hx hne => ?_, fun i elem helem => ?_⟩
    · dsimp only
      have hlt := h.idx_lt hx
      have hk' := h.idx_ne hx hit hne
      by_cases hxb : x = back.2
      · subst hxb
        rw [update_self, getElem?_dropLast, length_set,
          if_pos (by omega), getElem?_set_self hk, hidxb, hback]
      · have hlast := h.idx_ne hx hb hxb
        rw [update_of_ne hxb, getElem?_dropLast, length_set,
          if_pos (by omega), getElem?_set_ne (fun heq => hk' heq.symm)]
    · dsimp only at helem ⊢
      rw [getElem?_dropLast, length_set] at helem
      split_ifs at helem with hi
      by_cases hik : s.vTxHashesIdx it = i
      · rw [← hik, getElem?_set_self hk] at helem
        cases helem
        refine ⟨hb, fun heq => ?_, ?_⟩
        · rw [heq] at hidxb
          omega
        · rw [update_self, hik]
      · rw [getElem?_set_ne hik] at helem
        obtain ⟨hmem, hidx⟩ := h.refers i elem helem
        refine ⟨hmem, fun heq => hik (heq ▸ hidx), ?_⟩
        have hne : elem.2 ≠ back.2 := by
          intro heq
          rw [heq] at hidx
          omega
        rw [update_of_ne hne, hidx]
  · -- `it` is the only entry
    cases hmoved
    refine ⟨rfl, fun x hx hne => ?_, fun i elem helem => ?_⟩
    · have hlt := h.idx_lt hx
      have hk' := h.idx_ne hx hit hne
      omega
    · rw [getElem?_nil] at helem
      cases helem

theorem indexed_remove (h : Indexed env s) {it : uint256}
    (hremove : s.removeUnchecked env it = .ok s') : Indexed env s' := by
  obtain ⟨entry, hentry, hremove⟩ := bind_eq_ok.1 hremove
  obtain ⟨moved, hmoved, hremove⟩ := bind_eq_ok.1 hremove
  obtain ⟨pool, hpool, hremove⟩ := bind_eq_ok.1 hremove
  cases hremove
  have hmove := moveBack_spec h (mem_of_deref hentry) hmoved
  rw [hmove.pool_eq] at hpool
  have htxOf := txOf_removeUnchecked hpool
  refine ⟨fun x tx htx => ?_, fun i elem helem => ?_⟩
  · rw [htxOf] at htx
    split_ifs at htx with hx
    rw [← h.at_index x tx htx]
    exact hmove.kept x (mem_mapTx_iff.2 ⟨tx, htx⟩) hx
  · obtain ⟨hmem, hne, hidx⟩ := hmove.filled i elem helem
    obtain ⟨tx, htx⟩ := mem_mapTx_iff.1 hmem
    refine ⟨mem_mapTx_iff.2 ⟨tx, ?_⟩, hidx⟩
    rw [htxOf, if_neg hne, htx]

theorem indexed_clear_iff (h : Indexed env s) : Indexed env s.clear ↔ s.pool.mapTx = ∅ := by
  constructor
  · intro hclear
    have hempty : s.vTxHashes.length = 0 := hclear.length_eq
    rw [h.length_eq, Finset.card_eq_zero] at hempty
    refine ext_lookup fun x => ?_
    rw [Finmap.lookup_empty, Finmap.lookup_eq_none, ← Finmap.mem_keys, hempty]
    exact Finset.notMem_empty x
  · intro hempty
    refine ⟨fun x tx htx => ?_, fun i elem helem => ?_⟩
    · cases htx
    · have hmem := (h.refers i elem helem).1
      rw [hempty] at hmem
      exact absurd hmem notMem_empty

/-- The index is right in all states of a run exactly if no call adds a transaction that is in the
pool and no call clears a pool that has entries. -/
theorem indexed_run_iff (calls : List PoolCall) :
    (∀ done, done <+: calls → ∀ s, done.foldlM (call env) init = .ok s →
        Indexed env s ∧ s.vTxHashes.length = s.pool.mapTx.keys.card) ↔
      AllMeetM (call env) (KeepsIndex env) init calls := by
  have hstep : ∀ s c s', Indexed env s → call env s c = .ok s' →
      (Indexed env s' ↔ KeepsIndex env s c) := by
    intro s c s' h hcall
    cases c with
    | add hash entry A =>
      rw [indexed_add_iff h hcall]
      exact ⟨fun hfresh _ => hfresh, fun hkeeps => hkeeps ⟨s', hcall⟩⟩
    | remove it => exact iff_of_true (indexed_remove h hcall) trivial
    | clear =>
      cases hcall
      exact indexed_clear_iff h
  have hfail : ∀ s c err, Indexed env s → call env s c = .error err → KeepsIndex env s c := by
    intro s c err _ hcall
    cases c with
    | add hash entry A =>
      rintro ⟨s', hrun⟩
      rw [call, hrun] at hcall
      cases hcall
    | remove it => trivial
    | clear => cases hcall
  rw [← forall_prefix_iff_allMeetM hstep hfail indexed_init]
  refine forall_congr' fun done => forall_congr' fun _ => forall_congr' fun s => ?_
  exact forall_congr' fun _ => ⟨fun h => h.1, fun h => ⟨h, h.length_eq⟩⟩

def addThenClear : List PoolCall :=
  [.add (CTxMemPool.parentTx.getHash sampleEnv.hash)
    (.create sampleEnv CTxMemPool.parentTx 5 4) ∅, .clear]

/-- One element is left, and what it refers to is gone. -/
theorem stale_after_clear : ∃ s, addThenClear.foldlM (call sampleEnv) init = .ok s ∧
    s.vTxHashes.map Prod.snd = [CTxMemPool.parentTx.getHash sampleEnv.hash] ∧
    CTxMemPool.parentTx.getHash sampleEnv.hash ∉ s.pool.mapTx ∧ ¬ Indexed sampleEnv s := by
  obtain ⟨s, hs⟩ : ∃ s, (addThenClear.foldlM (call sampleEnv) init).toOption = some s :=
    isSome_iff_exists.1 (by decide +kernel)
  have hstate : s = (addThenClear.foldlM (call sampleEnv) init).toOption.getD init := by
    rw [hs]
    rfl
  have hleft : s.vTxHashes.map Prod.snd = [CTxMemPool.parentTx.getHash sampleEnv.hash] := by
    rw [hstate]
    decide +kernel
  have hgone : CTxMemPool.parentTx.getHash sampleEnv.hash ∉ s.pool.mapTx := by
    rw [hstate]
    decide +kernel
  refine ⟨s, Foundation.eq_ok_of_toOption hs, hleft, hgone, fun hindexed => hgone ?_⟩
  obtain ⟨elem, helem, hsnd⟩ := List.mem_map.1 (hleft ▸ mem_singleton_self _ :
    CTxMemPool.parentTx.getHash sampleEnv.hash ∈ s.vTxHashes.map Prod.snd)
  obtain ⟨i, hi⟩ := getElem?_of_mem helem
  rw [← hsnd]
  exact (hindexed.refers i elem hi).1

end HashedPool

end Coinyecoin
