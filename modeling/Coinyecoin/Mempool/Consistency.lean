import Coinyecoin.Mempool.Removal

/-!
# Removal keeps the books

A pool is consistent if its books are kept and the links are those that the
inputs give. What `RemoveStaged` leaves is consistent again when no chain of
dependencies between transactions that stay went through one that was removed:
so it is for a set with all its descendants, and for a transaction without
ancestors.
-/

namespace Coinyecoin

open Foundation Relation Finset

namespace CTxMemPool

def Spends (pool : CTxMemPool) (c p : uint256) : Prop :=
  p ∈ pool.mapTx ∧ ∃ entry, pool.mapTx.lookup c = some entry ∧
    ∃ txin ∈ entry.tx.vin, txin.prevout.hash = p

/-- The books are kept, and the links are those that the inputs give. -/
structure Consistent (env : PoolEnv) (pool : CTxMemPool) : Prop extends Bookkept env pool where
  linked_iff : ∀ c p, pool.Linked c p ↔ pool.Spends c p

namespace Removed

variable {env : PoolEnv} {pool after : CTxMemPool} {R : SetEntries}

section

variable (h : Removed env pool R after)
include h

theorem mem_iff (x : uint256) : x ∈ after.mapTx ↔ x ∈ pool.mapTx ∧ x ∉ R := by
  rw [← Finmap.lookup_isSome, ← Finmap.lookup_isSome, h.lookup_tx]
  by_cases hx : x ∈ R
  · simp [hx]
  · simp [hx]

theorem keys_eq : after.mapTx.keys = pool.mapTx.keys \ R := by
  ext x
  rw [mem_sdiff, Finmap.mem_keys, Finmap.mem_keys, h.mem_iff]

variable (c p : uint256)

theorem linked_iff : after.Linked c p ↔ pool.Linked c p ∧ c ∉ R ∧ p ∉ R := by
  rw [Linked, Linked, parentsOf, parentsOf, h.lookup_links]
  by_cases hc : c ∈ R
  · simp [hc, TxLinks.empty]
  · rw [if_neg hc]
    cases pool.mapLinks.lookup c with
    | none => simp [TxLinks.empty]
    | some links => simp [hc]

theorem child_iff : c ∈ after.childrenOf p ↔ c ∈ pool.childrenOf p ∧ c ∉ R ∧ p ∉ R := by
  rw [childrenOf, childrenOf, h.lookup_links]
  by_cases hp : p ∈ R
  · simp [hp, TxLinks.empty]
  · rw [if_neg hp]
    cases pool.mapLinks.lookup p with
    | none => simp [TxLinks.empty]
    | some links => simp [hp]

end

variable {x : uint256} {M : Type} {w : CTxMemPoolEntry → M}

section

variable (h : Removed env pool R after)
include h

theorem lookup_iff {entry : CTxMemPoolEntry} :
    after.mapTx.lookup x = some entry ↔ x ∉ R ∧ ∃ before, pool.mapTx.lookup x = some before ∧
      (before.setAncestors
        (∑ a ∈ pool.linkedAncestors x \ R, pool.weigh (·.ownCost env) a)).setDescendants
          (∑ y ∈ pool.linkedDescendants x \ R, pool.weigh (·.own env) y) = entry := by
  rw [h.lookup_tx]
  by_cases hx : x ∈ R
  · simp [hx]
  · simp [hx, Option.map_eq_some_iff]

section

variable (hw : ∀ entry above below, w ((entry.setAncestors above).setDescendants below) = w entry)
include hw

theorem weigh_eq [Zero M] (hx : x ∉ R) : after.weigh w x = pool.weigh w x := by
  rw [weigh, weigh, h.lookup_tx, if_neg hx]
  cases pool.mapTx.lookup x with
  | none => rfl
  | some entry => exact hw entry _ _

theorem sum_weigh [AddCommMonoid M]
    (S : SetEntries) : ∑ x ∈ S \ R, after.weigh w x = ∑ x ∈ S \ R, pool.weigh w x :=
  sum_congr rfl fun _ hx => h.weigh_eq hw (mem_sdiff.1 hx).2

end

theorem traceable (hpool : Traceable env pool) : Traceable env after where
  mem_links x := by
    rw [h.mem_iff, ← hpool.mem_links, ← Finmap.lookup_isSome, ← Finmap.lookup_isSome,
      h.lookup_links]
    by_cases hx : x ∈ R
    · simp [hx]
    · simp [hx]
  parent_mem c p hcp := by
    obtain ⟨hlinked, -, hp⟩ := (h.linked_iff c p).1 hcp
    exact (h.mem_iff p).2 ⟨hpool.parent_mem c p hlinked, hp⟩
  child_iff c p := by rw [h.child_iff, h.linked_iff, hpool.child_iff]
  entry_hash hx := by
    obtain ⟨-, before, hbefore, rfl⟩ := h.lookup_iff.1 hx
    have hhash := hpool.entry_hash hbefore
    exact hhash
  weighed x entry hx := by
    obtain ⟨-, before, hbefore, rfl⟩ := h.lookup_iff.1 hx
    exact hpool.weighed x before hbefore
  acyclic := hpool.acyclic.mono fun c p hcp => ((h.linked_iff c p).1 hcp).1

theorem next_iff (hpool : Bookkept env pool) (out : COutPoint)
    (tx : CTransaction) : after.mapNextTx.lookup out = some tx ↔
      ∃ x entry, after.mapTx.lookup x = some entry ∧ entry.tx = tx ∧
        ∃ txin ∈ tx.vin, txin.prevout = out := by
  rw [h.lookup_next]
  constructor
  · rintro ⟨hnext, hfree⟩
    obtain ⟨x, entry, hx, rfl, txin, htxin, hout⟩ := (hpool.next_iff out tx).1 hnext
    have hxR : x ∉ R := fun hxR => hfree x hxR entry hx txin htxin hout
    exact ⟨x, _, h.lookup_iff.2 ⟨hxR, entry, hx, rfl⟩, rfl, txin, htxin, hout⟩
  · rintro ⟨x, entry, hx, rfl, hin⟩
    obtain ⟨hxR, before, hbefore, rfl⟩ := h.lookup_iff.1 hx
    have hnext := (hpool.next_iff out before.tx).2 ⟨x, before, hbefore, rfl, hin⟩
    refine ⟨hnext, fun r hr other hother txin htxin hout => ?_⟩
    -- two spenders of one output are one transaction
    have hsame := (hpool.next_iff out other.tx).2 ⟨r, other, hother, rfl, txin, htxin, hout⟩
    rw [hnext, Option.some_inj] at hsame
    have hid : x = r := by
      rw [← hpool.entry_hash hbefore, ← hpool.entry_hash hother, hsame]
    exact hxR (hid ▸ hr)

theorem bookkept (hpool : Bookkept env pool)
    (hR : R ⊆ pool.mapTx.keys) (hdrops : Drops pool.Linked after.Linked R) :
    Bookkept env after where
  toTraceable := h.traceable hpool.toTraceable
  next_iff := h.next_iff hpool
  delta_eq hx := by
    obtain ⟨-, before, hbefore, rfl⟩ := h.lookup_iff.1 hx
    have hdelta := hpool.delta_eq hbefore
    rw [h.mapDeltas_eq]
    exact hdelta
  total_size := by
    rw [h.total_size, hpool.total_size, h.keys_eq, h.sum_weigh fun _ _ _ => rfl,
      ← sum_sdiff hR, add_sub_cancel_right]
  ancestors_eq {x entry} hx := by
    obtain ⟨hxR, before, hbefore, rfl⟩ := h.lookup_iff.1 hx
    have hset : after.linkedAncestors x = pool.linkedAncestors x \ R := by
      rw [linkedAncestors, h.keys_eq, hdrops.ancestry_eq hxR]
      rfl
    rw [hset, h.sum_weigh fun _ _ _ => rfl]
    rfl
  descendants_eq {x entry} hx := by
    obtain ⟨hxR, before, hbefore, rfl⟩ := h.lookup_iff.1 hx
    have hset : after.linkedDescendants x = pool.linkedDescendants x \ R := by
      rw [linkedDescendants, h.keys_eq, hdrops.progeny_eq hxR]
      rfl
    rw [hset, h.sum_weigh fun _ _ _ => rfl]
    rfl

theorem fits (hpool : Traceable env pool) (hfits : Fits env pool) : Fits env after := by
  have hsub : pool.mapTx.keys \ R ⊆ pool.mapTx.keys := sdiff_subset
  refine ⟨?_, fun x hx => ?_, ?_⟩
  · rw [h.keys_eq, h.sum_weigh fun _ _ _ => rfl]
    refine lt_of_le_of_lt (sum_le_sum_of_subset_of_nonneg hsub fun x hx _ => ?_)
      hfits.size_lt
    obtain ⟨entry, hentry⟩ := exists_lookup (Finmap.mem_keys.1 hx)
    rw [CTxMemPool.weigh_eq hentry]
    exact (virtualSize_pos (hpool.weighed x entry hentry)).le
  · rw [h.keys_eq, mem_sdiff] at hx
    rw [h.weigh_eq (fun _ _ _ => rfl) hx.2]
    exact hfits.cost_nonneg x hx.1
  · rw [h.keys_eq, h.sum_weigh fun _ _ _ => rfl]
    exact lt_of_le_of_lt (sum_le_sum_of_subset_of_nonneg hsub fun x hx _ =>
      hfits.cost_nonneg x hx) hfits.cost_lt

theorem spends_iff (c p : uint256) : after.Spends c p ↔ pool.Spends c p ∧ c ∉ R ∧ p ∉ R := by
  rw [Spends, Spends, h.mem_iff]
  constructor
  · rintro ⟨⟨hp, hpR⟩, entry, hentry, hin⟩
    obtain ⟨hcR, before, hbefore, rfl⟩ := h.lookup_iff.1 hentry
    exact ⟨⟨hp, before, hbefore, hin⟩, hcR, hpR⟩
  · rintro ⟨⟨hp, entry, hentry, hin⟩, hcR, hpR⟩
    exact ⟨⟨hp, hpR⟩, _, h.lookup_iff.2 ⟨hcR, entry, hentry, rfl⟩, hin⟩

theorem consistent (hpool : Consistent env pool)
    (hR : R ⊆ pool.mapTx.keys) (hdrops : Drops pool.Linked after.Linked R) :
    Consistent env after where
  toBookkept := h.bookkept hpool.toBookkept hR hdrops
  linked_iff c p := by rw [h.linked_iff, h.spends_iff, hpool.linked_iff]

end

end Removed

section

variable {env : PoolEnv} {pool : CTxMemPool}

theorem closed_of_mem_iff {start R : SetEntries}
    (hR : ∀ y, y ∈ R ↔ ∃ s ∈ start, ReflTransGen pool.Linked y s) {c p : uint256}
    (hcp : pool.Linked c p) (hp : p ∈ R) : c ∈ R := by
  obtain ⟨s, hs, hps⟩ := (hR p).1 hp
  exact (hR c).2 ⟨s, hs, .head hcp hps⟩

theorem calculateAllDescendants_returns (h : pool.LinksAgree) {start : SetEntries}
    (hstart : start ⊆ pool.mapTx.keys) :
    ∃ R, pool.calculateAllDescendants start = .ok R ∧
      ∀ y, y ∈ R ↔ ∃ s ∈ start, ReflTransGen pool.Linked y s := by
  refine forEach_returns byHash (fun done (R : SetEntries) =>
    ∀ y, y ∈ R ↔ ∃ s ∈ done, ReflTransGen pool.Linked y s)
    (fun done s R hs _ _ hR => ?_) (by simp)
  obtain ⟨R', hrun, hR'⟩ := calculateDescendants_spec h (Finmap.mem_keys.1 (hstart hs)) R
    fun _ _ => closed_of_mem_iff hR
  refine ⟨R', hrun, fun y => (hR' y).trans ?_⟩
  rw [hR, exists_mem_insert]
  exact or_comm

section

variable (hpool : Bookkept env pool)
include hpool

theorem removeStaged_closed (hfits : Fits env pool) {R : SetEntries}
    (hR : R ⊆ pool.mapTx.keys) (hclosed : ∀ c p, pool.Linked c p → p ∈ R → c ∈ R) :
    ∃ after, pool.removeStaged env R false = .ok after ∧ Removed env pool R after ∧
      Drops pool.Linked after.Linked R := by
  obtain ⟨after, hrun, hremoved⟩ := removeStaged_returns hpool hfits hR false
    fun _ x a hx hxa ha => hx (hxa.head_induction_on ha fun hcp _ ih => hclosed _ _ hcp ih)
  exact ⟨after, hrun, hremoved, .of_closed hremoved.linked_iff hclosed⟩

theorem removeStaged_root (hfits : Fits env pool) {x : uint256}
    (hx : x ∈ pool.mapTx) (hroot : ∀ p, ¬ pool.Linked x p) :
    ∃ after, pool.removeStaged env {x} true = .ok after ∧ Removed env pool {x} after ∧
      Drops pool.Linked after.Linked {x} := by
  have hsub : {x} ⊆ pool.mapTx.keys := by simpa using Finmap.mem_keys.2 hx
  obtain ⟨after, hrun, hremoved⟩ := removeStaged_returns hpool hfits hsub true nofun
  exact ⟨after, hrun, hremoved, .of_root hremoved.linked_iff hroot⟩

theorem recursiveStart_returns (origTx : CTransaction) :
    ∃ start, pool.recursiveStart env origTx = .ok start ∧ start ⊆ pool.mapTx.keys ∧
      ∀ s, s ∈ start ↔ if origTx.getHash env.hash ∈ pool.mapTx then s = origTx.getHash env.hash
        else ∃ i < origTx.vout.length, ∃ tx, tx.getHash env.hash = s ∧
          pool.mapNextTx.lookup ⟨origTx.getHash env.hash, UInt32.ofNat i⟩ = some tx := by
  have hrun : ∀ (l : List ℕ) (S : SetEntries), S ⊆ pool.mapTx.keys →
      ∃ start, l.foldlM (pool.stageSpender env (origTx.getHash env.hash)) S = .ok start ∧
        start ⊆ pool.mapTx.keys ∧ ∀ s, s ∈ start ↔ s ∈ S ∨ ∃ i ∈ l, ∃ tx,
          tx.getHash env.hash = s ∧
            pool.mapNextTx.lookup ⟨origTx.getHash env.hash, UInt32.ofNat i⟩ = some tx := by
    intro l
    induction l with
    | nil => exact fun S hS => ⟨S, rfl, hS, by simp⟩
    | cons i l ih =>
      intro S hS
      rw [List.foldlM_cons, stageSpender]
      cases hnext : pool.mapNextTx.lookup ⟨origTx.getHash env.hash, UInt32.ofNat i⟩ with
      | none =>
        obtain ⟨start, hstart, hsub, hiff⟩ := ih S hS
        exact ⟨start, hstart, hsub, fun s => by simp [hiff, hnext]⟩
      | some tx =>
        -- a spender is in the pool
        obtain ⟨x, entry, hx, rfl, -⟩ := (hpool.next_iff _ tx).1 hnext
        have hmem : entry.tx.getHash env.hash ∈ pool.mapTx := by
          rw [hpool.entry_hash hx]
          exact mem_of_lookup hx
        obtain ⟨start, hstart, hsub, hiff⟩ := ih (insert (entry.tx.getHash env.hash) S)
          (insert_subset (Finmap.mem_keys.2 hmem) hS)
        refine ⟨start, ?_, hsub, fun s => ?_⟩
        · simp only [assertThat_of_true hmem, ok_bind]
          exact hstart
        · simp only [hiff, mem_insert, List.exists_mem_cons_iff, hnext,
            Option.some.injEq, exists_eq_right', or_left_comm, or_assoc,
            eq_comm (b := entry.tx.getHash env.hash)]
  rw [recursiveStart]
  split_ifs with hmem
  · exact ⟨_, rfl, by simpa using Finmap.mem_keys.2 hmem, by simp⟩
  · obtain ⟨start, hstart, hsub, hiff⟩ := hrun (List.range origTx.vout.length) ∅
      (empty_subset _)
    exact ⟨start, hstart, hsub, fun s => by simp [hiff]⟩

theorem removeRecursive_returns (hfits : Fits env pool) (origTx : CTransaction) :
    ∃ start R after, pool.recursiveStart env origTx = .ok start ∧
      (∀ y, y ∈ R ↔ ∃ s ∈ start, ReflTransGen pool.Linked y s) ∧ R ⊆ pool.mapTx.keys ∧
      pool.removeRecursive env origTx = .ok after ∧ Removed env pool R after ∧
      Drops pool.Linked after.Linked R := by
  obtain ⟨start, hstart, hsub, -⟩ := recursiveStart_returns hpool origTx
  obtain ⟨R, hR, hiff⟩ := calculateAllDescendants_returns hpool.toLinksAgree hsub
  have hRsub : R ⊆ pool.mapTx.keys := by
    intro y hy
    obtain ⟨s, hs, hys⟩ := (hiff y).1 hy
    exact Finmap.mem_keys.2 (hpool.mem_of_reach_left (Finmap.mem_keys.1 (hsub hs)) hys)
  obtain ⟨after, hrun, hremoved, hdrops⟩ := removeStaged_closed hpool hfits hRsub
    fun _ _ => closed_of_mem_iff hiff
  refine ⟨start, R, after, hstart, hiff, hRsub, ?_, hremoved, hdrops⟩
  rw [removeRecursive, hstart, ok_bind, hR, ok_bind, hrun]

end

end

end CTxMemPool

end Coinyecoin
