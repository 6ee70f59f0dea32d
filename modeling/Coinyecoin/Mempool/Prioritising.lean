import Coinyecoin.Mempool.Adding

/-!
# Changing the fee of a transaction

`PrioritiseTransaction` changes the modified fee of an entry, and with it the
totals above and below. The counts, the sizes and the costs stay, so that no
assert is in the way.
-/

namespace Coinyecoin

open Foundation Relation Option Finmap CTxMemPoolEntry

namespace CTxMemPool

section

variable {env : PoolEnv} {pool : CTxMemPool}

def feeChange (nFeeDelta : Int64) : Totals := (0, 0, nFeeDelta)

variable {nFeeDelta : Int64}

theorem positive_add_feeChange {totals : Totals} (h : totals.Positive) :
    Totals.Positive (totals + feeChange nFeeDelta) := by
  obtain ⟨hcount, hsize⟩ := h
  constructor
  · change 0 < (totals.1 + 0).toInt64
    rwa [add_zero]
  · change 0 < (totals.2.1 + 0).toInt64
    rwa [add_zero]

theorem costPositive_add_feeChange {totals : Totals × Int64} (h : CostPositive totals) :
    CostPositive (totals + (feeChange nFeeDelta, 0)) := by
  refine ⟨positive_add_feeChange h.1, ?_⟩
  change 0 ≤ (totals.2 + 0).toInt32
  rw [add_zero]
  exact h.2

section

variable (entry : CTxMemPoolEntry) (nFeeDelta : Int64)

theorem own_updateFeeDelta : (entry.updateFeeDelta (entry.feeDelta + nFeeDelta)).own env =
    entry.own env + feeChange nFeeDelta := by
  simp only [own, updateFeeDelta, getTxSize, virtualSize, getModifiedFee, feeChange, Prod.mk_add_mk,
    add_zero, add_assoc]

theorem withDescendants_updateFeeDelta :
    (entry.updateFeeDelta (entry.feeDelta + nFeeDelta)).withDescendants =
      entry.withDescendants + feeChange nFeeDelta := by
  have hgrow : entry.feeDelta + nFeeDelta - entry.feeDelta = nFeeDelta := add_sub_cancel_left _ _
  simp only [withDescendants, updateFeeDelta, feeChange, Prod.mk_add_mk, add_zero, hgrow]

theorem withAncestors_updateFeeDelta :
    (entry.updateFeeDelta (entry.feeDelta + nFeeDelta)).withAncestors =
      entry.withAncestors + (feeChange nFeeDelta, 0) := by
  have hgrow : entry.feeDelta + nFeeDelta - entry.feeDelta = nFeeDelta := add_sub_cancel_left _ _
  simp only [withAncestors, updateFeeDelta, feeChange, Prod.mk_add_mk, add_zero, hgrow]

end

structure Prioritised (pool : CTxMemPool) (n : uint256) (nFeeDelta : Int64)
    (A D : SetEntries) (after : CTxMemPool) : Prop where
  rest : after = { pool with
    mapTx := after.mapTx
    mapDeltas := pool.mapDeltas.insert n ((pool.mapDeltas.lookup n).getD 0 + nFeeDelta) }
  lookup_tx : ∀ x, after.mapTx.lookup x = (pool.mapTx.lookup x).map fun entry =>
    if x = n then entry.updateFeeDelta (entry.feeDelta + nFeeDelta)
    else if x ∈ A then entry.setDescendants (entry.withDescendants + feeChange nFeeDelta)
    else if x ∈ D then entry.setAncestors (entry.withAncestors + (feeChange nFeeDelta, 0))
    else entry

theorem prioritiseTransaction_returns (hpool : Bookkept env pool) (hfits : Fits env pool)
    {n : uint256} (hn : n ∈ pool.mapTx) (nFeeDelta : Int64) :
    ∃ A D after, (∀ y, y ∈ A ↔ TransGen pool.Linked n y) ∧
      (∀ y, y ∈ D ↔ TransGen pool.Linked y n) ∧
      pool.prioritiseTransaction env n nFeeDelta = .ok after ∧
      Prioritised pool n nFeeDelta A D after := by
  obtain ⟨entry, hentry⟩ := exists_lookup hn
  let mapDeltas := pool.mapDeltas.insert n ((pool.mapDeltas.lookup n).getD 0 + nFeeDelta)
  let entry' := entry.updateFeeDelta (entry.feeDelta + nFeeDelta)
  let p₁ : CTxMemPool := { pool with mapTx := pool.mapTx.insert n entry', mapDeltas := mapDeltas }
  have htx₁ : ∀ x, p₁.mapTx.lookup x = (pool.mapTx.lookup x).map fun e =>
      if x = n then e.updateFeeDelta (e.feeDelta + nFeeDelta) else e := by
    intro x
    by_cases hx : x = n
    · subst hx
      simp [p₁, entry', hentry]
    · simp [p₁, lookup_insert_of_ne _ hx, hx]
  have hlinks₁ : p₁.LinksAgree :=
    ⟨⟨fun x => (hpool.mem_links x).trans (mem_map htx₁ x).symm,
      fun c p hcp => (mem_map htx₁ p).2 (hpool.parent_mem c p hcp)⟩, hpool.child_iff⟩
  have hentry₁ : p₁.mapTx.lookup n = some entry' := lookup_insert _
  have hhash : entry'.tx.getHash env.hash = n := by
    have hhash := hpool.entry_hash hentry
    exact hhash
  obtain ⟨A, hA, hAmem⟩ := calculateMemPoolAncestors_noLimit hlinks₁.toParentsLinked hentry₁ hhash
  have hAne : ∀ y ∈ A, y ≠ n := by
    rintro y hy rfl
    exact hpool.acyclic y ((hAmem y).1 hy)
  obtain ⟨mapTx₂, hrun₂, htx₂⟩ := forEach_modify p₁ A
    (updateDescendantState 0 nFeeDelta 0)
    (fun _ e => e.setDescendants (e.withDescendants + feeChange nFeeDelta))
    (fun y hy => hlinks₁.mem_of_reach (mem_of_lookup hentry₁) ((hAmem y).1 hy).to_reflTransGen)
    (fun y e hy he => by
      rw [htx₁, map_eq_some_iff] at he
      obtain ⟨other, hother, rfl⟩ := he
      rw [if_neg (hAne y hy)]
      refine updateDescendantState_eq rfl (positive_add_feeChange ?_)
      rw [hpool.descendants_eq hother]
      exact hfits.positive hpool.weighed (fun z hz => (mem_progeny.1 hz).1)
        (mem_progeny.2 ⟨mem_keys.2 (mem_of_lookup hother), .refl⟩))
  let p₂ : CTxMemPool := { p₁ with mapTx := mapTx₂ }
  have hlinks₂ : p₂.LinksAgree :=
    ⟨⟨fun x => (hlinks₁.mem_links x).trans (mem_map htx₂ x).symm,
      fun c p hcp => (mem_map htx₂ p).2 (hlinks₁.parent_mem c p hcp)⟩, hpool.child_iff⟩
  obtain ⟨S, hS, hSmem⟩ := calculateDescendants_empty hlinks₂
    ((mem_map htx₂ n).2 (mem_of_lookup hentry₁))
  have hDmem := mem_erase_descendants hpool.acyclic hSmem
  have hDne : ∀ y ∈ S.erase n, y ≠ n := fun y hy => (Finset.mem_erase.1 hy).1
  have hDA : ∀ y ∈ S.erase n, y ∉ A := fun y hy hyA =>
    hpool.acyclic n (((hAmem y).1 hyA).trans ((hDmem y).1 hy))
  have htx₂' : ∀ x, p₂.mapTx.lookup x = (pool.mapTx.lookup x).map fun e =>
      if x = n then e.updateFeeDelta (e.feeDelta + nFeeDelta)
      else if x ∈ A then e.setDescendants (e.withDescendants + feeChange nFeeDelta) else e := by
    intro x
    rw [htx₂, htx₁, Option.map_map]
    refine map_congr fun e _ => ?_
    by_cases hx : x = n
    · have hxA : x ∉ A := fun hmem => hAne x hmem hx
      simp [hx, hx ▸ hxA]
    · simp [hx]
  obtain ⟨mapTx₃, hrun₃, htx₃⟩ := forEach_modify p₂ (S.erase n)
    (updateAncestorState 0 nFeeDelta 0 0)
    (fun _ e => e.setAncestors (e.withAncestors + (feeChange nFeeDelta, 0)))
    (fun y hy => (mem_map htx₂' y).2
      (hpool.mem_of_reach_left hn ((hDmem y).1 hy).to_reflTransGen))
    (fun y e hy he => by
      rw [htx₂', map_eq_some_iff] at he
      obtain ⟨other, hother, rfl⟩ := he
      rw [if_neg (hDne y hy), if_neg (hDA y hy)]
      refine updateAncestorState_eq rfl (costPositive_add_feeChange ?_)
      rw [hpool.ancestors_eq hother]
      exact hfits.costPositive hpool.weighed (fun z hz => (mem_ancestry.1 hz).1)
        (mem_ancestry.2 ⟨mem_keys.2 (mem_of_lookup hother), .refl⟩))
  refine ⟨A, S.erase n, { p₂ with mapTx := mapTx₃ }, hAmem, hDmem, ?_, rfl, fun x => ?_⟩
  · rw [prioritiseTransaction, if_pos hn]
    refine bind_eq_ok.2 ⟨p₁, ?_, bind_eq_ok.2 ⟨entry', deref_eq hentry₁,
      bind_eq_ok.2 ⟨(A, none), hA, bind_eq_ok.2 ⟨p₂, hrun₂, bind_eq_ok.2 ⟨S, hS, hrun₃⟩⟩⟩⟩⟩
    refine bind_eq_ok.2 ⟨entry, deref_eq hentry, bind_eq_ok.2 ⟨entry', ?_, rfl⟩⟩
    rw [← hpool.delta_eq hentry]
  · rw [htx₃, htx₂', Option.map_map]
    refine map_congr fun e _ => ?_
    rw [Function.comp_apply]
    by_cases hxD : x ∈ S.erase n
    · rw [if_pos hxD, if_pos hxD, if_neg (hDne x hxD), if_neg (hDne x hxD), if_neg (hDA x hxD),
        if_neg (hDA x hxD)]
    · rw [if_neg hxD, if_neg hxD]

namespace Prioritised

variable {n : uint256} {nFeeDelta : Int64} {A D : SetEntries} {after : CTxMemPool}

theorem linked_eq (h : Prioritised pool n nFeeDelta A D after) : after.Linked = pool.Linked := by
  rw [h.rest]
  rfl

variable {x : uint256} {e : CTxMemPoolEntry}

section

variable (h : Prioritised pool n nFeeDelta A D after)
include h

theorem lookup_cases (hx : after.mapTx.lookup x = some e) :
    ∃ other, pool.mapTx.lookup x = some other ∧ e.tx = other.tx ∧
      e.nTxWeight = other.nTxWeight ∧ e.sigOpCost = other.sigOpCost := by
  rw [h.lookup_tx, map_eq_some_iff] at hx
  obtain ⟨other, hother, rfl⟩ := hx
  refine ⟨other, hother, ?_⟩
  split_ifs
  all_goals exact ⟨rfl, rfl, rfl⟩

theorem fits (hfits : Fits env pool) : Fits env after := by
  have hkeys := keys_map h.lookup_tx
  have hsize : after.weigh (·.virtualSize env) = pool.weigh (·.virtualSize env) :=
    weigh_map h.lookup_tx fun x e => by
      split_ifs
      all_goals rfl
  have hcost : after.weigh (fun e => e.sigOpCost.toInt) = pool.weigh (fun e => e.sigOpCost.toInt) :=
    weigh_map h.lookup_tx fun x e => by
      split_ifs
      all_goals rfl
  refine ⟨?_, ?_, ?_⟩
  · rw [hkeys, hsize]
    exact hfits.size_lt
  · rw [hkeys, hcost]
    exact hfits.cost_nonneg
  · rw [hkeys, hcost]
    exact hfits.cost_lt

theorem weigh_ownCost_eq (hn : n ∈ pool.mapTx) (x : uint256) : after.weigh (·.ownCost env) x =
      pool.weigh (·.ownCost env) x + if x = n then (feeChange nFeeDelta, 0) else 0 := by
  obtain ⟨entry, hentry⟩ := exists_lookup hn
  rw [weigh, weigh, h.lookup_tx]
  by_cases hxn : x = n
  · rw [hxn, hentry, if_pos rfl, map_some, if_pos rfl]
    exact Prod.ext (own_updateFeeDelta entry nFeeDelta) (add_zero _).symm
  · rw [if_neg hxn, add_zero]
    cases pool.mapTx.lookup x with
    | none => rfl
    | some other =>
      rw [map_some, if_neg hxn]
      split_ifs
      all_goals rfl

theorem sum_ownCost_eq (hn : n ∈ pool.mapTx)
    (S : SetEntries) : ∑ x ∈ S, after.weigh (·.ownCost env) x =
      ∑ x ∈ S, pool.weigh (·.ownCost env) x + if n ∈ S then (feeChange nFeeDelta, 0) else 0 := by
  rw [Finset.sum_congr rfl fun x _ => h.weigh_ownCost_eq hn x, Finset.sum_add_distrib,
    Finset.sum_ite_eq']

theorem sum_own_eq (hn : n ∈ pool.mapTx) (S : SetEntries) : ∑ x ∈ S, after.weigh (·.own env) x =
      ∑ x ∈ S, pool.weigh (·.own env) x + if n ∈ S then feeChange nFeeDelta else 0 := by
  have hsum : (∑ x ∈ S, after.weigh (·.ownCost env) x).1 = _ :=
    congrArg Prod.fst (h.sum_ownCost_eq hn S)
  rw [sum_ownCost, sum_ownCost, Prod.fst_add, apply_ite Prod.fst] at hsum
  exact hsum

theorem traceable (hpool : Traceable env pool) : Traceable env after where
  mem_links x := by
    rw [mem_map h.lookup_tx, ← hpool.mem_links, h.rest]
  parent_mem c p hcp := by
    rw [mem_map h.lookup_tx]
    exact hpool.parent_mem c p (h.linked_eq ▸ hcp)
  child_iff c p := by
    rw [h.linked_eq, ← hpool.child_iff, h.rest]
    rfl
  entry_hash hx := by
    obtain ⟨other, hother, htx, -⟩ := h.lookup_cases hx
    rw [htx, hpool.entry_hash hother]
  weighed x e hx := by
    obtain ⟨other, hother, htx, hweight, -⟩ := h.lookup_cases hx
    rw [hweight, htx, hpool.weighed x other hother]
  acyclic := h.linked_eq ▸ hpool.acyclic

theorem lookup_tx_iff (x : uint256)
    (P : CTransaction → Prop) : (∃ e, after.mapTx.lookup x = some e ∧ P e.tx) ↔
      ∃ other, pool.mapTx.lookup x = some other ∧ P other.tx := by
  constructor
  · rintro ⟨e, he, hP⟩
    obtain ⟨other, hother, htx, -⟩ := h.lookup_cases he
    exact ⟨other, hother, htx ▸ hP⟩
  · rintro ⟨other, hother, hP⟩
    obtain ⟨e, he⟩ := exists_lookup ((mem_map h.lookup_tx x).2 (mem_of_lookup hother))
    obtain ⟨same, hsame, htx, -⟩ := h.lookup_cases he
    obtain rfl := some_inj.1 (hother.symm.trans hsame)
    exact ⟨e, he, htx ▸ hP⟩

section

variable (hpool : Bookkept env pool)
include hpool

theorem next_iff (out : COutPoint) (tx : CTransaction) : after.mapNextTx.lookup out = some tx ↔
      ∃ x entry, after.mapTx.lookup x = some entry ∧ entry.tx = tx ∧
        ∃ txin ∈ tx.vin, txin.prevout = out := by
  have hnext : after.mapNextTx = pool.mapNextTx := by rw [h.rest]
  rw [hnext, hpool.next_iff]
  exact exists_congr fun x => (h.lookup_tx_iff x fun tx' => tx' = tx ∧
    ∃ txin ∈ tx.vin, txin.prevout = out).symm

theorem delta_eq (hx : after.mapTx.lookup x = some e) :
    e.feeDelta = (after.mapDeltas.lookup x).getD 0 := by
  rw [h.lookup_tx, map_eq_some_iff] at hx
  obtain ⟨other, hother, rfl⟩ := hx
  have hdelta := hpool.delta_eq hother
  rw [h.rest]
  by_cases hxn : x = n
  · subst hxn
    simp [hdelta, updateFeeDelta]
  · rw [if_neg hxn, lookup_insert_of_ne _ hxn, ← hdelta]
    split_ifs
    all_goals rfl

theorem bookkept (hn : n ∈ pool.mapTx) (hA : ∀ y, y ∈ A ↔ TransGen pool.Linked n y)
    (hD : ∀ y, y ∈ D ↔ TransGen pool.Linked y n) : Bookkept env after := by
  have hkeys := keys_map h.lookup_tx
  have hdisjoint : ∀ x ∈ A, x ∉ D := fun x hxA hxD =>
    hpool.acyclic x (((hD x).1 hxD).trans ((hA x).1 hxA))
  -- The entry counts for itself and for what is above or below it.
  have hanc : ∀ x, n ∈ pool.linkedAncestors x ↔ x = n ∨ x ∈ D := by
    intro x
    rw [linkedAncestors, mem_ancestry, and_iff_right (mem_keys.2 hn), hD,
      reflTransGen_iff_eq_or_transGen, eq_comm]
  have hdesc : ∀ x, n ∈ pool.linkedDescendants x ↔ x = n ∨ x ∈ A := by
    intro x
    rw [linkedDescendants, mem_progeny, and_iff_right (mem_keys.2 hn), hA,
      reflTransGen_iff_eq_or_transGen]
  refine ⟨h.traceable hpool.toTraceable, h.next_iff hpool, h.delta_eq hpool, ?_,
    fun {x e} hx => ?_, fun {x e} hx => ?_⟩
  · have hsize : after.weigh (·.getTxSize env) = pool.weigh (·.getTxSize env) :=
      weigh_map h.lookup_tx fun x e => by
        split_ifs
        all_goals rfl
    have htotal : after.totalTxSize = pool.totalTxSize := by rw [h.rest]
    rw [htotal, hkeys, hsize, hpool.total_size]
  · rw [h.lookup_tx, map_eq_some_iff] at hx
    obtain ⟨other, hother, rfl⟩ := hx
    have hset : after.linkedAncestors x = pool.linkedAncestors x := by
      rw [linkedAncestors, linkedAncestors, hkeys, h.linked_eq]
    rw [hset, h.sum_ownCost_eq hn, ← hpool.ancestors_eq hother]
    by_cases hxn : x = n
    · rw [if_pos hxn, if_pos ((hanc x).2 (.inl hxn)), withAncestors_updateFeeDelta]
    · by_cases hxA : x ∈ A
      · simp [hanc, hxn, hxA, hdisjoint x hxA, setDescendants, withAncestors]
      · by_cases hxD : x ∈ D
        · simp [hanc, hxn, hxA, hxD]
        · simp [hanc, hxn, hxA, hxD]
  · rw [h.lookup_tx, map_eq_some_iff] at hx
    obtain ⟨other, hother, rfl⟩ := hx
    have hset : after.linkedDescendants x = pool.linkedDescendants x := by
      rw [linkedDescendants, linkedDescendants, hkeys, h.linked_eq]
    rw [hset, h.sum_own_eq hn, ← hpool.descendants_eq hother]
    by_cases hxn : x = n
    · rw [if_pos hxn, if_pos ((hdesc x).2 (.inl hxn)), withDescendants_updateFeeDelta]
    · by_cases hxA : x ∈ A
      · simp [hdesc, hxn, hxA]
      · by_cases hxD : x ∈ D
        · simp [hdesc, hxn, hxA, hxD]
        · simp [hdesc, hxn, hxA, hxD]

end

theorem consistent (hpool : Consistent env pool)
    (hn : n ∈ pool.mapTx) (hA : ∀ y, y ∈ A ↔ TransGen pool.Linked n y)
    (hD : ∀ y, y ∈ D ↔ TransGen pool.Linked y n) : Consistent env after where
  toBookkept := h.bookkept hpool.toBookkept hn hA hD
  linked_iff c p := by
    rw [h.linked_eq, hpool.linked_iff, Spends, Spends, mem_map h.lookup_tx,
      h.lookup_tx_iff c fun tx => ∃ txin ∈ tx.vin, txin.prevout.hash = p]

end

end Prioritised

end

end CTxMemPool

end Coinyecoin
