import Coinyecoin.Mempool.Consistency

/-!
# Adding to the pool

`addUnchecked` enters a transaction into the maps, links it to its parents and
adds it to the totals of the ancestors it was given. `Added` says what the pool
has become; with the ancestors that the links lead to the books are kept. That
nothing in the pool spends an output of the new transaction is not needed for
that: the links simply leave such children out.
-/

namespace Coinyecoin

open Foundation Relation Finset Option Prod CTxMemPoolEntry

namespace CTxMemPool

variable {M : Type} {x : uint256}

/-- A transaction that is not in the pool, spends nothing that the pool spends and no output of
its own. -/
structure IsNew (env : PoolEnv) (pool : CTxMemPool) (tx : CTransaction) : Prop where
  fresh : tx.getHash env.hash ∉ pool.mapTx
  unspent : ∀ txin ∈ tx.vin, txin.prevout ∉ pool.mapNextTx
  not_own : ∀ txin ∈ tx.vin, txin.prevout.hash ≠ tx.getHash env.hash

def withEntry (pool : CTxMemPool) (hash : uint256) (entry : CTxMemPoolEntry) : CTxMemPool :=
  { pool with mapTx := pool.mapTx.insert hash entry }

section

variable {env : PoolEnv} {pool : CTxMemPool}

structure Entered (pool : CTxMemPool) (n : uint256) (entry : CTxMemPoolEntry)
    (after : CTxMemPool) : Prop where
  mapDeltas_eq : after.mapDeltas = pool.mapDeltas
  totalTxSize_eq : after.totalTxSize = pool.totalTxSize
  lookup_tx : ∀ x, after.mapTx.lookup x = if x = n then some entry else pool.mapTx.lookup x
  lookup_links : ∀ x, after.mapLinks.lookup x =
    if x = n then some ⟨pool.inputParents entry.tx, ∅⟩ else pool.mapLinks.lookup x
  lookup_next : ∀ out tx, after.mapNextTx.lookup out = some tx ↔
    pool.mapNextTx.lookup out = some tx ∨
      tx = entry.tx ∧ ∃ txin ∈ entry.tx.vin, txin.prevout = out

theorem lookup_insertNew {K V : Type} [DecidableEq K] {m : Finmap fun _ : K => V} {k : K}
    (hk : k ∉ m) {v : V} {x : K} :
    (insertNew m k v).lookup x = if x = k then some v else m.lookup x := by
  rw [insertNew, if_neg hk]
  split_ifs with hx
  · rw [hx, Finmap.lookup_insert]
  · rw [Finmap.lookup_insert_of_ne _ hx]

variable {tx : CTransaction} {n : uint256}

theorem lookup_insertInputs {vin : List CTxIn} {m : Finmap fun _ : COutPoint => CTransaction}
    {newTx : CTransaction}
    (hunspent : ∀ txin ∈ vin, ∀ tx, m.lookup txin.prevout = some tx → tx = newTx)
    {out : COutPoint} :
    (vin.foldl (fun m txin => insertNew m txin.prevout newTx) m).lookup out = some tx ↔
      m.lookup out = some tx ∨ tx = newTx ∧ ∃ txin ∈ vin, txin.prevout = out := by
  induction vin generalizing m with
  | nil => simp
  | cons txin vin ih =>
    have hstep : ∀ o t, (insertNew m txin.prevout newTx).lookup o = some t ↔
        m.lookup o = some t ∨ t = newTx ∧ txin.prevout = o := by
      intro o t
      rw [insertNew]
      split_ifs with hmem
      · refine ⟨.inl, ?_⟩
        rintro (hold | ⟨rfl, rfl⟩)
        · exact hold
        · obtain ⟨t', ht'⟩ := isSome_iff_exists.1 (Finmap.lookup_isSome.2 hmem)
          rw [ht', hunspent txin List.mem_cons_self t' ht']
      · by_cases ho : o = txin.prevout
        · subst ho
          simp [Finmap.lookup_eq_none.2 hmem, eq_comm]
        · simp [Finmap.lookup_insert_of_ne _ ho, Ne.symm ho]
    rw [List.foldl_cons, ih, hstep, List.exists_mem_cons_iff]
    · tauto
    · intro txin' htxin' t ht
      rcases (hstep _ _).1 ht with hold | ⟨hnew, -⟩
      · exact hunspent txin' (List.mem_cons_of_mem _ htxin') t hold
      · exact hnew

theorem linkInputs_returns (hn : pool.mapLinks.lookup n = some .empty) (tx : CTransaction) :
    ∃ mapLinks, pool.linkInputs n tx = .ok { pool with
        mapNextTx := tx.vin.foldl (fun m txin => insertNew m txin.prevout tx) pool.mapNextTx
        mapLinks := mapLinks } ∧
      ∀ x, mapLinks.lookup x =
        if x = n then some ⟨pool.inputParents tx, ∅⟩ else pool.mapLinks.lookup x := by
  let base : CTxMemPool := { pool with
    mapNextTx := tx.vin.foldl (fun m txin => insertNew m txin.prevout tx) pool.mapNextTx }
  let hashes := (tx.vin.map fun txin => txin.prevout.hash).toFinset
  have hrun : ∃ after, forEach byHash hashes (fun (pool : CTxMemPool) phash =>
      (.ok (if phash ∈ pool.mapTx then pool.updateParent n phash true else pool) :
        Except Fault CTxMemPool)) base = .ok after ∧ ∃ mapLinks,
      after = { base with mapLinks := mapLinks } ∧ ∀ x, mapLinks.lookup x =
        if x = n then some ⟨hashes.filter (· ∈ pool.mapTx), ∅⟩ else pool.mapLinks.lookup x := by
    refine forEach_returns byHash (fun done (after : CTxMemPool) => ∃ mapLinks,
      after = { base with mapLinks := mapLinks } ∧ ∀ x, mapLinks.lookup x =
        if x = n then some ⟨done.filter (· ∈ pool.mapTx), ∅⟩ else pool.mapLinks.lookup x)
      (fun done p after _ _ _ h => ?_) ⟨pool.mapLinks, rfl, fun x => ?_⟩
    · obtain ⟨mapLinks, rfl, hlookup⟩ := h
      refine ⟨_, rfl, ?_⟩
      by_cases hp : p ∈ pool.mapTx
      · refine ⟨mapLinks.insert n ⟨insert p (done.filter (· ∈ pool.mapTx)), ∅⟩, ?_, fun x => ?_⟩
        · have hlinks : mapLinks.lookup n = some ⟨done.filter (· ∈ pool.mapTx), ∅⟩ := by
            simp [hlookup]
          rw [if_pos hp, updateParent, updateLinks, hlinks]
          rfl
        · by_cases hx : x = n
          · subst hx
            simp [filter_insert, hp]
          · simp [Finmap.lookup_insert_of_ne _ hx, hlookup, hx]
      · refine ⟨mapLinks, if_neg hp, fun x => ?_⟩
        simp [hlookup, filter_insert, hp]
    · by_cases hx : x = n
      · subst hx
        simp [hn, TxLinks.empty]
      · simp [hx]
  obtain ⟨_, hrun, mapLinks, rfl, hlookup⟩ := hrun
  exact ⟨mapLinks, hrun, hlookup⟩

def newEntry (env : PoolEnv) (pool : CTxMemPool) (tx : CTransaction) (nFee sigOpsCost : Int64) :
    CTxMemPoolEntry :=
  (CTxMemPoolEntry.create env tx nFee sigOpsCost).updateFeeDelta
    ((pool.mapDeltas.lookup (tx.getHash env.hash)).getD 0)

theorem applyDelta_returns {nFee sigOpsCost : Int64}
    (hn : pool.mapTx.lookup n = some (.create env tx nFee sigOpsCost)) :
    ∃ mapTx, pool.applyDelta n n = .ok { pool with mapTx := mapTx } ∧
      ∀ x, mapTx.lookup x = if x = n then
        some ((create env tx nFee sigOpsCost).updateFeeDelta
          ((pool.mapDeltas.lookup n).getD 0)) else pool.mapTx.lookup x := by
  have hzero : (create env tx nFee sigOpsCost).updateFeeDelta 0 =
      .create env tx nFee sigOpsCost := by
    simp [updateFeeDelta, create]
  have hsame : ∀ x, pool.mapTx.lookup x = if x = n then
      some (.create env tx nFee sigOpsCost) else pool.mapTx.lookup x := by
    intro x
    split_ifs with hx
    · rw [hx, hn]
    · rfl
  rw [applyDelta]
  cases hdelta : pool.mapDeltas.lookup n with
  | none => exact ⟨pool.mapTx, rfl, by simpa [hzero] using hsame⟩
  | some delta =>
    by_cases hne : delta = 0
    · subst hne
      exact ⟨pool.mapTx, by simp, by simpa [hzero] using hsame⟩
    · refine ⟨pool.mapTx.insert n ((create env tx nFee sigOpsCost).updateFeeDelta
        delta), ?_, fun x => ?_⟩
      · simp only [ne_eq, hne, not_false_eq_true, if_true, modify, deref_eq hn, ok_bind]
        rfl
      · by_cases hx : x = n
        · subst hx
          simp
        · simp [Finmap.lookup_insert_of_ne _ hx, hx]

end

section

variable {env : PoolEnv} {pool : CTxMemPool}

structure Added (env : PoolEnv) (pool : CTxMemPool) (n : uint256) (entry : CTxMemPoolEntry)
    (A : SetEntries) (after : CTxMemPool) : Prop where
  mapDeltas_eq : after.mapDeltas = pool.mapDeltas
  lookup_tx : ∀ x, after.mapTx.lookup x =
    if x = n then
      some (entry.setAncestors (entry.ownCost env + ∑ a ∈ A, pool.weigh (·.ownCost env) a))
    else (pool.mapTx.lookup x).map fun other =>
      if x ∈ A then other.setDescendants (other.withDescendants + entry.own env) else other
  lookup_links : ∀ x, after.mapLinks.lookup x =
    if x = n then some ⟨pool.inputParents entry.tx, ∅⟩
    else (pool.mapLinks.lookup x).map fun links =>
      if x ∈ pool.inputParents entry.tx then { links with children := insert n links.children }
      else links
  lookup_next : ∀ out tx, after.mapNextTx.lookup out = some tx ↔
    pool.mapNextTx.lookup out = some tx ∨
      tx = entry.tx ∧ ∃ txin ∈ entry.tx.vin, txin.prevout = out
  total_size : after.totalTxSize = pool.totalTxSize + entry.getTxSize env

variable (w : CTxMemPoolEntry → M) (tx : CTransaction) (nFee sigOpsCost : Int64) (n : uint256)
  (entry : CTxMemPoolEntry)

theorem weigh_withEntry [Zero M] (x : uint256) :
    (pool.withEntry n entry).weigh w x = if x = n then w entry else pool.weigh w x := by
  by_cases hx : x = n
  · subst hx
    simp [weigh, withEntry]
  · simp [weigh, withEntry, Finmap.lookup_insert_of_ne _ hx, hx]

theorem sum_withEntry [AddCommMonoid M] {n : uint256} {S : SetEntries} (hn : n ∉ S) :
    ∑ x ∈ insert n S, (pool.withEntry n entry).weigh w x = w entry + ∑ x ∈ S, pool.weigh w x := by
  rw [sum_insert hn, weigh_withEntry, if_pos rfl]
  refine congrArg _ (sum_congr rfl fun x hx => ?_)
  have hne : x ≠ n := fun h => hn (h ▸ hx)
  rw [weigh_withEntry, if_neg hne]

theorem keys_withEntry : (pool.withEntry n entry).mapTx.keys = insert n pool.mapTx.keys := by
  ext x
  simp [withEntry, Finmap.mem_keys]

theorem newEntry_withAncestors :
    (newEntry env pool tx nFee sigOpsCost).withAncestors =
      (newEntry env pool tx nFee sigOpsCost).ownCost env := by
  simp only [newEntry, updateFeeDelta, create, withAncestors, ownCost, own,
    getTxSize, virtualSize, getModifiedFee,
    Int64.sub_zero]

theorem newEntry_withDescendants :
    (newEntry env pool tx nFee sigOpsCost).withDescendants =
      (newEntry env pool tx nFee sigOpsCost).own env := by
  simp only [newEntry, updateFeeDelta, create, withDescendants, own, getTxSize,
    virtualSize, getModifiedFee, Int64.sub_zero]

namespace Entered

variable {n : uint256} {entry : CTxMemPoolEntry} {after : CTxMemPool}

section

variable (h : Entered pool n entry after)
include h

theorem mem_iff (x : uint256) : x ∈ after.mapTx ↔ x = n ∨ x ∈ pool.mapTx := by
  rw [← Finmap.lookup_isSome, ← Finmap.lookup_isSome, h.lookup_tx]
  by_cases hx : x = n
  · simp [hx]
  · simp [hx]

theorem parentsOf_eq (x : uint256) :
    after.parentsOf x = if x = n then pool.inputParents entry.tx else pool.parentsOf x := by
  rw [parentsOf, h.lookup_links]
  by_cases hx : x = n
  · simp [hx]
  · simp [hx, parentsOf]

theorem parentsLinked (hpool : pool.ParentsLinked) : after.ParentsLinked where
  mem_links x := by
    rw [h.mem_iff, ← hpool.mem_links, ← Finmap.lookup_isSome, ← Finmap.lookup_isSome,
      h.lookup_links]
    by_cases hx : x = n
    · simp [hx]
    · simp [hx]
  parent_mem c p hcp := by
    rw [Linked, h.parentsOf_eq] at hcp
    rw [h.mem_iff]
    split_ifs at hcp
    · exact .inr (mem_inputParents.1 hcp).2
    · exact .inr (hpool.parent_mem c p hcp)

end

end Entered

variable {tx : CTransaction} {A : SetEntries}

theorem enter_returns (hpool : Bookkept env pool)
    (hnew : IsNew env pool tx) (nFee sigOpsCost : Int64) :
    ∃ before after,
      (pool.insertEntry (tx.getHash env.hash) (.create env tx nFee sigOpsCost)).applyDelta
        (tx.getHash env.hash) (tx.getHash env.hash) = .ok before ∧
      before.mapTx.lookup (tx.getHash env.hash) = some (newEntry env pool tx nFee sigOpsCost) ∧
      before.linkInputs (tx.getHash env.hash) tx = .ok after ∧
      Entered pool (tx.getHash env.hash) (newEntry env pool tx nFee sigOpsCost) after := by
  have hlinks : tx.getHash env.hash ∉ pool.mapLinks := fun h =>
    hnew.fresh ((hpool.mem_links _).1 h)
  have htx₀ : ∀ x, (pool.insertEntry (tx.getHash env.hash)
      (.create env tx nFee sigOpsCost)).mapTx.lookup x =
      if x = tx.getHash env.hash then some (.create env tx nFee sigOpsCost)
      else pool.mapTx.lookup x :=
    fun x => lookup_insertNew hnew.fresh
  have hlinks₀ : ∀ x, (pool.insertEntry (tx.getHash env.hash)
      (.create env tx nFee sigOpsCost)).mapLinks.lookup x =
      if x = tx.getHash env.hash then some .empty else pool.mapLinks.lookup x :=
    fun x => lookup_insertNew hlinks
  obtain ⟨mapTx, hdelta, htx₁⟩ := applyDelta_returns ((htx₀ _).trans (if_pos rfl))
  let before : CTxMemPool :=
    { pool.insertEntry (tx.getHash env.hash) (.create env tx nFee sigOpsCost) with mapTx := mapTx }
  have htx : ∀ x, before.mapTx.lookup x = if x = tx.getHash env.hash then
      some (newEntry env pool tx nFee sigOpsCost) else pool.mapTx.lookup x := by
    intro x
    rw [htx₁, htx₀]
    split_ifs with hx
    · rfl
    · rfl
  have hn : before.mapLinks.lookup (tx.getHash env.hash) = some .empty :=
    (hlinks₀ _).trans (if_pos rfl)
  have hparents : before.inputParents tx = pool.inputParents tx := by
    ext p
    rw [mem_inputParents, mem_inputParents, ← Finmap.lookup_isSome, ← Finmap.lookup_isSome, htx]
    refine and_congr_right fun ⟨txin, htxin, hp⟩ => ?_
    rw [if_neg fun h => hnew.not_own txin htxin (hp.trans h)]
  obtain ⟨mapLinks, hlink, hmapLinks⟩ := linkInputs_returns hn tx
  refine ⟨before, _, hdelta, (htx _).trans (if_pos rfl), hlink, rfl, rfl, htx, fun x => ?_,
    fun out tx' => ?_⟩
  · rw [hmapLinks, hparents, hlinks₀]
    split_ifs with hx
    · rfl
    · rfl
  · refine lookup_insertInputs (fun txin htxin t ht => ?_)
    exact absurd (Finmap.mem_of_lookup_eq_some ht) (hnew.unspent txin htxin)

theorem updateEntryForAncestors_returns {before : CTxMemPool} {n : uint256}
    {entry : CTxMemPoolEntry} (hn : before.mapTx.lookup n = some entry)
    (hentry : entry.withAncestors = entry.ownCost env) (hnA : n ∉ A) (hA : A ⊆ pool.mapTx.keys)
    (hown : ∀ a ∈ A, before.weigh (·.ownCost env) a = pool.weigh (·.ownCost env) a)
    (hmem : ∀ a ∈ A, a ∈ before.mapTx)
    (hfits : Fits env (pool.withEntry n entry)) (hweight : (pool.withEntry n entry).Weighed) :
    before.updateEntryForAncestors env n A = .ok { before with
      mapTx := before.mapTx.insert n (entry.setAncestors
        (entry.ownCost env + ∑ a ∈ A, pool.weigh (·.ownCost env) a)) } := by
  let own := pool.weigh (·.ownCost env)
  have hbody : ∀ a ∈ A, ∀ sums, before.addAncestor env sums a =
      .ok (sums + ((own a).1.2.1.toInt64, (own a).1.2.2, (own a).2)) := by
    intro a ha sums
    obtain ⟨ancestor, hancestor⟩ := exists_lookup (hmem a ha)
    have hsame : own a = ancestor.ownCost env :=
      (hown a ha).symm.trans (weigh_eq hancestor _)
    rw [addAncestor, deref_eq hancestor, ok_bind, hsame]
    rfl
  have hsums : forEach byHash A (before.addAncestor env) (0, 0, 0) =
      .ok (∑ a ∈ A, (own a).1.2.1.toInt64, ∑ a ∈ A, (own a).1.2.2, ∑ a ∈ A, (own a).2) := by
    rw [forEach_sum byHash _ hbody (0, 0, 0)]
    refine congrArg _ (Prod.ext ?_ (Prod.ext ?_ ?_))
    · rw [fst_add, fst_sum, zero_add]
    · rw [snd_add, snd_sum, fst_add, fst_sum, zero_add]
    · rw [snd_add, snd_sum, snd_add, snd_sum, zero_add]
  have hone : ∀ a ∈ A, (own a).1.1 = 1 := by
    intro a ha
    obtain ⟨ancestor, hancestor⟩ := exists_lookup (Finmap.mem_keys.1 (hA ha))
    exact congrArg (fun totals => totals.1.1) (weigh_eq hancestor (·.ownCost env))
  have hA' : A ⊆ (pool.withEntry n entry).mapTx.keys := by
    rw [keys_withEntry]
    exact hA.trans (subset_insert _ _)
  have hcost : (∑ a ∈ A, (own a).2).toInt32.toInt64 = ∑ a ∈ A, (own a).2 := by
    have hnarrow := (hfits.narrow hA').1
    have hsum : ∑ a ∈ A, (pool.withEntry n entry).weigh (·.sigOpCost) a = ∑ a ∈ A, (own a).2 := by
      refine sum_congr rfl fun a ha => ?_
      have hne : a ≠ n := fun h => hnA (h ▸ ha)
      rw [weigh_withEntry, if_neg hne]
      exact (congrArg Prod.snd (weigh_ownCost a)).symm
    rwa [hsum] at hnarrow
  have hchange : (((Int64.ofNat A.card).toUInt64, (∑ a ∈ A, (own a).1.2.1.toInt64).toUInt64,
      ∑ a ∈ A, (own a).1.2.2), (∑ a ∈ A, (own a).2).toInt32.toInt64) = ∑ a ∈ A, own a := by
    refine Prod.ext (Prod.ext ?_ (Prod.ext ?_ ?_)) ?_
    · rw [fst_sum, fst_sum, sum_congr rfl hone, sum_one_eq]
      rfl
    · rw [toUInt64_sum, fst_sum, snd_sum, fst_sum]
    · rw [fst_sum, snd_sum, snd_sum]
    · rw [hcost, snd_sum]
  have hpos : CostPositive (entry.withAncestors + ∑ a ∈ A, own a) := by
    rw [hentry, ← sum_withEntry (·.ownCost env) entry hnA]
    refine hfits.costPositive hweight ?_ (mem_insert_self n A)
    rw [keys_withEntry]
    exact insert_subset_insert n hA
  rw [updateEntryForAncestors, hsums, ok_bind]
  change before.modify n _ = _
  rw [modify, deref_eq hn, ok_bind, updateAncestorState_eq hchange hpos, ok_bind, hentry]
  rfl

theorem weighed_withEntry (hweight : pool.Weighed) {n : uint256} {entry : CTxMemPoolEntry}
    (hentry : entry.nTxWeight = getTransactionWeight entry.tx) :
    (pool.withEntry n entry).Weighed := by
  intro x other hx
  by_cases hxn : x = n
  · subst hxn
    rw [withEntry, Finmap.lookup_insert, some_inj] at hx
    exact hx ▸ hentry
  · rw [withEntry, Finmap.lookup_insert_of_ne _ hxn] at hx
    exact hweight x other hx

theorem addUnchecked_returns (hpool : Bookkept env pool)
    (hnew : IsNew env pool tx) {nFee sigOpsCost : Int64}
    (hfits : Fits env (pool.withEntry (tx.getHash env.hash)
      (newEntry env pool tx nFee sigOpsCost)))
    (hA : A ⊆ pool.mapTx.keys) :
    ∃ after, pool.addUnchecked env (tx.getHash env.hash) (.create env tx nFee sigOpsCost) A =
        .ok after ∧
      Added env pool (tx.getHash env.hash) (newEntry env pool tx nFee sigOpsCost) A after := by
  obtain ⟨before, p, hdelta, hbefore, hlink, h⟩ := enter_returns hpool hnew nFee sigOpsCost
  set n := tx.getHash env.hash with hn
  set entry := newEntry env pool tx nFee sigOpsCost with hentry
  have hnkeys : n ∉ pool.mapTx.keys := fun hmem => hnew.fresh (Finmap.mem_keys.1 hmem)
  have hne : ∀ a ∈ A, a ≠ n := fun a ha heq => hnkeys (heq ▸ hA ha)
  have hweight : (pool.withEntry n entry).Weighed := weighed_withEntry hpool.weighed rfl
  have hlookup : p.mapTx.lookup n = some entry := (h.lookup_tx n).trans (if_pos rfl)
  obtain ⟨mapTx, mapLinks, hancestors, hmapTx, hmapLinks⟩ :=
    updateAncestorsOf_spec env (h.parentsLinked hpool.toParentsLinked) true hlookup A
      (fun a ha => (h.mem_iff a).2 (.inr (Finmap.mem_keys.1 (hA ha))))
      (fun a ancestor ha hancestor => by
        rw [h.lookup_tx, if_neg (hne a ha)] at hancestor
        have hdesc : n ∉ pool.linkedDescendants a := fun hmem => hnkeys (mem_progeny.1 hmem).1
        have hsum : ∑ y ∈ insert n (pool.linkedDescendants a),
            (pool.withEntry n entry).weigh (·.own env) y = _ := sum_withEntry (·.own env) entry hdesc
        rw [add_comm, ← hpool.descendants_eq hancestor] at hsum
        change Totals.Positive (ancestor.withDescendants + entry.own env)
        rw [← hsum]
        refine hfits.positive hweight ?_ (mem_insert_of_mem (mem_progeny.2
          ⟨Finmap.mem_keys.2 (mem_of_lookup hancestor), .refl⟩))
        rw [keys_withEntry]
        exact insert_subset_insert n fun y hy => (mem_progeny.1 hy).1)
  let p₃ : CTxMemPool := { p with mapTx := mapTx, mapLinks := mapLinks }
  have hnA : n ∉ A := fun hmem => hne n hmem rfl
  have htx₃ : ∀ x, p₃.mapTx.lookup x = if x = n then some entry else
      (pool.mapTx.lookup x).map fun other =>
        if x ∈ A then other.setDescendants (other.withDescendants + entry.own env) else other := by
    intro x
    rw [hmapTx, h.lookup_tx]
    by_cases hx : x = n
    · rw [if_pos hx, if_pos hx, map_some, if_neg (hx ▸ hnA)]
    · rw [if_neg hx, if_neg hx]
      rfl
  have hupdate : p₃.updateEntryForAncestors env n A = .ok { p₃ with
      mapTx := p₃.mapTx.insert n (entry.setAncestors
        (entry.ownCost env + ∑ a ∈ A, pool.weigh (·.ownCost env) a)) } :=
    updateEntryForAncestors_returns ((htx₃ n).trans (if_pos rfl))
      (newEntry_withAncestors tx nFee sigOpsCost) hnA hA
    (fun a ha => by
      rw [weigh, weigh, htx₃, if_neg (hne a ha)]
      cases pool.mapTx.lookup a with
      | none => rfl
      | some other =>
        simp only [map_some, if_pos ha]
        rfl)
    (fun a ha => by
      rw [← Finmap.lookup_isSome, htx₃, if_neg (hne a ha), isSome_map, Finmap.lookup_isSome]
      exact Finmap.mem_keys.1 (hA ha)) hfits hweight
  refine ⟨{ p₃ with
    mapTx := p₃.mapTx.insert n (entry.setAncestors
      (entry.ownCost env + ∑ a ∈ A, pool.weigh (·.ownCost env) a))
    totalTxSize := pool.totalTxSize + entry.getTxSize env }, ?_, h.mapDeltas_eq, fun x => ?_,
    fun x => ?_, h.lookup_next, rfl⟩
  · have htotal : p₃.totalTxSize = pool.totalTxSize := h.totalTxSize_eq
    refine bind_eq_ok.2 ⟨before, hdelta, bind_eq_ok.2 ⟨entry, deref_eq hbefore,
      bind_eq_ok.2 ⟨p, hlink, bind_eq_ok.2 ⟨p₃, hancestors, bind_eq_ok.2 ⟨_, hupdate, ?_⟩⟩⟩⟩⟩
    rw [← htotal]
    rfl
  · by_cases hx : x = n
    · subst hx
      simp
    · rw [Finmap.lookup_insert_of_ne _ hx, htx₃]
      simp [hx]
  · change mapLinks.lookup x = _
    rw [hmapLinks, h.lookup_links, h.parentsOf_eq, if_pos rfl]
    by_cases hx : x = n
    · have hself : n ∉ pool.inputParents entry.tx := fun hmem =>
        hnew.fresh (mem_inputParents.1 hmem).2
      rw [if_pos hx, if_pos hx, map_some, if_neg (hx ▸ hself)]
    · rw [if_neg hx, if_neg hx]
      rfl

namespace Added

variable {n : uint256} {entry : CTxMemPoolEntry} {A : SetEntries} {after : CTxMemPool}

section

variable (h : Added env pool n entry A after)
include h

theorem mem_iff (x : uint256) : x ∈ after.mapTx ↔ x = n ∨ x ∈ pool.mapTx := by
  rw [← Finmap.lookup_isSome, ← Finmap.lookup_isSome, h.lookup_tx]
  by_cases hx : x = n
  · simp [hx]
  · simp [hx]

theorem keys_eq : after.mapTx.keys = insert n pool.mapTx.keys := by
  ext x
  rw [mem_insert, Finmap.mem_keys, Finmap.mem_keys, h.mem_iff]

theorem parentsOf_eq (x : uint256) :
    after.parentsOf x = if x = n then pool.inputParents entry.tx else pool.parentsOf x := by
  rw [parentsOf, h.lookup_links]
  by_cases hx : x = n
  · simp [hx]
  · rw [if_neg hx, if_neg hx, parentsOf]
    cases pool.mapLinks.lookup x with
    | none => rfl
    | some links =>
      rw [map_some]
      split_ifs
      · rfl
      · rfl

theorem childrenOf_eq (hx : x ≠ n) (hlinks : pool.inputParents entry.tx ⊆ pool.mapLinks.keys) :
    after.childrenOf x =
      if x ∈ pool.inputParents entry.tx then insert n (pool.childrenOf x)
      else pool.childrenOf x := by
  rw [childrenOf, h.lookup_links, if_neg hx, childrenOf]
  cases hlookup : pool.mapLinks.lookup x with
  | none =>
    have hnot : x ∉ pool.inputParents entry.tx := fun hmem =>
      Finmap.lookup_eq_none.1 hlookup (Finmap.mem_keys.1 (hlinks hmem))
    rw [if_neg hnot]
    rfl
  | some links =>
    rw [map_some]
    split_ifs
    · rfl
    · rfl

theorem weigh_eq [Zero M]
    {w : CTxMemPoolEntry → M} (hbelow : ∀ e totals, w (e.setDescendants totals) = w e)
    (habove : ∀ e totals, w (e.setAncestors totals) = w e) :
    after.weigh w = (pool.withEntry n entry).weigh w := by
  funext x
  rw [weigh_withEntry, weigh, weigh, h.lookup_tx]
  by_cases hx : x = n
  · simp [hx, habove]
  · rw [if_neg hx, if_neg hx]
    cases pool.mapTx.lookup x with
    | none => rfl
    | some other =>
      rw [map_some]
      split_ifs
      · exact hbelow other _
      · rfl

theorem fits (hfits : Fits env (pool.withEntry n entry)) : Fits env after := by
  have hkeys : after.mapTx.keys = (pool.withEntry n entry).mapTx.keys := by
    rw [h.keys_eq, keys_withEntry]
  refine ⟨?_, ?_, ?_⟩
  · rw [hkeys, h.weigh_eq (fun _ _ => rfl) fun _ _ => rfl]
    exact hfits.size_lt
  · rw [hkeys, h.weigh_eq (fun _ _ => rfl) fun _ _ => rfl]
    exact hfits.cost_nonneg
  · rw [hkeys, h.weigh_eq (fun _ _ => rfl) fun _ _ => rfl]
    exact hfits.cost_lt

theorem addsTop (hpool : pool.ParentsLinked) (hn : n ∉ pool.mapTx) :
    AddsTop pool.Linked after.Linked n (pool.inputParents entry.tx) where
  edge_iff c p := by
    rw [Linked, Linked, h.parentsOf_eq]
    by_cases hc : c = n
    · subst hc
      have hnone : ¬ pool.Linked c p := fun hcp => hn (hpool.child_mem hcp)
      rw [Linked] at hnone
      simp [hnone]
    · simp [hc]
  fresh c p hcp := by
    constructor
    · rintro rfl
      exact hn (hpool.child_mem hcp)
    · rintro rfl
      exact hn (hpool.parent_mem c p hcp)
  parent_ne p hp := by
    rintro rfl
    exact hn (mem_inputParents.1 hp).2

theorem linksAgree (hpool : pool.LinksAgree) (hn : n ∉ pool.mapTx) : after.LinksAgree where
  mem_links x := by
    rw [h.mem_iff, ← hpool.mem_links, ← Finmap.lookup_isSome, ← Finmap.lookup_isSome,
      h.lookup_links]
    by_cases hx : x = n
    · simp [hx]
    · simp [hx]
  parent_mem c p hcp := by
    rw [h.mem_iff]
    rcases ((h.addsTop hpool.toParentsLinked hn).edge_iff c p).1 hcp with hold | ⟨-, hp⟩
    · exact .inr (hpool.parent_mem c p hold)
    · exact .inr (mem_inputParents.1 hp).2
  child_iff c p := by
    have htop := h.addsTop hpool.toParentsLinked hn
    rw [htop.edge_iff]
    by_cases hp : p = n
    · subst hp
      have hnone : c ∉ after.childrenOf p := by
        rw [childrenOf, h.lookup_links, if_pos rfl]
        exact notMem_empty c
      refine iff_of_false hnone ?_
      rintro (hold | ⟨-, hself⟩)
      · exact (htop.fresh c p hold).2 rfl
      · exact htop.parent_ne p hself rfl
    · rw [h.childrenOf_eq hp fun q hq => Finmap.mem_keys.2
        ((hpool.mem_links q).2 (mem_inputParents.1 hq).2)]
      by_cases hmem : p ∈ pool.inputParents entry.tx
      · simp [hmem, hpool.child_iff, or_comm]
      · simp [hmem, hpool.child_iff]

theorem lookup_cases {e : CTxMemPoolEntry} (hx : after.mapTx.lookup x = some e) :
    (x = n ∧ e = entry.setAncestors
        (entry.ownCost env + ∑ a ∈ A, pool.weigh (·.ownCost env) a)) ∨
      x ≠ n ∧ ∃ other, pool.mapTx.lookup x = some other ∧
        e = if x ∈ A then other.setDescendants (other.withDescendants + entry.own env)
          else other := by
  rw [h.lookup_tx] at hx
  by_cases hxn : x = n
  · rw [if_pos hxn, some_inj] at hx
    exact .inl ⟨hxn, hx.symm⟩
  · rw [if_neg hxn, map_eq_some_iff] at hx
    obtain ⟨other, hother, rfl⟩ := hx
    exact .inr ⟨hxn, other, hother, rfl⟩

theorem lookup_old (hn : n ∉ pool.mapTx)
    {other : CTxMemPoolEntry} (hother : pool.mapTx.lookup x = some other) :
    ∃ e, after.mapTx.lookup x = some e ∧ e.tx = other.tx := by
  have hne : x ≠ n := by
    rintro rfl
    exact hn (mem_of_lookup hother)
  rw [h.lookup_tx, if_neg hne, hother, map_some]
  split_ifs
  · exact ⟨_, rfl, rfl⟩
  · exact ⟨_, rfl, rfl⟩

end

variable {tx : CTransaction} {nFee sigOpsCost : Int64}

section

variable (h : Added env pool (tx.getHash env.hash) (newEntry env pool tx nFee sigOpsCost) A after)
include h

theorem traceable
    (hpool : Traceable env pool) (hnew : IsNew env pool tx) : Traceable env after where
  toLinksAgree := h.linksAgree hpool.toLinksAgree hnew.fresh
  entry_hash {x e} hx := by
    rcases h.lookup_cases hx with ⟨rfl, rfl⟩ | ⟨-, other, hother, rfl⟩
    · rfl
    · have hhash := hpool.entry_hash hother
      split_ifs
      · exact hhash
      · exact hhash
  weighed x e hx := by
    rcases h.lookup_cases hx with ⟨rfl, rfl⟩ | ⟨-, other, hother, rfl⟩
    · rfl
    · have hweight := hpool.weighed x other hother
      split_ifs
      · exact hweight
      · exact hweight
  acyclic := (h.addsTop hpool.toParentsLinked hnew.fresh).acyclic hpool.acyclic

theorem bookkept (hpool : Bookkept env pool) (hnew : IsNew env pool tx)
    (hA : ∀ y, y ∈ A ↔ ∃ p ∈ pool.inputParents tx, ReflTransGen pool.Linked p y) :
    Bookkept env after := by
  have htop := h.addsTop hpool.toParentsLinked hnew.fresh
  have hnkeys : tx.getHash env.hash ∉ pool.mapTx.keys := fun hmem =>
    hnew.fresh (Finmap.mem_keys.1 hmem)
  have hAkeys : A ⊆ pool.mapTx.keys := by
    intro a ha
    obtain ⟨p, hp, hpa⟩ := (hA a).1 ha
    exact Finmap.mem_keys.2 (hpool.mem_of_reach (mem_inputParents.1 hp).2 hpa)
  have hsum : ∀ {M : Type} [AddCommMonoid M] (w : CTxMemPoolEntry → M) (S : SetEntries),
      S ⊆ pool.mapTx.keys → ∑ x ∈ insert (tx.getHash env.hash) S,
        (pool.withEntry (tx.getHash env.hash) (newEntry env pool tx nFee sigOpsCost)).weigh w x =
      w (newEntry env pool tx nFee sigOpsCost) + ∑ x ∈ S, pool.weigh w x := fun w S hS =>
    sum_withEntry w _ fun hmem => hnkeys (hS hmem)
  have hold : ∀ {M : Type} [AddCommMonoid M] (w : CTxMemPoolEntry → M) (S : SetEntries),
      S ⊆ pool.mapTx.keys → ∑ x ∈ S,
        (pool.withEntry (tx.getHash env.hash) (newEntry env pool tx nFee sigOpsCost)).weigh w x =
      ∑ x ∈ S, pool.weigh w x := fun w S hS => sum_congr rfl fun x hx => by
    have hne : x ≠ tx.getHash env.hash := fun heq => hnkeys (heq ▸ hS hx)
    rw [weigh_withEntry, if_neg hne]
  refine ⟨h.traceable hpool.toTraceable hnew, fun out tx' => ?_, fun {x e} hx => ?_, ?_,
    fun {x e} hx => ?_, fun {x e} hx => ?_⟩
  · rw [h.lookup_next, hpool.next_iff]
    constructor
    · rintro (⟨x, other, hother, rfl, hin⟩ | ⟨htx', hin⟩)
      · obtain ⟨e, he, htx⟩ := h.lookup_old hnew.fresh hother
        exact ⟨x, e, he, htx, hin⟩
      · exact ⟨tx.getHash env.hash, _, (h.lookup_tx _).trans (if_pos rfl), htx'.symm,
          htx' ▸ hin⟩
    · rintro ⟨x, e, hx, rfl, hin⟩
      rcases h.lookup_cases hx with ⟨rfl, rfl⟩ | ⟨-, other, hother, rfl⟩
      · exact .inr ⟨rfl, hin⟩
      · refine .inl ⟨x, other, hother, ?_⟩
        split_ifs at hin ⊢
        · exact ⟨rfl, hin⟩
        · exact ⟨rfl, hin⟩
  · rw [h.mapDeltas_eq]
    rcases h.lookup_cases hx with ⟨rfl, rfl⟩ | ⟨-, other, hother, rfl⟩
    · rfl
    · have hdelta := hpool.delta_eq hother
      split_ifs
      · exact hdelta
      · exact hdelta
  · rw [h.total_size, h.keys_eq, h.weigh_eq (fun _ _ => rfl) fun _ _ => rfl,
      hsum _ _ subset_rfl, hpool.total_size, add_comm]
  · rw [linkedAncestors, h.keys_eq, h.weigh_eq (fun _ _ => rfl) fun _ _ => rfl]
    rcases h.lookup_cases hx with ⟨rfl, rfl⟩ | ⟨hne, other, hother, rfl⟩
    · rw [htop.ancestry_new hAkeys hA, hsum _ _ hAkeys]
      rfl
    · have hancestors := hpool.ancestors_eq hother
      rw [htop.ancestry_of_ne hne, hold _ _ fun y hy => (mem_ancestry.1 hy).1]
      split_ifs
      · exact hancestors
      · exact hancestors
  · rw [linkedDescendants, h.keys_eq, h.weigh_eq (fun _ _ => rfl) fun _ _ => rfl]
    rcases h.lookup_cases hx with ⟨rfl, rfl⟩ | ⟨hne, other, hother, rfl⟩
    · rw [htop.progeny_new, sum_singleton, weigh_withEntry, if_pos rfl]
      exact newEntry_withDescendants tx nFee sigOpsCost
    · have hdescendants := hpool.descendants_eq hother
      have hsub : progeny pool.Linked pool.mapTx.keys x ⊆ pool.mapTx.keys := fun y hy =>
        (mem_progeny.1 hy).1
      rw [htop.progeny_of_ne hnkeys hA hne]
      split_ifs
      · rw [hsum _ _ hsub, withDescendants_setDescendants, hdescendants, add_comm]
        rfl
      · rw [hold _ _ hsub]
        exact hdescendants

theorem consistent (hpool : Consistent env pool) (hnew : IsNew env pool tx)
    (hA : ∀ y, y ∈ A ↔ ∃ p ∈ pool.inputParents tx, ReflTransGen pool.Linked p y)
    (hchildless : ∀ x e, pool.mapTx.lookup x = some e →
      ∀ txin ∈ e.tx.vin, txin.prevout.hash ≠ tx.getHash env.hash) :
    Consistent env after where
  toBookkept := h.bookkept hpool.toBookkept hnew hA
  linked_iff c p := by
    rw [(h.addsTop hpool.toParentsLinked hnew.fresh).edge_iff, hpool.linked_iff, Spends, Spends,
      h.mem_iff]
    constructor
    · rintro (⟨hp, other, hother, hin⟩ | ⟨rfl, hp⟩)
      · obtain ⟨e, he, htx⟩ := h.lookup_old hnew.fresh hother
        exact ⟨.inr hp, e, he, htx ▸ hin⟩
      · obtain ⟨hin, hp⟩ := mem_inputParents.1 hp
        exact ⟨.inr hp, _, (h.lookup_tx _).trans (if_pos rfl), hin⟩
    · rintro ⟨hp, e, he, hin⟩
      rcases h.lookup_cases he with ⟨rfl, rfl⟩ | ⟨-, other, hother, rfl⟩
      · obtain ⟨txin, htxin, rfl⟩ := hin
        have hmem := hp.resolve_left (hnew.not_own txin htxin)
        exact .inr ⟨rfl, mem_inputParents.2 ⟨⟨txin, htxin, rfl⟩, hmem⟩⟩
      · have hin' : ∃ txin ∈ other.tx.vin, txin.prevout.hash = p := by
          split_ifs at hin
          · exact hin
          · exact hin
        obtain ⟨txin, htxin, rfl⟩ := hin'
        have hmem := hp.resolve_left (hchildless c other hother txin htxin)
        exact .inl ⟨hmem, other, hother, txin, htxin, rfl⟩

end

end Added

end

end CTxMemPool

end Coinyecoin
