import Coinyecoin.Mempool.Bookkeeping

/-!
# Removing from the pool

`RemoveStaged` takes a set of entries off the totals and the links of the
others, and then out of the maps. Each of its loops does to every entry and to
every pair of links something that depends only on which entries were done, so
that its result is known at every key: `Removed` says what a pool has become
when a set was taken out.
-/

namespace Coinyecoin

open Foundation Relation Finset Finmap Option CTxMemPoolEntry

namespace CTxMemPool

variable {entry : CTxMemPoolEntry}

variable {r : uint256}

section

variable {env : PoolEnv} {pool : CTxMemPool}

theorem forEach_modify (pool : CTxMemPool) (s : SetEntries)
    (f : CTxMemPoolEntry → Except Fault CTxMemPoolEntry)
    (g : uint256 → CTxMemPoolEntry → CTxMemPoolEntry) (hmem : ∀ x ∈ s, x ∈ pool.mapTx)
    (hf : ∀ x entry, x ∈ s → pool.mapTx.lookup x = some entry → f entry = .ok (g x entry)) :
    ∃ mapTx, forEach byHash s (fun pool it => modify pool it f) pool =
        .ok { pool with mapTx := mapTx } ∧
      ∀ x, mapTx.lookup x =
        (pool.mapTx.lookup x).map fun entry => if x ∈ s then g x entry else entry :=
  forEach_rewrite byHash (fun mapTx => { pool with mapTx := mapTx }) g hmem
    fun mapTx x entry hx hold hnow => by
      rw [modify, deref_eq hnow, ok_bind, hf x entry hx hold, ok_bind]
      rfl

theorem forEach_updateLinks {pool : CTxMemPool} {s : SetEntries} {g : uint256 → TxLinks → TxLinks}
    (hmem : ∀ x ∈ s, x ∈ pool.mapLinks) :
    ∃ mapLinks, forEach byHash s (fun pool x => (.ok (updateLinks pool x (g x)) :
        Except Fault CTxMemPool)) pool = .ok { pool with mapLinks := mapLinks } ∧
      ∀ x, mapLinks.lookup x =
        (pool.mapLinks.lookup x).map fun links => if x ∈ s then g x links else links :=
  forEach_rewrite byHash (fun mapLinks => { pool with mapLinks := mapLinks }) g hmem
    fun mapLinks x links _ _ hnow => by simp [updateLinks, hnow]

/-- What `UpdateAncestorsOf` adds to the totals of an ancestor. -/
def signedOwn (env : PoolEnv) (add : Bool) (entry : CTxMemPoolEntry) : Totals :=
  if add then entry.own env else -entry.own env

theorem signedOwn_eq {add : Bool} :
    ((if add then 1 else -1 : Int64).toUInt64,
      ((if add then 1 else -1 : Int64) * (entry.getTxSize env).toInt64).toUInt64,
      (if add then 1 else -1 : Int64) * entry.getModifiedFee) = signedOwn env add entry := by
  cases add with
  | true =>
    simp only [signedOwn, own, if_true, Int64.one_mul, UInt64.toUInt64_toInt64]
    rfl
  | false =>
    simp only [signedOwn, own, Bool.false_eq_true, if_false, Int64.neg_mul,
      Int64.one_mul, Int64.toUInt64_neg, UInt64.toUInt64_toInt64]
    rfl

theorem updateAncestorsOf_spec (env : PoolEnv) (h : pool.ParentsLinked) (add : Bool)
    (hr : pool.mapTx.lookup r = some entry)
    (setAncestors : SetEntries) (hmem : ∀ a ∈ setAncestors, a ∈ pool.mapTx)
    (hpos : ∀ a ancestor, a ∈ setAncestors → pool.mapTx.lookup a = some ancestor →
      Totals.Positive (ancestor.withDescendants + signedOwn env add entry)) :
    ∃ mapTx mapLinks, pool.updateAncestorsOf env add r setAncestors =
        .ok { pool with mapTx := mapTx, mapLinks := mapLinks } ∧
      (∀ x, mapTx.lookup x = (pool.mapTx.lookup x).map fun other =>
        if x ∈ setAncestors then
          other.setDescendants (other.withDescendants + signedOwn env add entry)
        else other) ∧
      ∀ x, mapLinks.lookup x = (pool.mapLinks.lookup x).map fun links =>
        if x ∈ pool.parentsOf r then
          { links with
            children := if add then insert r links.children else links.children.erase r }
        else links := by
  obtain ⟨mapLinks, hlinks, hlinked⟩ := forEach_updateLinks
    fun p hp => (h.mem_links p).2 (h.parent_mem r p hp)
  have hchildren : forEach byHash (pool.parentsOf r)
      (fun pool piter => (.ok (updateChild pool piter r add) : Except Fault CTxMemPool)) pool =
        .ok { pool with mapLinks := mapLinks } := hlinks
  have hderef : deref { pool with mapLinks := mapLinks } r = .ok entry := deref_eq hr
  let updateCount : Int64 := if add then 1 else -1
  obtain ⟨mapTx, htotals, hmapTx⟩ := forEach_modify { pool with mapLinks := mapLinks } setAncestors
    (updateDescendantState (updateCount * (entry.getTxSize env).toInt64)
      (updateCount * entry.getModifiedFee) updateCount)
    (fun _ other => other.setDescendants (other.withDescendants + signedOwn env add entry)) hmem
    fun a ancestor ha hlookup =>
      updateDescendantState_eq (signedOwn_eq) (hpos a ancestor ha hlookup)
  refine ⟨mapTx, mapLinks, ?_, hmapTx, hlinked⟩
  rw [updateAncestorsOf, h.getMemPoolParents_eq (mem_of_lookup hr), ok_bind, hchildren, ok_bind,
    hderef, ok_bind]
  exact htotals

/-- The pool after the entries of `done` were taken off the totals of their descendants. -/
structure OffDescendants (env : PoolEnv) (pool : CTxMemPool) (done : SetEntries)
    (after : CTxMemPool) : Prop where
  rest : after = { pool with mapTx := after.mapTx }
  lookup_tx : ∀ x, after.mapTx.lookup x = (pool.mapTx.lookup x).map fun entry =>
    entry.setAncestors
      (∑ a ∈ ancestryLeft pool.Linked pool.mapTx.keys done x, pool.weigh (·.ownCost env) a)

theorem negOwn_eq (entry : CTxMemPoolEntry) :
    ((-1 : Int64).toUInt64, (-(entry.getTxSize env).toInt64).toUInt64, -entry.getModifiedFee) =
      -entry.own env := by
  simp only [own, Int64.toUInt64_neg, UInt64.toUInt64_toInt64]
  rfl

namespace OffDescendants

variable {done : SetEntries} {after : CTxMemPool}

section

variable (h : OffDescendants env pool done after)
include h

theorem mapLinks_eq : after.mapLinks = pool.mapLinks := by
  rw [h.rest]

theorem linked_eq : after.Linked = pool.Linked := by
  rw [h.rest]
  rfl

theorem linksAgree (hpool : pool.LinksAgree) : after.LinksAgree where
  mem_links x := by rw [h.mapLinks_eq, mem_map h.lookup_tx, hpool.mem_links]
  parent_mem c p hcp := by
    rw [mem_map h.lookup_tx]
    exact hpool.parent_mem c p (h.linked_eq ▸ hcp)
  child_iff c p := by
    rw [h.linked_eq, ← hpool.child_iff, childrenOf, h.mapLinks_eq]
    rfl

theorem step (hpool : Traceable env pool)
    (hfits : Fits env pool) (hr : r ∈ pool.mapTx) (hnew : r ∉ done) :
    ∃ next, after.updateDescendantsForRemoval env r = .ok next ∧
      OffDescendants env pool (insert r done) next := by
  obtain ⟨entry, hentry⟩ := exists_lookup hr
  let removed := entry.setAncestors
    (∑ a ∈ ancestryLeft pool.Linked pool.mapTx.keys done r, pool.weigh (·.ownCost env) a)
  have hafter : after.mapTx.lookup r = some removed := by
    rw [h.lookup_tx, hentry]
    rfl
  obtain ⟨S, hS, hmem⟩ := calculateDescendants_empty (h.linksAgree hpool.toLinksAgree)
    (mem_of_lookup hafter)
  rw [h.linked_eq] at hmem
  have hmem' := mem_erase_descendants hpool.acyclic hmem
  have hcost : ((-removed.sigOpCost).toInt32).toInt64 = -pool.weigh (·.sigOpCost) r := by
    have hnarrow := (hfits.narrow (S := {r}) (by simpa using mem_keys.2 hr)).2
    rw [sum_singleton] at hnarrow
    rw [← hnarrow, weigh_eq hentry]
    rfl
  have hchange : (((-1 : Int64).toUInt64, (-(removed.getTxSize env).toInt64).toUInt64,
      -removed.getModifiedFee), ((-removed.sigOpCost).toInt32).toInt64) =
      -pool.weigh (·.ownCost env) r := by
    rw [negOwn_eq, hcost, weigh_ownCost, weigh_eq hentry (·.own env)]
    rfl
  have hleft : ∀ y, y ∈ S.erase r →
      ∑ a ∈ ancestryLeft pool.Linked pool.mapTx.keys done y, pool.weigh (·.ownCost env) a +
        -pool.weigh (·.ownCost env) r =
      ∑ a ∈ ancestryLeft pool.Linked pool.mapTx.keys (insert r done) y,
        pool.weigh (·.ownCost env) a := by
    intro y hy
    rw [sum_ancestryLeft_insert hpool.acyclic (mem_keys.2 hr) hnew ((hmem' y).1 hy), sub_eq_add_neg]
  obtain ⟨mapTx, hrun, htx⟩ := forEach_modify after (S.erase r)
    (updateAncestorState (-(removed.getTxSize env).toInt64)
      (-removed.getModifiedFee) (-1) (-removed.sigOpCost).toInt32)
    (fun _ other => other.setAncestors (other.withAncestors + -pool.weigh (·.ownCost env) r))
    (fun y hy => (mem_map h.lookup_tx y).2
      (hpool.mem_of_reach_left hr ((hmem' y).1 hy).to_reflTransGen))
    (fun y other hy hlookup => by
      rw [h.lookup_tx, map_eq_some_iff] at hlookup
      obtain ⟨before, hbefore, rfl⟩ := hlookup
      refine updateAncestorState_eq hchange ?_
      rw [withAncestors_setAncestors, hleft y hy]
      exact hfits.costPositive hpool.weighed (ancestryLeft_subset y)
        (self_mem_ancestryLeft (mem_keys.2 (mem_of_lookup hbefore))))
  refine ⟨{ after with mapTx := mapTx }, ?_, ?_, fun x => ?_⟩
  · rw [updateDescendantsForRemoval, hS, ok_bind, deref_eq hafter, ok_bind]
    exact hrun
  · rw [h.rest]
  · rw [htx, h.lookup_tx, Option.map_map]
    refine map_congr fun other _ => ?_
    rw [Function.comp_apply, withAncestors_setAncestors]
    split_ifs with hx
    · rw [hleft x hx, setAncestors_setAncestors]
    · rw [ancestryLeft_insert_of_not fun hxr => hx ((hmem' x).2 hxr)]

end

theorem start (hpool : Bookkept env pool) : OffDescendants env pool ∅ pool := by
  refine ⟨rfl, fun x => ?_⟩
  rw [ancestryLeft_empty]
  cases hlookup : pool.mapTx.lookup x with
  | none => rfl
  | some entry =>
    rw [map_some, ← linkedAncestors, ← hpool.ancestors_eq hlookup]
    rfl

theorem forEach_returns (hpool : Bookkept env pool) (hfits : Fits env pool)
    {R : SetEntries} (hR : R ⊆ pool.mapTx.keys) (updateDescendants : Bool) :
    ∃ after, (if updateDescendants then
          forEach byHash R (updateDescendantsForRemoval env) pool
        else .ok pool) = .ok after ∧
      OffDescendants env pool (if updateDescendants then R else ∅) after := by
  cases updateDescendants with
  | false => exact ⟨pool, rfl, start hpool⟩
  | true =>
    exact Foundation.forEach_returns byHash (OffDescendants env pool)
      (fun done r after hr hnew _ h => h.step hpool.toTraceable hfits
        (mem_keys.1 (hR hr)) hnew) (start hpool)

section

variable (h : OffDescendants env pool done after)
include h

theorem traceable (hpool : Traceable env pool) : Traceable env after where
  toLinksAgree := h.linksAgree hpool.toLinksAgree
  entry_hash hx := by
    rw [h.lookup_tx, map_eq_some_iff] at hx
    obtain ⟨entry, hentry, rfl⟩ := hx
    have hhash := hpool.entry_hash hentry
    exact hhash
  weighed x entry hx := by
    rw [h.lookup_tx, map_eq_some_iff] at hx
    obtain ⟨entry, hentry, rfl⟩ := hx
    exact hpool.weighed x entry hentry
  acyclic := h.linked_eq ▸ hpool.acyclic

theorem weigh_eq {M : Type} [Zero M]
    {w : CTxMemPoolEntry → M} (hw : ∀ entry totals, w (entry.setAncestors totals) = w entry) :
    after.weigh w = pool.weigh w :=
  weigh_map h.lookup_tx fun _ entry => hw entry _

theorem fits (hfits : Fits env pool) : Fits env after := by
  have hsize := h.weigh_eq (w := (·.virtualSize env)) fun _ _ => rfl
  have hcost := h.weigh_eq (w := fun entry => entry.sigOpCost.toInt) fun _ _ => rfl
  refine ⟨?_, ?_, ?_⟩
  · rw [keys_map h.lookup_tx, hsize]
    exact hfits.size_lt
  · rw [keys_map h.lookup_tx, hcost]
    exact hfits.cost_nonneg
  · rw [keys_map h.lookup_tx, hcost]
    exact hfits.cost_lt

end

end OffDescendants

/-- The pool after the entries of `done` were taken off the totals of their ancestors and off the
children of their parents. -/
structure OffAncestors (env : PoolEnv) (pool : CTxMemPool) (done : SetEntries)
    (after : CTxMemPool) : Prop where
  rest : after = { pool with mapTx := after.mapTx, mapLinks := after.mapLinks }
  lookup_tx : ∀ x, after.mapTx.lookup x = (pool.mapTx.lookup x).map fun entry =>
    entry.setDescendants
      (∑ y ∈ progenyLeft pool.Linked pool.mapTx.keys done x, pool.weigh (·.own env) y)
  lookup_links : ∀ x, after.mapLinks.lookup x = (pool.mapLinks.lookup x).map fun links =>
    { links with children := links.children \ done }

namespace OffAncestors

variable {done : SetEntries} {after : CTxMemPool}

section

variable (h : OffAncestors env pool done after)
include h

theorem parentsOf_eq : after.parentsOf = pool.parentsOf :=
  parentsOf_map h.lookup_links fun _ _ => rfl

theorem linked_eq : after.Linked = pool.Linked :=
  linked_map h.parentsOf_eq

theorem parentsLinked (hpool : pool.ParentsLinked) : after.ParentsLinked where
  mem_links x := by
    rw [mem_links_map h.lookup_links, mem_map h.lookup_tx, hpool.mem_links]
  parent_mem c p hcp := by
    rw [mem_map h.lookup_tx]
    exact hpool.parent_mem c p (h.linked_eq ▸ hcp)

theorem step (hpool : Traceable env pool)
    (hfits : Fits env pool) (hr : r ∈ pool.mapTx) (hnew : r ∉ done) :
    ∃ next, after.updateAncestorsForRemoval env r = .ok next ∧
      OffAncestors env pool (insert r done) next := by
  obtain ⟨entry, hentry⟩ := exists_lookup hr
  have hafter : after.mapTx.lookup r = some (entry.setDescendants
      (∑ y ∈ progenyLeft pool.Linked pool.mapTx.keys done r, pool.weigh (·.own env) y)) := by
    rw [h.lookup_tx, hentry]
    rfl
  have hlinked := h.parentsLinked hpool.toParentsLinked
  obtain ⟨found, hfound, hmem⟩ := calculateMemPoolAncestors_noLimit hlinked hafter
    (show entry.tx.getHash env.hash = r from hpool.entry_hash hentry)
  rw [h.linked_eq] at hmem
  have hown : signedOwn env false (entry.setDescendants
      (∑ y ∈ progenyLeft pool.Linked pool.mapTx.keys done r, pool.weigh (·.own env) y)) =
      -pool.weigh (·.own env) r := by
    rw [weigh_eq hentry]
    rfl
  -- what an ancestor is left with is a sum over entries of which it is one
  have hleft : ∀ a, a ∈ found →
      ∑ y ∈ progenyLeft pool.Linked pool.mapTx.keys done a, pool.weigh (·.own env) y +
        -pool.weigh (·.own env) r =
      ∑ y ∈ progenyLeft pool.Linked pool.mapTx.keys (insert r done) a,
        pool.weigh (·.own env) y := by
    intro a ha
    rw [sum_progenyLeft_insert hpool.acyclic (mem_keys.2 hr) hnew ((hmem a).1 ha), sub_eq_add_neg]
  obtain ⟨mapTx, mapLinks, hrun, htx, hlinks⟩ := updateAncestorsOf_spec env hlinked false hafter
    found
    (fun a ha => (mem_map h.lookup_tx a).2
      (hpool.mem_of_reach hr ((hmem a).1 ha).to_reflTransGen))
    (fun a ancestor ha hlookup => by
      rw [h.lookup_tx, map_eq_some_iff] at hlookup
      obtain ⟨before, hbefore, rfl⟩ := hlookup
      rw [withDescendants_setDescendants, hown, hleft a ha]
      exact hfits.positive hpool.weighed (progenyLeft_subset a)
        (self_mem_progenyLeft (mem_keys.2 (mem_of_lookup hbefore))))
  refine ⟨{ after with mapTx := mapTx, mapLinks := mapLinks }, ?_, ?_, fun x => ?_, fun x => ?_⟩
  · rw [updateAncestorsForRemoval, deref_eq hafter, ok_bind, hfound, ok_bind]
    exact hrun
  · rw [h.rest]
  · rw [htx, h.lookup_tx, Option.map_map]
    refine map_congr fun other _ => ?_
    rw [Function.comp_apply, withDescendants_setDescendants, hown]
    split_ifs with hx
    · rw [hleft x hx, setDescendants_setDescendants]
    · rw [progenyLeft_insert_of_not fun hrx => hx ((hmem x).2 hrx)]
  · rw [hlinks, h.lookup_links, Option.map_map, h.parentsOf_eq]
    refine map_congr fun links hlookup => ?_
    have hchildren : pool.childrenOf x = links.children := by
      rw [childrenOf, hlookup]
      rfl
    rw [Function.comp_apply, sdiff_insert]
    by_cases hx : x ∈ pool.parentsOf r
    · rw [if_pos hx]
      rfl
    · -- no parent of `r`, so `r` was no child of it
      rw [if_neg hx, erase_eq_of_notMem]
      intro hmem'
      refine hx ((hpool.child_iff r x).1 ?_)
      rw [hchildren]
      exact (mem_sdiff.1 hmem').1

end

theorem forEach_returns (hpool : Traceable env pool) (hfits : Fits env pool)
    (hdesc : ∀ x entry, pool.mapTx.lookup x = some entry →
      entry.withDescendants = ∑ y ∈ pool.linkedDescendants x, pool.weigh (·.own env) y)
    {R : SetEntries} (hR : R ⊆ pool.mapTx.keys) :
    ∃ after, forEach byHash R (updateAncestorsForRemoval env) pool = .ok after ∧
      OffAncestors env pool R after := by
  refine Foundation.forEach_returns byHash (OffAncestors env pool)
    (fun done r after hr hnew _ h => h.step hpool hfits (mem_keys.1 (hR hr)) hnew)
    ⟨rfl, fun x => ?_, fun x => ?_⟩
  · rw [progenyLeft_empty]
    cases hlookup : pool.mapTx.lookup x with
    | none => rfl
    | some entry =>
      rw [map_some, ← linkedDescendants, ← hdesc x entry hlookup]
      rfl
  · simp

end OffAncestors

variable {R : SetEntries}

/-- The pool after the entries of `done` were taken off the parents of the entries that stay. -/
structure OffParents (pool : CTxMemPool) (R done : SetEntries) (after : CTxMemPool) : Prop where
  rest : after = { pool with mapLinks := after.mapLinks }
  lookup_links : ∀ x, after.mapLinks.lookup x = (pool.mapLinks.lookup x).map fun links =>
    { links with parents := if x ∈ R then links.parents else links.parents \ done }

namespace OffParents

variable {done : SetEntries} {after : CTxMemPool}

/-- One round of the loop; the children of a removed entry are those that stay. -/
theorem step (h : OffParents pool R done after) (hmem : ∀ x, x ∈ pool.mapLinks ↔ x ∈ pool.mapTx)
    (hchild : ∀ c p, c ∈ pool.childrenOf p ↔ pool.Linked c p ∧ c ∉ R) (hr : r ∈ pool.mapTx) :
    ∃ next, after.updateChildrenForRemoval r = .ok next ∧ OffParents pool R (insert r done) next := by
  have hmapTx : after.mapTx = pool.mapTx := by rw [h.rest]
  have hchildren : after.childrenOf r = pool.childrenOf r := by
    rw [childrenOf, childrenOf, h.lookup_links]
    cases pool.mapLinks.lookup r with
    | none => rfl
    | some links => rfl
  have hget : after.getMemPoolChildren r = .ok (pool.childrenOf r) := by
    rw [getMemPoolChildren, getLinks_eq (hmapTx ▸ hr)
      ((mem_links_map h.lookup_links r).2 ((hmem r).2 hr)), ← hchildren]
    rfl
  obtain ⟨mapLinks, hrun, hlinks⟩ := forEach_updateLinks
    fun c hc => (mem_links_map h.lookup_links c).2 ((hchild c r).1 hc).1.mem_links
  refine ⟨{ after with mapLinks := mapLinks }, ?_, ?_, fun x => ?_⟩
  · rw [updateChildrenForRemoval, hget, ok_bind]
    exact hrun
  · rw [h.rest]
  · rw [hlinks, h.lookup_links, Option.map_map]
    refine map_congr fun links hlookup => ?_
    have hparents : pool.parentsOf x = links.parents := by
      rw [parentsOf, hlookup]
      rfl
    rw [Function.comp_apply, sdiff_insert]
    by_cases hc : x ∈ pool.childrenOf r
    · rw [if_pos hc, if_neg ((hchild x r).1 hc).2, if_neg ((hchild x r).1 hc).2]
      rfl
    · rw [if_neg hc]
      split_ifs with hxR
      · rfl
      · rw [erase_eq_of_notMem]
        intro hmem'
        refine hc ((hchild x r).2 ⟨?_, hxR⟩)
        rw [Linked, hparents]
        exact (mem_sdiff.1 hmem').1

theorem forEach_returns (hmem : ∀ x, x ∈ pool.mapLinks ↔ x ∈ pool.mapTx)
    (hchild : ∀ c p, c ∈ pool.childrenOf p ↔ pool.Linked c p ∧ c ∉ R) (hR : R ⊆ pool.mapTx.keys) :
    ∃ after, forEach byHash R updateChildrenForRemoval pool = .ok after ∧
      OffParents pool R R after :=
  Foundation.forEach_returns byHash (OffParents pool R)
    (fun _ _ _ hr _ _ h => h.step hmem hchild (mem_keys.1 (hR hr))) ⟨rfl, by simp⟩

end OffParents

end

section

variable {env : PoolEnv} {pool : CTxMemPool}

theorem lookup_eraseInputs (vin : List CTxIn) (m : Finmap fun _ : COutPoint => CTransaction)
    (out : COutPoint) (tx : CTransaction) :
    (vin.foldl (fun m txin => m.erase txin.prevout) m).lookup out = some tx ↔
      m.lookup out = some tx ∧ ∀ txin ∈ vin, txin.prevout ≠ out := by
  induction vin generalizing m with
  | nil => simp
  | cons txin vin ih =>
    rw [List.foldl_cons, ih, List.forall_mem_cons]
    by_cases hout : txin.prevout = out
    · simp [hout]
    · simp [lookup_erase_ne fun h => hout h.symm, hout]

structure Erased (env : PoolEnv) (pool : CTxMemPool) (done : SetEntries) (after : CTxMemPool) :
    Prop where
  mapDeltas_eq : after.mapDeltas = pool.mapDeltas
  lookup_tx : ∀ x, after.mapTx.lookup x = if x ∈ done then none else pool.mapTx.lookup x
  lookup_links : ∀ x, after.mapLinks.lookup x = if x ∈ done then none else pool.mapLinks.lookup x
  lookup_next : ∀ out tx, after.mapNextTx.lookup out = some tx ↔
    pool.mapNextTx.lookup out = some tx ∧ ∀ r ∈ done, ∀ entry, pool.mapTx.lookup r = some entry →
      ∀ txin ∈ entry.tx.vin, txin.prevout ≠ out
  total_size : after.totalTxSize = pool.totalTxSize - ∑ r ∈ done, pool.weigh (·.getTxSize env) r

namespace Erased

variable {done : SetEntries} {after : CTxMemPool}

theorem step (h : Erased env pool done after) (hr : r ∈ pool.mapTx) (hnew : r ∉ done) :
    ∃ next, after.removeUnchecked env r = .ok next ∧ Erased env pool (insert r done) next := by
  obtain ⟨entry, hentry⟩ := exists_lookup hr
  have hafter : after.mapTx.lookup r = some entry := by rw [h.lookup_tx, if_neg hnew, hentry]
  refine ⟨{ after with
    mapNextTx := entry.tx.vin.foldl (fun m txin => m.erase txin.prevout) after.mapNextTx
    totalTxSize := after.totalTxSize - entry.getTxSize env
    mapLinks := after.mapLinks.erase r
    mapTx := after.mapTx.erase r }, ?_, h.mapDeltas_eq, fun x => ?_, fun x => ?_,
    fun out tx => ?_, ?_⟩
  · rw [removeUnchecked, deref_eq hafter, ok_bind]
    rfl
  · by_cases hx : x = r
    · subst hx
      simp
    · simp [lookup_erase_ne hx, h.lookup_tx, hx]
  · by_cases hx : x = r
    · subst hx
      simp
    · simp [lookup_erase_ne hx, h.lookup_links, hx]
  · rw [lookup_eraseInputs, h.lookup_next, forall_mem_insert, and_assoc]
    refine and_congr_right fun _ => and_comm.trans (and_congr_left fun _ => ?_)
    simp [hentry]
  · rw [sum_insert hnew, weigh_eq hentry, add_comm (entry.getTxSize env), ← sub_sub, ← h.total_size]

theorem forEach_returns (env : PoolEnv) {R : SetEntries} (hR : R ⊆ pool.mapTx.keys) :
    ∃ after, forEach byHash R (removeUnchecked env) pool = .ok after ∧ Erased env pool R after :=
  Foundation.forEach_returns byHash (Erased env pool)
    (fun _ _ _ hr hnew _ h => h.step (mem_keys.1 (hR hr)) hnew)
    ⟨rfl, by simp, by simp, by simp, by simp⟩

end Erased

/-- The pool after the entries of `R` were removed: what is left has the totals and the links of
the others. -/
structure Removed (env : PoolEnv) (pool : CTxMemPool) (R : SetEntries) (after : CTxMemPool) :
    Prop where
  mapDeltas_eq : after.mapDeltas = pool.mapDeltas
  lookup_tx : ∀ x, after.mapTx.lookup x = if x ∈ R then none else
    (pool.mapTx.lookup x).map fun entry =>
      (entry.setAncestors
        (∑ a ∈ pool.linkedAncestors x \ R, pool.weigh (·.ownCost env) a)).setDescendants
          (∑ y ∈ pool.linkedDescendants x \ R, pool.weigh (·.own env) y)
  lookup_links : ∀ x, after.mapLinks.lookup x = if x ∈ R then none else
    (pool.mapLinks.lookup x).map fun links => ⟨links.parents \ R, links.children \ R⟩
  lookup_next : ∀ out tx, after.mapNextTx.lookup out = some tx ↔
    pool.mapNextTx.lookup out = some tx ∧ ∀ r ∈ R, ∀ entry, pool.mapTx.lookup r = some entry →
      ∀ txin ∈ entry.tx.vin, txin.prevout ≠ out
  total_size : after.totalTxSize = pool.totalTxSize - ∑ r ∈ R, pool.weigh (·.getTxSize env) r

theorem removeStaged_returns (hpool : Bookkept env pool) (hfits : Fits env pool)
    {R : SetEntries} (hR : R ⊆ pool.mapTx.keys) (updateDescendants : Bool)
    (hstay : updateDescendants = false → ∀ x a, x ∉ R → ReflTransGen pool.Linked x a → a ∉ R) :
    ∃ after, pool.removeStaged env R updateDescendants = .ok after ∧
      Removed env pool R after := by
  obtain ⟨p₁, hrun₁, h₁⟩ := OffDescendants.forEach_returns hpool hfits hR updateDescendants
  have hkeys₁ := keys_map h₁.lookup_tx
  have hown₁ := h₁.weigh_eq (w := (·.own env)) fun _ _ => rfl
  have hdesc : ∀ x entry, p₁.mapTx.lookup x = some entry →
      entry.withDescendants = ∑ y ∈ p₁.linkedDescendants x, p₁.weigh (·.own env) y := by
    intro x entry hx
    rw [h₁.lookup_tx, map_eq_some_iff] at hx
    obtain ⟨before, hbefore, rfl⟩ := hx
    rw [withDescendants_setAncestors, hpool.descendants_eq hbefore, hown₁,
      linkedDescendants, linkedDescendants, hkeys₁, h₁.linked_eq]
  obtain ⟨p₂, hrun₂, h₂⟩ := OffAncestors.forEach_returns (h₁.traceable hpool.toTraceable)
    (h₁.fits hfits) hdesc (hkeys₁ ▸ hR)
  have hkeys₂ := (keys_map h₂.lookup_tx).trans hkeys₁
  have hlinks₁ := h₁.linksAgree hpool.toLinksAgree
  have hchild₂ : ∀ c p, c ∈ p₂.childrenOf p ↔ p₂.Linked c p ∧ c ∉ R := by
    intro c p
    have hsdiff : p₂.childrenOf p = p₁.childrenOf p \ R := by
      rw [childrenOf, childrenOf, h₂.lookup_links]
      cases p₁.mapLinks.lookup p with
      | none => exact (empty_sdiff R).symm
      | some links => rfl
    rw [hsdiff, mem_sdiff, h₂.linked_eq, hlinks₁.child_iff]
  obtain ⟨p₃, hrun₃, h₃⟩ := OffParents.forEach_returns
    (h₂.parentsLinked hlinks₁.toParentsLinked).mem_links hchild₂ (hkeys₂ ▸ hR)
  have hmapTx₃ : p₃.mapTx = p₂.mapTx := by rw [h₃.rest]
  have hR₃ : R ⊆ p₃.mapTx.keys := by
    rw [hmapTx₃, hkeys₂]
    exact hR
  obtain ⟨p₄, hrun₄, h₄⟩ := Erased.forEach_returns env hR₃
  -- an entry and its links just before they are erased or not
  have hlookup₃ : ∀ x, p₃.mapTx.lookup x = (pool.mapTx.lookup x).map fun entry =>
      (entry.setAncestors (∑ a ∈ ancestryLeft pool.Linked pool.mapTx.keys
        (if updateDescendants then R else ∅) x, pool.weigh (·.ownCost env) a)).setDescendants
          (∑ y ∈ progenyLeft pool.Linked pool.mapTx.keys R x, pool.weigh (·.own env) y) := by
    intro x
    rw [hmapTx₃, h₂.lookup_tx, h₁.lookup_tx, Option.map_map, hown₁, hkeys₁, h₁.linked_eq]
    rfl
  have hlinks₃ : ∀ x, p₃.mapLinks.lookup x = (pool.mapLinks.lookup x).map fun links =>
      ⟨if x ∈ R then links.parents else links.parents \ R, links.children \ R⟩ := by
    intro x
    rw [h₃.lookup_links, h₂.lookup_links, h₁.mapLinks_eq, Option.map_map]
    rfl
  have hnext₃ : p₃.mapNextTx = pool.mapNextTx := by rw [h₃.rest, h₂.rest, h₁.rest]
  have hsize₃ : p₃.weigh (·.getTxSize env) = pool.weigh (·.getTxSize env) :=
    weigh_map hlookup₃ fun _ _ => rfl
  refine ⟨p₄, ?_, ?_, fun x => ?_, fun x => ?_, fun out tx => ?_, ?_⟩
  · rw [removeStaged, updateForRemoveFromMempool, hrun₁, ok_bind, hrun₂, ok_bind, hrun₃, ok_bind,
      hrun₄]
  · rw [h₄.mapDeltas_eq, h₃.rest, h₂.rest, h₁.rest]
  · rw [h₄.lookup_tx, hlookup₃]
    split_ifs with hx hupdate
    · rfl
    · rw [ancestryLeft_of_notMem hx, progenyLeft_of_notMem hx]
      rfl
    · have hkept : pool.linkedAncestors x \ R = pool.linkedAncestors x :=
        sdiff_eq_self_of_disjoint (disjoint_left.2 fun a ha =>
          hstay (by simpa using hupdate) x a hx (mem_ancestry.1 ha).2)
      rw [ancestryLeft_empty, progenyLeft_of_notMem hx, hkept]
      rfl
  · rw [h₄.lookup_links, hlinks₃]
    split_ifs with hx
    · rfl
    · rfl
  · rw [h₄.lookup_next, hnext₃]
    refine and_congr_right fun _ => forall₂_congr fun r _ => ?_
    rw [hlookup₃]
    cases pool.mapTx.lookup r with
    | none => simp
    | some entry =>
      simp only [map_some, Option.some.injEq, forall_eq']
      rfl
  · rw [h₄.total_size, hsize₃, h₃.rest, h₂.rest, h₁.rest]

end

end CTxMemPool

end Coinyecoin
