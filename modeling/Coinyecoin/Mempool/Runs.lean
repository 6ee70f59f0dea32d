import Coinyecoin.Mempool.Prioritising

/-!
# Runs of the pool

Every pool that the operations lead to from the empty one is accounted for: its
maps agree with the inputs of its transactions and its totals are the true ones.
From it every operation that meets its conditions returns, so that no assert
fires. The conditions keep the whole pool in range; an entry beyond it trips an
assert on the totals.
-/

namespace Coinyecoin

open Foundation Relation Finset

variable {tx : CTransaction} {nFee sigOpsCost : Int64} {after : CTxMemPool}

/-- What is done to a pool. A transaction is added with the ancestors that the search finds
within the limits. -/
inductive PoolOp where
  | add (tx : CTransaction) (nFee sigOpsCost : Int64) (limits : AncestorLimits)
  | removeRecursive (origTx : CTransaction)
  | removeStaged (stage : SetEntries)
  | removeConfirmed (it : uint256)
  | prioritise (hash : uint256) (nFeeDelta : Int64)

namespace CTxMemPool

variable {env : PoolEnv} {pool : CTxMemPool}

def apply (env : PoolEnv) (pool : CTxMemPool) : PoolOp → Except Fault CTxMemPool
  | .add tx nFee sigOpsCost limits => do
    let entry := CTxMemPoolEntry.create env tx nFee sigOpsCost
    let (setAncestors, errString) ← pool.calculateMemPoolAncestors env entry limits true
    if errString.isSome then return pool
    else pool.addUnchecked env (tx.getHash env.hash) entry setAncestors
  | .removeRecursive origTx => pool.removeRecursive env origTx
  | .removeStaged stage => pool.removeStaged env stage false
  | .removeConfirmed it => pool.removeStaged env {it} true
  | .prioritise hash nFeeDelta => pool.prioritiseTransaction env hash nFeeDelta

def Childless (env : PoolEnv) (pool : CTxMemPool) (tx : CTransaction) : Prop :=
  ∀ x entry, pool.mapTx.lookup x = some entry →
    ∀ txin ∈ entry.tx.vin, txin.prevout.hash ≠ tx.getHash env.hash

/-- When an operation may be called. What is added must leave the pool in range. -/
def Allowed (env : PoolEnv) (pool : CTxMemPool) : PoolOp → Prop
  | .add tx nFee sigOpsCost _ => IsNew env pool tx ∧ Childless env pool tx ∧
      Fits env (pool.withEntry (tx.getHash env.hash) (newEntry env pool tx nFee sigOpsCost))
  | .removeRecursive _ => True
  | .removeStaged stage => stage ⊆ pool.mapTx.keys ∧ ∀ c p, pool.Spends c p → p ∈ stage → c ∈ stage
  | .removeConfirmed it => it ∈ pool.mapTx ∧ ∀ p, ¬ pool.Spends it p
  | .prioritise _ _ => True

inductive Reached (env : PoolEnv) : CTxMemPool → Prop
  | init : Reached env init
  | step {pool after : CTxMemPool} {op : PoolOp} : Reached env pool → Allowed env pool op →
      pool.apply env op = .ok after → Reached env after

theorem consistent_init : Consistent env init where
  mem_links x := Iff.rfl
  parent_mem c p hcp := absurd hcp (Finset.notMem_empty p)
  child_iff c p := iff_of_false (Finset.notMem_empty c) (Finset.notMem_empty p)
  entry_hash hx := by simp [init] at hx
  weighed x entry hx := by simp [init] at hx
  acyclic x hxx := by
    obtain ⟨p, hp, -⟩ := TransGen.head'_iff.1 hxx
    exact notMem_empty p hp
  next_iff out tx := by simp [init]
  delta_eq hx := by simp [init] at hx
  total_size := rfl
  ancestors_eq hx := by simp [init] at hx
  descendants_eq hx := by simp [init] at hx
  linked_iff c p := by simp [Linked, parentsOf, Spends, init, TxLinks.empty]

theorem fits_init : Fits env init :=
  ⟨by simp [init], fun x hx => absurd hx (notMem_empty x), by simp [init]⟩

theorem fits_withEntry (hfits : Fits env pool) {n : uint256} {entry : CTxMemPoolEntry}
    (hn : n ∉ pool.mapTx)
    (hsize : entry.virtualSize env +
      ∑ x ∈ pool.mapTx.keys, pool.weigh (·.virtualSize env) x < 2 ^ 63)
    (hcost : 0 ≤ entry.sigOpCost.toInt)
    (hsum : entry.sigOpCost.toInt +
      ∑ x ∈ pool.mapTx.keys, pool.weigh (fun other => other.sigOpCost.toInt) x < 2 ^ 31) :
    Fits env (pool.withEntry n entry) := by
  have hnkeys : n ∉ pool.mapTx.keys := fun h => hn (Finmap.mem_keys.1 h)
  refine ⟨?_, fun x hx => ?_, ?_⟩
  · rw [keys_withEntry, sum_withEntry _ _ hnkeys]
    exact hsize
  · rw [weigh_withEntry]
    split_ifs with hxn
    · exact hcost
    · rw [keys_withEntry, mem_insert, or_iff_right hxn] at hx
      exact hfits.cost_nonneg x hx
  · rw [keys_withEntry, sum_withEntry _ _ hnkeys]
    exact hsum

section

variable (hpool : Consistent env pool)
include hpool

theorem consistent_insertDelta {hash : uint256} (hhash : hash ∉ pool.mapTx) (delta : Int64) :
    Consistent env { pool with mapDeltas := pool.mapDeltas.insert hash delta } where
  mem_links := hpool.mem_links
  parent_mem := hpool.parent_mem
  child_iff := hpool.child_iff
  entry_hash := hpool.entry_hash
  weighed := hpool.weighed
  acyclic := hpool.acyclic
  next_iff := hpool.next_iff
  delta_eq {x entry} hx := by
    have hne : x ≠ hash := by
      rintro rfl
      exact hhash (mem_of_lookup hx)
    rw [Finmap.lookup_insert_of_ne _ hne]
    exact hpool.delta_eq hx
  total_size := hpool.total_size
  ancestors_eq := hpool.ancestors_eq
  descendants_eq := hpool.descendants_eq
  linked_iff := hpool.linked_iff

theorem add_returns (hnew : IsNew env pool tx) (hchildless : Childless env pool tx)
    (hfits : Fits env (pool.withEntry (tx.getHash env.hash)
      (newEntry env pool tx nFee sigOpsCost))) {A : SetEntries}
    (hA : ∀ y, y ∈ A ↔ ReachedFrom pool.Linked (pool.inputParents tx) y) :
    ∃ after, pool.addUnchecked env (tx.getHash env.hash) (.create env tx nFee sigOpsCost) A =
      .ok after ∧ Consistent env after ∧ Fits env after := by
  have hsub : A ⊆ pool.mapTx.keys := by
    intro y hy
    obtain ⟨p, hp, hpy⟩ := (hA y).1 hy
    exact Finmap.mem_keys.2 (hpool.mem_of_reach (mem_inputParents.1 hp).2 hpy)
  obtain ⟨after, hrun, hadded⟩ := addUnchecked_returns hpool.toBookkept hnew hfits hsub
  exact ⟨after, hrun, hadded.consistent hpool hnew hA hchildless, hadded.fits hfits⟩

theorem apply_returns (hfits : Fits env pool) {op : PoolOp} (hop : Allowed env pool op) :
    ∃ after, pool.apply env op = .ok after ∧ Consistent env after ∧ Fits env after := by
  cases op with
  | add tx nFee sigOpsCost limits =>
    obtain ⟨hnew, hchildless, hroom⟩ := hop
    obtain ⟨A, errString, hsearch, hA, -⟩ := calculateMemPoolAncestors_spec
      hpool.toParentsLinked (.create env tx nFee sigOpsCost) limits true nofun
    rw [apply, hsearch]
    cases errString with
    | some message => exact ⟨pool, rfl, hpool, hfits⟩
    | none => exact add_returns hpool hnew hchildless hroom (hA rfl)
  | removeRecursive origTx =>
    obtain ⟨-, R, after, -, -, hR, hrun, hremoved, hdrops⟩ :=
      removeRecursive_returns hpool.toBookkept hfits origTx
    exact ⟨after, hrun, hremoved.consistent hpool hR hdrops,
      hremoved.fits hpool.toTraceable hfits⟩
  | removeStaged stage =>
    obtain ⟨hstage, hclosed⟩ := hop
    obtain ⟨after, hrun, hremoved, hdrops⟩ := removeStaged_closed hpool.toBookkept hfits hstage
      fun c p hcp => hclosed c p ((hpool.linked_iff c p).1 hcp)
    exact ⟨after, hrun, hremoved.consistent hpool hstage hdrops,
      hremoved.fits hpool.toTraceable hfits⟩
  | removeConfirmed it =>
    obtain ⟨hit, hroot⟩ := hop
    obtain ⟨after, hrun, hremoved, hdrops⟩ := removeStaged_root hpool.toBookkept hfits hit
      fun p hp => hroot p ((hpool.linked_iff it p).1 hp)
    have hsub : {it} ⊆ pool.mapTx.keys := singleton_subset_iff.2 (Finmap.mem_keys.2 hit)
    exact ⟨after, hrun, hremoved.consistent hpool hsub hdrops,
      hremoved.fits hpool.toTraceable hfits⟩
  | prioritise hash nFeeDelta =>
    by_cases hhash : hash ∈ pool.mapTx
    · obtain ⟨A, D, after, hA, hD, hrun, hchanged⟩ :=
        prioritiseTransaction_returns hpool.toBookkept hfits hhash nFeeDelta
      exact ⟨after, hrun, hchanged.consistent hpool hhash hA hD, hchanged.fits hfits⟩
    · refine ⟨_, ?_, consistent_insertDelta hpool hhash
        ((pool.mapDeltas.lookup hash).getD 0 + nFeeDelta), ⟨hfits.1, hfits.2, hfits.3⟩⟩
      rw [apply, prioritiseTransaction, if_neg hhash]
      rfl

end

theorem reached_consistent (h : Reached env pool) : Consistent env pool ∧ Fits env pool := by
  induction h with
  | init => exact ⟨consistent_init, fits_init⟩
  | step _ hop hrun ih =>
    obtain ⟨after, hrun', hafter⟩ := apply_returns ih.1 ih.2 hop
    rw [hrun, Except.ok.injEq] at hrun'
    exact hrun' ▸ hafter

/-- A count and a size that are those of a set of entries, and a fee that is the sum of theirs as
far as a `CAmount` holds it. -/
def SumOver (env : PoolEnv) (pool : CTxMemPool) (S : SetEntries) (totals : Totals) : Prop :=
  totals.1.toNat = S.card ∧
    (totals.2.1.toNat : ℤ) = ∑ x ∈ S, pool.weigh (·.virtualSize env) x ∧
    totals.2.2.toInt =
      (∑ x ∈ S, pool.weigh (fun entry => entry.getModifiedFee.toInt) x).bmod (2 ^ 64)

structure Accounted (env : PoolEnv) (pool : CTxMemPool) : Prop where
  next_iff : ∀ out tx, pool.mapNextTx.lookup out = some tx ↔
    ∃ x entry, pool.mapTx.lookup x = some entry ∧ entry.tx = tx ∧
      ∃ txin ∈ tx.vin, txin.prevout = out
  mem_links : ∀ x, x ∈ pool.mapLinks ↔ x ∈ pool.mapTx
  parents_iff : ∀ c p, p ∈ pool.parentsOf c ↔ pool.Spends c p
  children_iff : ∀ c p, c ∈ pool.childrenOf p ↔ pool.Spends c p
  ancestors : ∀ x entry, pool.mapTx.lookup x = some entry →
    SumOver env pool (ancestry pool.Spends pool.mapTx.keys x) entry.withAncestors.1 ∧
      entry.nSigOpCostWithAncestors.toInt = ∑ a ∈ ancestry pool.Spends pool.mapTx.keys x,
        pool.weigh (fun other => other.sigOpCost.toInt) a
  descendants : ∀ x entry, pool.mapTx.lookup x = some entry →
    SumOver env pool (progeny pool.Spends pool.mapTx.keys x) entry.withDescendants
  total_size : (pool.totalTxSize.toNat : ℤ) =
    ∑ x ∈ pool.mapTx.keys, pool.weigh (·.virtualSize env) x

theorem sumOver_sum (hfits : Fits env pool) (hweight : pool.Weighed) {S : SetEntries}
    (hS : S ⊆ pool.mapTx.keys) : SumOver env pool S (∑ x ∈ S, pool.weigh (·.own env) x) := by
  obtain ⟨hcount, hsize, -⟩ := hfits.own_sum hweight hS
  refine ⟨hcount, hsize, ?_⟩
  have hfee : ∀ x ∈ S, (pool.weigh (·.own env) x).2.2.toInt =
      pool.weigh (fun entry => entry.getModifiedFee.toInt) x := by
    intro x hx
    obtain ⟨entry, hentry⟩ := exists_lookup (Finmap.mem_keys.1 (hS hx))
    rw [weigh_eq hentry, weigh_eq hentry]
    rfl
  rw [Prod.snd_sum, Prod.snd_sum, toInt_sum, sum_congr rfl hfee]

theorem Consistent.accounted (hpool : Consistent env pool) (hfits : Fits env pool) :
    Accounted env pool := by
  have hspends : pool.Spends = pool.Linked := by
    funext c p
    exact propext (hpool.linked_iff c p).symm
  refine ⟨hpool.next_iff, hpool.mem_links, hpool.linked_iff,
    fun c p => (hpool.child_iff c p).trans (hpool.linked_iff c p), fun x entry hx => ?_,
    fun x entry hx => ?_, ?_⟩
  · have hsub : pool.linkedAncestors x ⊆ pool.mapTx.keys := fun y hy => (mem_ancestry.1 hy).1
    have htotals := hpool.ancestors_eq hx
    rw [sum_ownCost, Prod.ext_iff] at htotals
    rw [hspends, htotals.1]
    exact ⟨sumOver_sum hfits hpool.weighed hsub,
      (congrArg Int64.toInt htotals.2).trans (hfits.cost_sum hsub).1⟩
  · rw [hspends, hpool.descendants_eq hx]
    exact sumOver_sum hfits hpool.weighed fun y hy => (mem_progeny.1 hy).1
  · have hsize : pool.weigh (·.getTxSize env) = fun x => (pool.weigh (·.own env) x).2.1 := by
      funext x
      rw [weigh, weigh]
      cases pool.mapTx.lookup x with
      | none => rfl
      | some entry => rfl
    rw [hpool.total_size, ← (hfits.own_sum hpool.weighed Finset.Subset.rfl).2.1, hsize,
      Prod.snd_sum, Prod.fst_sum]

/-- Whatever is done to the pool from the empty one on, within its conditions, the pool is
accounted for, and no operation that may be called fails. -/
theorem reached_accounted (h : Reached env pool) :
    Accounted env pool ∧
      ∀ op, Allowed env pool op → ∃ after, pool.apply env op = .ok after := by
  obtain ⟨hpool, hfits⟩ := reached_consistent h
  refine ⟨hpool.accounted hfits, fun op hop => ?_⟩
  obtain ⟨after, hrun, -⟩ := apply_returns hpool hfits hop
  exact ⟨after, hrun⟩

def sampleEnv : PoolEnv := ⟨fun bytes => BitVec.ofNat 256 bytes.length, 20⟩

def parentTx : CTransaction := ⟨1, [⟨⟨5, 0⟩, [], 0, []⟩], [⟨10, []⟩], 0⟩

def childTx : CTransaction :=
  ⟨1, [⟨⟨parentTx.getHash sampleEnv.hash, 0⟩, [], 0, []⟩], [⟨6, []⟩, ⟨3, []⟩], 0⟩

theorem allowed_parentTx : Allowed sampleEnv init (.add parentTx 5 4 nNoLimit) :=
  ⟨⟨Finmap.notMem_empty, fun _ _ => Finmap.notMem_empty, by decide +kernel⟩,
    fun _ _ hx => (nomatch hx), fits_withEntry fits_init Finmap.notMem_empty (by decide +kernel)
      (by decide +kernel) (by decide +kernel)⟩

theorem allowed_childTx (h : Reached sampleEnv pool)
    (hstate : pool = (init.apply sampleEnv (.add parentTx 5 4 nNoLimit)).toOption.getD init) :
    Allowed sampleEnv pool (.add childTx 1 8 nNoLimit) := by
  have hfresh : childTx.getHash sampleEnv.hash ∉ pool.mapTx := by
    rw [hstate]
    decide +kernel
  refine ⟨⟨hfresh, ?_, by decide +kernel⟩, fun x entry hx => ?_,
    fits_withEntry (reached_consistent h).2 hfresh ?_ ?_ ?_⟩
  · rw [hstate]
    decide +kernel
  · have hkeys : pool.mapTx.keys = {parentTx.getHash sampleEnv.hash} := by
      rw [hstate]
      decide +kernel
    have htx : (pool.mapTx.lookup (parentTx.getHash sampleEnv.hash)).map (·.tx) =
        some parentTx := by
      rw [hstate]
      decide +kernel
    obtain rfl := mem_singleton.1 (hkeys ▸ Finmap.mem_keys.2 (mem_of_lookup hx))
    rw [hx, Option.map_some, Option.some_inj] at htx
    rw [htx]
    decide +kernel
  all_goals
    rw [hstate]
    decide +kernel

/-- A pool of a transaction and one that spends its output. -/
theorem reached_accounted_family : ∃ pool, Reached sampleEnv pool ∧
    pool.Spends (childTx.getHash sampleEnv.hash) (parentTx.getHash sampleEnv.hash) ∧
    Accounted sampleEnv pool := by
  obtain ⟨parent, hparent⟩ := Option.isSome_iff_exists.1
    (show (init.apply sampleEnv (.add parentTx 5 4 nNoLimit)).toOption.isSome by decide +kernel)
  have hfirst : Reached sampleEnv parent := .step .init allowed_parentTx (eq_ok_of_toOption hparent)
  have hstate : parent =
      (init.apply sampleEnv (.add parentTx 5 4 nNoLimit)).toOption.getD init := by
    rw [hparent]
    rfl
  obtain ⟨pool, hpool⟩ := Option.isSome_iff_exists.1
    (show (parent.apply sampleEnv (.add childTx 1 8 nNoLimit)).toOption.isSome by
      rw [hstate]
      decide +kernel)
  have hreached := hfirst.step (allowed_childTx hfirst hstate) (eq_ok_of_toOption hpool)
  have hstate' : pool =
      (parent.apply sampleEnv (.add childTx 1 8 nNoLimit)).toOption.getD init := by
    rw [hpool]
    rfl
  have hchild : (pool.mapTx.lookup (childTx.getHash sampleEnv.hash)).map (·.tx) =
      some childTx := by
    rw [hstate', hstate]
    decide +kernel
  obtain ⟨entry, hentry, htx⟩ := Option.map_eq_some_iff.1 hchild
  refine ⟨pool, hreached, ⟨?_, entry, hentry, ?_⟩, (reached_accounted hreached).1⟩
  · rw [hstate', hstate]
    decide +kernel
  · rw [htx]
    decide +kernel

theorem costPositive_of_add_init (hown : ∀ txin ∈ tx.vin, txin.prevout.hash ≠ tx.getHash env.hash)
    (h : init.apply env (.add tx nFee sigOpsCost nNoLimit) = .ok after) :
    CostPositive ((newEntry env init tx nFee sigOpsCost).ownCost env) := by
  have hinit : Consistent env init := consistent_init
  have hnew : IsNew env init tx := ⟨Finmap.notMem_empty, fun _ _ => Finmap.notMem_empty, hown⟩
  have hparents : init.inputParents tx = ∅ :=
    eq_empty_of_forall_notMem fun p hp => Finmap.notMem_empty (mem_inputParents.1 hp).2
  obtain ⟨A, errString, hsearch, hA, hnone⟩ := calculateMemPoolAncestors_spec
    hinit.toParentsLinked (.create env tx nFee sigOpsCost) nNoLimit true nofun
  obtain rfl := hnone rfl
  obtain rfl : A = ∅ := by
    refine eq_empty_of_forall_notMem fun y hy => ?_
    obtain ⟨p, hp, -⟩ := (hA rfl y).1 hy
    exact notMem_empty p (hparents ▸ hp)
  rw [apply, hsearch] at h
  replace h : init.addUnchecked env (tx.getHash env.hash) (.create env tx nFee sigOpsCost) ∅ =
    .ok after := h
  obtain ⟨before, entered, hdelta, hlookup, hlink, hentered⟩ :=
    enter_returns hinit.toBookkept hnew nFee sigOpsCost
  have hentry := (hentered.lookup_tx _).trans (if_pos rfl)
  have hup : entered.updateAncestorsOf env true (tx.getHash env.hash) ∅ = .ok entered := by
    have hnone : entered.parentsOf (tx.getHash env.hash) = ∅ := by
      rw [hentered.parentsOf_eq, if_pos rfl]
      exact hparents
    refine bind_eq_ok.2 ⟨∅, ?_, bind_eq_ok.2 ⟨entered, forEach_empty _ _ _,
      bind_eq_ok.2 ⟨_, deref_eq hentry, forEach_empty _ _ _⟩⟩⟩
    rw [(hentered.parentsLinked hinit.toParentsLinked).getMemPoolParents_eq
      (mem_of_lookup hentry), hnone]
  simp only [addUnchecked] at h
  obtain ⟨p₁, h₁, h⟩ := bind_eq_ok.1 h
  obtain rfl := Except.ok.inj (hdelta.symm.trans h₁)
  obtain ⟨e₁, he₁, h⟩ := bind_eq_ok.1 h
  obtain rfl := Except.ok.inj ((deref_eq hlookup).symm.trans he₁)
  obtain ⟨p₂, h₂, h⟩ := bind_eq_ok.1 h
  obtain rfl := Except.ok.inj (hlink.symm.trans h₂)
  obtain ⟨p₃, h₃, h⟩ := bind_eq_ok.1 h
  obtain rfl := Except.ok.inj (hup.symm.trans h₃)
  obtain ⟨p₄, h₄, -⟩ := bind_eq_ok.1 h
  obtain ⟨sums, hsums, h₄⟩ := bind_eq_ok.1 h₄
  obtain rfl := Except.ok.inj ((forEach_empty _ _ _).symm.trans hsums)
  obtain ⟨e, he, h₄⟩ := bind_eq_ok.1 h₄
  obtain rfl := Except.ok.inj ((deref_eq hentry).symm.trans he)
  obtain ⟨_, hstate, -⟩ := bind_eq_ok.1 h₄
  have hpos := CTxMemPoolEntry.costPositive_of_updateAncestorState hstate
  rw [newEntry_withAncestors] at hpos
  exact (add_zero (CTxMemPoolEntry.ownCost env _)) ▸ hpos

def spendingTx (hash : uint256) : CTransaction := ⟨1, [⟨⟨hash, 0⟩, [], 0, []⟩], [⟨10, []⟩], 0⟩

def flatEnv : PoolEnv := ⟨fun _ => 7, 20⟩

/-- Costs of signature operations out of range fail, and so does the removal of a transaction that
spends an output of its own. -/
theorem out_of_range_fails :
    (∀ sigOpsCost ∈ [0x80000000, -1], IsNew flatEnv init (spendingTx 5) ∧
        Childless flatEnv init (spendingTx 5) ∧
        ∀ after, init.apply flatEnv (.add (spendingTx 5) 3 sigOpsCost nNoLimit) ≠ .ok after) ∧
      ∃ pool, init.apply flatEnv (.add (spendingTx 7) 3 4 nNoLimit) = .ok pool ∧
        ∀ after, pool.apply flatEnv (.removeRecursive (spendingTx 7)) ≠ .ok after := by
  have hown : ∀ txin ∈ (spendingTx 5).vin,
      txin.prevout.hash ≠ (spendingTx 5).getHash flatEnv.hash := by decide +kernel
  refine ⟨fun sigOpsCost hmem => ⟨⟨Finmap.notMem_empty, fun _ _ => Finmap.notMem_empty, hown⟩,
    fun _ _ hx => (nomatch hx), fun after hrun => ?_⟩, ?_⟩
  · have hpos := (costPositive_of_add_init hown hrun).2
    rcases List.mem_pair.1 hmem with rfl | rfl
    · exact absurd hpos (by decide)
    · exact absurd hpos (by decide)
  · have hreturns : (init.apply flatEnv (.add (spendingTx 7) 3 4 nNoLimit)).toOption.isSome := by
      decide +kernel
    have hfails : ((init.apply flatEnv (.add (spendingTx 7) 3 4 nNoLimit)).bind fun pool =>
        pool.apply flatEnv (.removeRecursive (spendingTx 7))).toOption.isNone := by
      decide +kernel
    obtain ⟨pool, hpool⟩ := Option.isSome_iff_exists.1 hreturns
    refine ⟨pool, eq_ok_of_toOption hpool, fun after hafter => ?_⟩
    rw [eq_ok_of_toOption hpool, Except.bind, hafter] at hfails
    exact nomatch hfails

end CTxMemPool

end Coinyecoin
