import Coinyecoin.Mempool.Links
import Mathlib.Algebra.BigOperators.Pi

/-!
# What the pool keeps track of

`Bookkept` says that the maps of a pool agree with one another: the inputs with
their spenders, the two sides of the links, and the totals of every entry with
the sums over what `mapLinks` leads to. `Fits` says that the sizes and the costs
of signature operations of the whole pool stay in the range in which the
asserts on the totals pass.
-/

namespace Coinyecoin

open Foundation Relation Finset Finmap

namespace CTxMemPool

variable {entry : CTxMemPoolEntry}

section

variable {M : Type} [Zero M]

def weigh (pool : CTxMemPool) (w : CTxMemPoolEntry → M) (x : uint256) : M :=
  (pool.mapTx.lookup x).elim 0 w

theorem weigh_eq {pool : CTxMemPool} {x : uint256}
    (hx : pool.mapTx.lookup x = some entry) (w : CTxMemPoolEntry → M) :
    pool.weigh w x = w entry := by
  rw [weigh, hx]
  rfl

section

variable {pool pool' : CTxMemPool} {g : uint256 → CTxMemPoolEntry → CTxMemPoolEntry}

theorem weigh_map (hmap : ∀ x, pool'.mapTx.lookup x = (pool.mapTx.lookup x).map (g x))
    {w : CTxMemPoolEntry → M} (hw : ∀ x entry, w (g x entry) = w entry) :
    pool'.weigh w = pool.weigh w := by
  funext x
  rw [weigh, weigh, hmap x]
  cases pool.mapTx.lookup x with
  | none => rfl
  | some entry => exact hw x entry

theorem mem_map (hmap : ∀ x, pool'.mapTx.lookup x = (pool.mapTx.lookup x).map (g x))
    (x : uint256) : x ∈ pool'.mapTx ↔ x ∈ pool.mapTx := by
  rw [← lookup_isSome, ← lookup_isSome, hmap x, Option.isSome_map]

theorem keys_map (hmap : ∀ x, pool'.mapTx.lookup x = (pool.mapTx.lookup x).map (g x)) :
    pool'.mapTx.keys = pool.mapTx.keys := by
  ext x
  rw [mem_keys, mem_keys, mem_map hmap]

end

end

noncomputable def linkedAncestors (pool : CTxMemPool) (x : uint256) : SetEntries :=
  ancestry pool.Linked pool.mapTx.keys x

noncomputable def linkedDescendants (pool : CTxMemPool) (x : uint256) : SetEntries :=
  progeny pool.Linked pool.mapTx.keys x

def Weighed (pool : CTxMemPool) : Prop :=
  ∀ x entry, pool.mapTx.lookup x = some entry → entry.nTxWeight = getTransactionWeight entry.tx

/-- Entries lie under the hash of their transaction and the links between them agree and lead
nowhere back. -/
structure Traceable (env : PoolEnv) (pool : CTxMemPool) : Prop extends LinksAgree pool where
  entry_hash : ∀ {x entry}, pool.mapTx.lookup x = some entry → entry.tx.getHash env.hash = x
  weighed : pool.Weighed
  acyclic : Acyclic pool.Linked

/-- The maps of the pool agree with one another and the totals with the links. -/
structure Bookkept (env : PoolEnv) (pool : CTxMemPool) : Prop extends Traceable env pool where
  next_iff : ∀ out tx, pool.mapNextTx.lookup out = some tx ↔
    ∃ x entry, pool.mapTx.lookup x = some entry ∧ entry.tx = tx ∧
      ∃ txin ∈ tx.vin, txin.prevout = out
  delta_eq : ∀ {x entry}, pool.mapTx.lookup x = some entry →
    entry.feeDelta = (pool.mapDeltas.lookup x).getD 0
  total_size : pool.totalTxSize = ∑ x ∈ pool.mapTx.keys, pool.weigh (·.getTxSize env) x
  ancestors_eq : ∀ {x entry}, pool.mapTx.lookup x = some entry →
    entry.withAncestors = ∑ a ∈ pool.linkedAncestors x, pool.weigh (·.ownCost env) a
  descendants_eq : ∀ {x entry}, pool.mapTx.lookup x = some entry →
    entry.withDescendants = ∑ y ∈ pool.linkedDescendants x, pool.weigh (·.own env) y

/-- The sizes and the costs of signature operations of the whole pool are in range. -/
structure Fits (env : PoolEnv) (pool : CTxMemPool) : Prop where
  size_lt : ∑ x ∈ pool.mapTx.keys, pool.weigh (·.virtualSize env) x < 2 ^ 63
  cost_nonneg : ∀ x ∈ pool.mapTx.keys, 0 ≤ pool.weigh (fun entry => entry.sigOpCost.toInt) x
  cost_lt : ∑ x ∈ pool.mapTx.keys, pool.weigh (fun entry => entry.sigOpCost.toInt) x < 2 ^ 31

section

variable {env : PoolEnv} {pool : CTxMemPool}

theorem getTransactionWeight_pos (tx : CTransaction) : 0 < getTransactionWeight tx := by
  have hlen : 0 < (serializeTransaction true tx).length := by
    simp [serializeTransaction, writeInt32, writeUInt32]
  exact Nat.add_pos_right _ hlen

theorem virtualSize_pos
    (hweight : entry.nTxWeight = getTransactionWeight entry.tx) : 0 < entry.virtualSize env := by
  have hpos := getTransactionWeight_pos entry.tx
  have hmax : (1 : ℤ) ≤ max (entry.nTxWeight : ℤ)
      (entry.sigOpCost.toInt * env.nBytesPerSigOp.toNat) :=
    le_trans (by omega) (le_max_left _ _)
  rw [CTxMemPoolEntry.virtualSize, getVirtualTransactionSize, WITNESS_SCALE_FACTOR,
    Int.tdiv_eq_ediv_of_nonneg (by omega)]
  omega

variable {S : SetEntries} {x : uint256}

section

variable (hfits : Fits env pool) (hweight : pool.Weighed) (hS : S ⊆ pool.mapTx.keys)
include hfits hweight hS

theorem Fits.own_sum :
    (∑ a ∈ S, pool.weigh (·.own env) a).1.toNat = S.card ∧
      ((∑ a ∈ S, pool.weigh (·.own env) a).2.1.toNat : ℤ) =
        ∑ a ∈ S, pool.weigh (·.virtualSize env) a ∧
      S.card ≤ ∑ a ∈ S, pool.weigh (·.virtualSize env) a ∧
      ∑ a ∈ S, pool.weigh (·.virtualSize env) a < 2 ^ 63 := by
  have hsize : ∀ a ∈ pool.mapTx.keys, 1 ≤ pool.weigh (·.virtualSize env) a := by
    intro a ha
    obtain ⟨entry, hentry⟩ := exists_lookup (mem_keys.1 ha)
    rw [weigh_eq hentry]
    exact virtualSize_pos (hweight a entry hentry)
  have htotal : ∑ a ∈ S, pool.weigh (·.virtualSize env) a < 2 ^ 63 :=
    lt_of_le_of_lt (sum_le_sum_of_subset_of_nonneg hS fun a ha _ => by
      have := hsize a ha
      omega) hfits.size_lt
  have hcard : (S.card : ℤ) ≤ ∑ a ∈ S, pool.weigh (·.virtualSize env) a := by
    rw [card_eq_sum_ones, Nat.cast_sum]
    exact sum_le_sum fun a ha => by simpa using hsize a (hS ha)
  have hone : ∀ a ∈ S, (pool.weigh (·.own env) a).1.toNat = 1 := by
    intro a ha
    obtain ⟨entry, hentry⟩ := exists_lookup (mem_keys.1 (hS ha))
    rw [weigh_eq hentry]
    rfl
  have hnat : ∀ a ∈ S, ((pool.weigh (·.own env) a).2.1.toNat : ℤ) =
      pool.weigh (·.virtualSize env) a := by
    intro a ha
    have hpos := hsize a (hS ha)
    have hle := single_le_sum (fun b hb => by have := hsize b (hS hb); omega) ha
      (f := pool.weigh (·.virtualSize env))
    obtain ⟨entry, hentry⟩ := exists_lookup (mem_keys.1 (hS ha))
    rw [weigh_eq hentry] at hpos hle ⊢
    rw [weigh_eq hentry]
    exact toNat_ofInt_of_lt (by omega) (by omega)
  have hcount : ∑ a ∈ S, (pool.weigh (·.own env) a).1.toNat = S.card := by
    rw [sum_congr rfl hone, card_eq_sum_ones]
  have hsum : ((∑ a ∈ S, (pool.weigh (·.own env) a).2.1.toNat : ℕ) : ℤ) =
      ∑ a ∈ S, pool.weigh (·.virtualSize env) a := by
    rw [Nat.cast_sum, sum_congr rfl hnat]
  refine ⟨?_, ?_, hcard, htotal⟩
  · rw [Prod.fst_sum, toNat_sum_of_lt S _ (by omega), hcount]
  · rw [Prod.snd_sum, Prod.fst_sum, toNat_sum_of_lt S _ (by omega), hsum]

theorem Fits.positive (hx : x ∈ S) : Totals.Positive (∑ a ∈ S, pool.weigh (·.own env) a) := by
  obtain ⟨hcount, hsize, hle, hlt⟩ := hfits.own_sum hweight hS
  have hpos : 0 < S.card := card_pos.2 ⟨x, hx⟩
  exact ⟨toInt64_pos (by omega) (by omega), toInt64_pos (by omega) (by omega)⟩

end

theorem Fits.cost_sum (hfits : Fits env pool) (hS : S ⊆ pool.mapTx.keys) :
    (∑ a ∈ S, pool.weigh (·.sigOpCost) a).toInt =
        ∑ a ∈ S, pool.weigh (fun entry => entry.sigOpCost.toInt) a ∧
      0 ≤ (∑ a ∈ S, pool.weigh (·.sigOpCost) a).toInt ∧
      (∑ a ∈ S, pool.weigh (·.sigOpCost) a).toInt < 2 ^ 31 := by
  have hnat : ∀ a ∈ S, (pool.weigh (·.sigOpCost) a).toInt =
      pool.weigh (fun entry => entry.sigOpCost.toInt) a := by
    intro a ha
    obtain ⟨entry, hentry⟩ := exists_lookup (mem_keys.1 (hS ha))
    rw [weigh_eq hentry, weigh_eq hentry]
  have hnonneg : ∀ a ∈ S, 0 ≤ (pool.weigh (·.sigOpCost) a).toInt := fun a ha =>
    hnat a ha ▸ hfits.cost_nonneg a (hS ha)
  have hlt : ∑ a ∈ S, (pool.weigh (·.sigOpCost) a).toInt < 2 ^ 31 := by
    rw [sum_congr rfl hnat]
    exact lt_of_le_of_lt (sum_le_sum_of_subset_of_nonneg hS fun a ha _ =>
      hfits.cost_nonneg a ha) hfits.cost_lt
  rw [toInt_sum_of_lt S _ hnonneg (by omega)]
  exact ⟨sum_congr rfl hnat, sum_nonneg hnonneg, hlt⟩

theorem weigh_ownCost (x : uint256) :
    pool.weigh (·.ownCost env) x = (pool.weigh (·.own env) x, pool.weigh (·.sigOpCost) x) := by
  rw [weigh, weigh, weigh]
  cases pool.mapTx.lookup x with
  | none => rfl
  | some entry => rfl

theorem sum_ownCost (S : SetEntries) : ∑ a ∈ S, pool.weigh (·.ownCost env) a =
    (∑ a ∈ S, pool.weigh (·.own env) a, ∑ a ∈ S, pool.weigh (·.sigOpCost) a) := by
  simp only [weigh_ownCost]
  exact Prod.ext Prod.fst_sum Prod.snd_sum

theorem Fits.costPositive (hfits : Fits env pool) (hweight : pool.Weighed)
    (hS : S ⊆ pool.mapTx.keys) (hx : x ∈ S) :
    CostPositive (∑ a ∈ S, pool.weigh (·.ownCost env) a) := by
  obtain ⟨-, hnonneg, hlt⟩ := hfits.cost_sum hS
  rw [sum_ownCost]
  exact ⟨hfits.positive hweight hS hx, toInt32_nonneg hnonneg hlt⟩

theorem Fits.narrow (hfits : Fits env pool) (hS : S ⊆ pool.mapTx.keys) :
    (∑ a ∈ S, pool.weigh (·.sigOpCost) a).toInt32.toInt64 =
        ∑ a ∈ S, pool.weigh (·.sigOpCost) a ∧
      (-∑ a ∈ S, pool.weigh (·.sigOpCost) a).toInt32.toInt64 =
        -∑ a ∈ S, pool.weigh (·.sigOpCost) a := by
  obtain ⟨-, hpos, hlt⟩ := hfits.cost_sum hS
  have hneg : (-∑ a ∈ S, pool.weigh (·.sigOpCost) a).toInt =
      -(∑ a ∈ S, pool.weigh (·.sigOpCost) a).toInt := by
    rw [Int64.toInt_neg]
    exact Int.bmod_eq_of_le (by omega) (by omega)
  exact ⟨toInt32_toInt64 (by omega) hlt, toInt32_toInt64 (by omega) (by omega)⟩

end

end CTxMemPool

end Coinyecoin
