import Coinyecoin.Foundation.CacheSlot
import Coinyecoin.Foundation.SparseList
import Coinyecoin.Primitives.Transaction

/-!
# The unspent outputs of one transaction

`CCoins` keeps the outputs of a transaction in place: a spent output is null,
and null outputs at the end are dropped. A record whose outputs are all null is
pruned, and every reader treats it as if it were not there.

`CCoins.output c n` is the output `n` while it is unspent. The operations are
described by what they do to it; the lists themselves are compared through it.
-/

namespace Coinyecoin

@[ext]
structure CCoins where
  fCoinBase : Bool
  vout : List CTxOut
  nHeight : Int32
  nVersion : Int32
deriving DecidableEq, Repr

namespace CCoins

open Foundation List SparseList

def empty : CCoins := ⟨false, [], 0, 0⟩

def cleanup (coins : CCoins) : CCoins :=
  { coins with vout := coins.vout.rdropWhile CTxOut.isNull }

def clearUnspendable (coins : CCoins) : CCoins :=
  cleanup { coins with
    vout := coins.vout.map fun txout =>
      if txout.scriptPubKey.isUnspendable then CTxOut.null else txout }

def fromTx (tx : CTransaction) (nHeight : Int32) : CCoins :=
  clearUnspendable ⟨tx.isCoinBase, tx.vout, nHeight, tx.nVersion⟩

def isPruned (coins : CCoins) : Bool := coins.vout.all CTxOut.isNull

def output (coins : CCoins) (nPos : ℕ) : Option CTxOut :=
  SparseList.present CTxOut.isNull coins.vout nPos

def isAvailable (coins : CCoins) (nPos : UInt32) : Bool := (coins.output nPos.toNat).isSome

/-- Marks an output spent. The source also says whether it was available; every
caller has asked before. -/
def spend (coins : CCoins) (nPos : UInt32) : CCoins :=
  if coins.isAvailable nPos then
    cleanup { coins with vout := coins.vout.set nPos.toNat CTxOut.null }
  else coins

/-- `operator==`: pruned records are all equal. -/
def equal (a b : CCoins) : Bool :=
  (a.isPruned && b.isPruned) ||
    (a.fCoinBase == b.fCoinBase && a.nHeight == b.nHeight && a.nVersion == b.nVersion &&
      a.vout == b.vout)

abbrev live (coins : CCoins) : Option CCoins := CacheSlot.live isPruned coins

/-- The null outputs are all `CTxOut.null`, and none of them is at the end. -/
structure Canonical (coins : CCoins) : Prop where
  trimmed : SparseList.Trimmed CTxOut.isNull coins.vout
  uniform : SparseList.Uniform CTxOut.isNull CTxOut.null coins.vout

structure Same (a b : CCoins) : Prop where
  fCoinBase : a.fCoinBase = b.fCoinBase
  nHeight : a.nHeight = b.nHeight
  nVersion : a.nVersion = b.nVersion
  output : ∀ n, a.output n = b.output n

variable {coins a b : CCoins} {n : UInt32}

theorem isPruned_iff : coins.isPruned = true ↔ ∀ n, coins.output n = none :=
  all_null_iff

theorem isPruned_congr (h : ∀ n, a.output n = b.output n) : a.isPruned = b.isPruned := by
  rw [Bool.eq_iff_iff, isPruned_iff, isPruned_iff]
  simp only [h]

@[simp] theorem output_cleanup (coins : CCoins) (n : ℕ) : coins.cleanup.output n = coins.output n :=
  present_rdropWhile coins.vout n

@[simp] theorem isPruned_cleanup (coins : CCoins) : coins.cleanup.isPruned = coins.isPruned :=
  isPruned_congr (output_cleanup coins)

@[simp] theorem cleanup_cleanup (coins : CCoins) : coins.cleanup.cleanup = coins.cleanup := by
  rw [cleanup, cleanup, rdropWhile_idempotent]

theorem vout_cleanup_eq_nil_iff : coins.cleanup.vout = [] ↔ coins.isPruned = true := by
  rw [cleanup, rdropWhile_eq_nil_iff, isPruned, all_eq_true]

theorem output_eq_none_of_isPruned (h : coins.isPruned = true) (n : ℕ) : coins.output n = none :=
  isPruned_iff.1 h n

theorem isAvailable_iff {nPos : UInt32} :
    coins.isAvailable nPos = true ↔ ∃ txout, coins.output nPos.toNat = some txout :=
  Option.isSome_iff_exists

theorem not_isPruned_of_output {n : ℕ} {txout : CTxOut}
    (h : coins.output n = some txout) : coins.isPruned = false := by
  by_contra hpruned
  rw [Bool.not_eq_false] at hpruned
  rw [output_eq_none_of_isPruned hpruned] at h
  cases h

@[simp] theorem spend_fCoinBase (coins : CCoins) (n : UInt32) :
    (coins.spend n).fCoinBase = coins.fCoinBase := by
  unfold spend cleanup; split_ifs <;> rfl

@[simp] theorem spend_nHeight (coins : CCoins) (n : UInt32) :
    (coins.spend n).nHeight = coins.nHeight := by
  unfold spend cleanup; split_ifs <;> rfl

@[simp] theorem spend_nVersion (coins : CCoins) (n : UInt32) :
    (coins.spend n).nVersion = coins.nVersion := by
  unfold spend cleanup; split_ifs <;> rfl

section

variable (h : coins.isAvailable n = true)
include h

theorem spend_of_isAvailable :
    coins.spend n = cleanup { coins with vout := coins.vout.set n.toNat CTxOut.null } :=
  if_pos h

theorem output_spend (m : ℕ) :
    (coins.spend n).output m = if m = n.toNat then none else coins.output m := by
  rw [spend_of_isAvailable h, output_cleanup]
  exact present_set_null CTxOut.isNull_null m

theorem cleanup_spend : (coins.spend n).cleanup = coins.spend n := by
  rw [spend_of_isAvailable h, cleanup_cleanup]

end

theorem Canonical.cleanup
    (h : SparseList.Uniform CTxOut.isNull CTxOut.null coins.vout) : coins.cleanup.Canonical :=
  ⟨trimmed_rdropWhile coins.vout, h.rdropWhile⟩

theorem canonical_clearUnspendable (h : SparseList.Uniform CTxOut.isNull CTxOut.null coins.vout) :
    coins.clearUnspendable.Canonical := by
  refine Canonical.cleanup fun txout hmem hnull => ?_
  obtain ⟨txout', hmem', rfl⟩ := mem_map.1 hmem
  split_ifs at hnull ⊢
  · rfl
  · exact h txout' hmem' hnull

@[simp] theorem cleanup_clearUnspendable (coins : CCoins) :
    coins.clearUnspendable.cleanup = coins.clearUnspendable :=
  cleanup_cleanup _

theorem clearUnspendable_idem (coins : CCoins) :
    coins.clearUnspendable.clearUnspendable = coins.clearUnspendable := by
  have hmap : ∀ txout ∈ coins.clearUnspendable.vout,
      (if txout.scriptPubKey.isUnspendable then CTxOut.null else txout) = txout := by
    intro txout hmem
    obtain ⟨txout', -, rfl⟩ :=
      mem_map.1 ((List.rdropWhile_prefix CTxOut.isNull _).subset hmem)
    split_ifs with h <;> rfl
  have hvout : coins.clearUnspendable.vout.map (fun txout =>
      if txout.scriptPubKey.isUnspendable then CTxOut.null else txout) =
        coins.clearUnspendable.vout :=
    (map_congr_left hmap).trans (map_id _)
  conv_lhs => rw [clearUnspendable, hvout]
  exact cleanup_clearUnspendable coins

theorem isPruned_clearUnspendable (h : coins.isPruned = true) :
    coins.clearUnspendable.isPruned = true := by
  rw [clearUnspendable, isPruned_cleanup, isPruned, all_map, all_eq_true]
  intro txout hmem
  rw [isPruned, all_eq_true] at h
  simp only [Function.comp]
  split_ifs
  · exact CTxOut.isNull_null
  · exact h txout hmem

@[simp] theorem equal_self (coins : CCoins) : coins.equal coins = true := by
  simp [equal]

theorem equal_of_isPruned (ha : a.isPruned = true) (hb : b.isPruned = true) : a.equal b = true := by
  simp [equal, ha, hb]

theorem canonical_fromTx {tx : CTransaction} (h : ∀ txout ∈ tx.vout, txout.isNull = false)
    (nHeight : Int32) : (fromTx tx nHeight).Canonical := by
  refine canonical_clearUnspendable fun txout hmem hnull => ?_
  rw [h txout hmem] at hnull
  cases hnull

theorem Same.eq (h : a.Same b) (ha : a.Canonical) (hb : b.Canonical) : a = b :=
  CCoins.ext h.fCoinBase
    (eq_of_present ha.trimmed hb.trimmed ha.uniform hb.uniform h.output)
    h.nHeight h.nVersion

theorem Same.refl (a : CCoins) : a.Same a := ⟨rfl, rfl, rfl, fun _ => rfl⟩

theorem Same.isPruned (h : a.Same b) : a.isPruned = b.isPruned :=
  isPruned_congr h.output

end CCoins

end Coinyecoin
