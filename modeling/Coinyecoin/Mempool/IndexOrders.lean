import Coinyecoin.Mempool.Pool
import Mathlib.Algebra.Order.Field.Basic
import Mathlib.Data.Prod.Lex

/-!
# The orders of the pool's indexes

`mapTx` is kept sorted by four comparators. Three compare fee rates and
multiply out instead of dividing; they are read here with exact integers in
place of `double`. The one by descendant score breaks a tie with `>=`, so that
it puts an entry before itself.
-/

namespace Coinyecoin

open Foundation

/-- An entry with the time at which it entered the pool, which only the comparators read. -/
structure TimedEntry extends CTxMemPoolEntry where
  nTime : Int64

namespace TimedEntry

variable (env : PoolEnv)

structure PositiveSizes (entry : TimedEntry) : Prop where
  size : 0 < entry.getTxSize env
  withDescendants : 0 < entry.nSizeWithDescendants
  withAncestors : 0 < entry.nSizeWithAncestors

def txSize (entry : TimedEntry) : ℤ := (entry.getTxSize env).toNat

def useDescendantScore (a : TimedEntry) : Bool :=
  let f1 := a.getModifiedFee.toInt * a.nSizeWithDescendants.toNat
  let f2 := a.nModFeesWithDescendants.toInt * a.txSize env
  f2 > f1

end TimedEntry

open TimedEntry

variable (env : PoolEnv)

def compareTxMemPoolEntryByDescendantScore (a b : TimedEntry) : Bool :=
  let fUseADescendants := a.useDescendantScore env
  let fUseBDescendants := b.useDescendantScore env
  let aModFee := if fUseADescendants then a.nModFeesWithDescendants.toInt
    else a.getModifiedFee.toInt
  let aSize : ℤ := if fUseADescendants then a.nSizeWithDescendants.toNat else a.txSize env
  let bModFee := if fUseBDescendants then b.nModFeesWithDescendants.toInt
    else b.getModifiedFee.toInt
  let bSize : ℤ := if fUseBDescendants then b.nSizeWithDescendants.toNat else b.txSize env
  let f1 := aModFee * bSize
  let f2 := aSize * bModFee
  if f1 = f2 then a.nTime ≥ b.nTime else f1 < f2

def compareTxMemPoolEntryByScore (a b : TimedEntry) : Bool :=
  let f1 := a.getModifiedFee.toInt * b.txSize env
  let f2 := b.getModifiedFee.toInt * a.txSize env
  if f1 = f2 then hashKey (b.tx.getHash env.hash) < hashKey (a.tx.getHash env.hash)
  else f1 > f2

def compareTxMemPoolEntryByEntryTime (a b : TimedEntry) : Bool := a.nTime < b.nTime

def compareTxMemPoolEntryByAncestorFee (a b : TimedEntry) : Bool :=
  let aFees := a.nModFeesWithAncestors.toInt
  let aSize : ℤ := a.nSizeWithAncestors.toNat
  let bFees := b.nModFeesWithAncestors.toInt
  let bSize : ℤ := b.nSizeWithAncestors.toNat
  let f1 := aFees * bSize
  let f2 := aSize * bFees
  if f1 = f2 then hashKey (a.tx.getHash env.hash) < hashKey (b.tx.getHash env.hash)
  else f1 > f2

inductive PoolIndex where
  | descendantScore
  | entryTime
  | miningScore
  | ancestorScore
deriving DecidableEq, Repr

def PoolIndex.before : PoolIndex → TimedEntry → TimedEntry → Bool
  | .descendantScore => compareTxMemPoolEntryByDescendantScore env
  | .entryTime => compareTxMemPoolEntryByEntryTime
  | .miningScore => compareTxMemPoolEntryByScore env
  | .ancestorScore => compareTxMemPoolEntryByAncestorFee env

abbrev SizedEntry := { entry : TimedEntry // entry.PositiveSizes env }

section

theorem isStrictWeakOrder_of_key {α β : Type} [LinearOrder β] {r : α → α → Prop} (key : α → β)
    (h : ∀ a b, r a b ↔ key a < key b) : IsStrictWeakOrder α r := by
  have hirrefl : ∀ a, ¬ r a a := fun a hr => lt_irrefl (key a) ((h a a).1 hr)
  have htrans : ∀ a b c, r a b → r b c → r a c := fun a b c hab hbc =>
    (h a c).2 (((h a b).1 hab).trans ((h b c).1 hbc))
  have hincomp : ∀ a b, ¬ r a b ∧ ¬ r b a ↔ key a = key b := by
    intro a b
    rw [h, h, not_lt, not_lt]
    exact ⟨fun hle => le_antisymm hle.2 hle.1, fun heq => ⟨heq.ge, heq.le⟩⟩
  refine { irrefl := hirrefl, trans := htrans, incomp_trans := fun a b c hab hbc => ?_ }
  exact (hincomp a c).2 (((hincomp a b).1 hab).trans ((hincomp b c).1 hbc))

def feeRate (fee size : ℤ) : ℚ := fee / size

variable {aFee aSize bFee bSize : ℤ}

theorem feeRate_lt_iff (ha : 0 < aSize) (hb : 0 < bSize) :
    feeRate bFee bSize < feeRate aFee aSize ↔ bFee * aSize < aFee * bSize := by
  have ha' : (0 : ℚ) < aSize := by exact_mod_cast ha
  have hb' : (0 : ℚ) < bSize := by exact_mod_cast hb
  rw [feeRate, feeRate, div_lt_div_iff₀ hb' ha']
  exact_mod_cast Iff.rfl

theorem feeRate_eq_iff (ha : 0 < aSize) (hb : 0 < bSize) :
    feeRate aFee aSize = feeRate bFee bSize ↔ aFee * bSize = bFee * aSize := by
  have ha' : (aSize : ℚ) ≠ 0 := by exact_mod_cast ha.ne.symm
  have hb' : (bSize : ℚ) ≠ 0 := by exact_mod_cast hb.ne.symm
  rw [feeRate, feeRate, div_eq_div_iff ha' hb']
  exact_mod_cast Iff.rfl

end

variable {env}

theorem TimedEntry.PositiveSizes.txSize_pos {entry : TimedEntry} (h : entry.PositiveSizes env) :
    0 < entry.txSize env := by
  have hsize := UInt64.lt_iff_toNat_lt.1 h.size
  exact Int.natCast_pos.2 hsize

theorem isStrictWeakOrder_entryTime :
    IsStrictWeakOrder (SizedEntry env)
      fun a b => PoolIndex.entryTime.before env a b = true := by
  refine isStrictWeakOrder_of_key (fun entry => entry.val.nTime.toInt) fun a b => ?_
  exact decide_eq_true_iff.trans Int64.lt_iff_toInt_lt

theorem isStrictWeakOrder_of_rates {before : TimedEntry → TimedEntry → Bool} {κ : Type}
    [LinearOrder κ] (fee size : TimedEntry → ℤ) (tie : TimedEntry → κ)
    (hpos : ∀ entry, entry.PositiveSizes env → 0 < size entry)
    (hbefore : ∀ a b, before a b = true ↔
      if fee a * size b = fee b * size a then tie a < tie b
      else fee b * size a < fee a * size b) :
    IsStrictWeakOrder (SizedEntry env) fun a b => before a b = true := by
  refine isStrictWeakOrder_of_key (fun entry => toLex
    (OrderDual.toDual (feeRate (fee entry.val) (size entry.val)), tie entry.val)) fun a b => ?_
  have ha := hpos a.val a.property
  have hb := hpos b.val b.property
  rw [hbefore, Prod.Lex.toLex_lt_toLex, OrderDual.toDual_lt_toDual, OrderDual.toDual_inj,
    feeRate_lt_iff ha hb, feeRate_eq_iff ha hb]
  split_ifs with heq
  · refine ⟨fun htie => .inr ⟨heq, htie⟩, ?_⟩
    rintro (hlt | ⟨-, htie⟩)
    · exact absurd heq hlt.ne.symm
    · exact htie
  · exact ⟨.inl, fun h => h.resolve_right fun htie => heq htie.1⟩

theorem isStrictWeakOrder_miningScore :
    IsStrictWeakOrder (SizedEntry env)
      fun a b => PoolIndex.miningScore.before env a b = true := by
  refine isStrictWeakOrder_of_rates (fun entry => entry.getModifiedFee.toInt)
    (fun entry => entry.txSize env)
    (fun entry => OrderDual.toDual (hashKey (entry.tx.getHash env.hash)))
    (fun _ h => h.txSize_pos) fun a b => ?_
  simp only [PoolIndex.before, compareTxMemPoolEntryByScore, OrderDual.toDual_lt_toDual]
  split_ifs <;> exact decide_eq_true_iff

theorem isStrictWeakOrder_ancestorScore :
    IsStrictWeakOrder (SizedEntry env)
      fun a b => PoolIndex.ancestorScore.before env a b = true := by
  refine isStrictWeakOrder_of_rates (fun entry => entry.nModFeesWithAncestors.toInt)
    (fun entry => entry.nSizeWithAncestors.toNat)
    (fun entry => hashKey (entry.tx.getHash env.hash)) (fun entry h => ?_) fun a b => ?_
  · have hsize := UInt64.lt_iff_toNat_lt.1 h.withAncestors
    exact Int.natCast_pos.2 hsize
  · simp only [PoolIndex.before, compareTxMemPoolEntryByAncestorFee,
      mul_comm (a.nSizeWithAncestors.toNat : ℤ)]
    split_ifs <;> exact decide_eq_true_iff

theorem descendantScore_before_self (a : TimedEntry) :
    PoolIndex.descendantScore.before env a a = true := by
  simp only [PoolIndex.before, compareTxMemPoolEntryByDescendantScore]
  rw [if_pos (mul_comm _ _)]
  exact decide_eq_true (Int64.le_refl a.nTime)

def oneByteEntry : TimedEntry where
  tx := { nVersion := 1, vin := [], vout := [], nLockTime := 0 }
  nFee := 0
  nTxWeight := 4
  sigOpCost := 0
  feeDelta := 0
  nCountWithDescendants := 1
  nSizeWithDescendants := 1
  nModFeesWithDescendants := 0
  nCountWithAncestors := 1
  nSizeWithAncestors := 1
  nModFeesWithAncestors := 0
  nSigOpCostWithAncestors := 0
  nTime := 0

theorem oneByteEntry_positiveSizes : oneByteEntry.PositiveSizes env := by
  have hsize : oneByteEntry.getTxSize env = 1 := by
    simp only [CTxMemPoolEntry.getTxSize, CTxMemPoolEntry.virtualSize,
      getVirtualTransactionSize, oneByteEntry, Int64.toInt_zero, zero_mul]
    decide
  refine ⟨?_, by decide, by decide⟩
  rw [hsize]
  decide

/-- An index is sorted by a strict weak order exactly if it is not the one by descendant score. -/
theorem isStrictWeakOrder_before_iff (index : PoolIndex) :
    IsStrictWeakOrder (SizedEntry env) (fun a b => index.before env a b = true) ↔
      index ≠ .descendantScore := by
  constructor
  · rintro horder rfl
    exact horder.irrefl ⟨oneByteEntry, oneByteEntry_positiveSizes⟩
      (descendantScore_before_self oneByteEntry)
  · intro hindex
    cases index with
    | descendantScore => exact absurd rfl hindex
    | entryTime => exact isStrictWeakOrder_entryTime
    | miningScore => exact isStrictWeakOrder_miningScore
    | ancestorScore => exact isStrictWeakOrder_ancestorScore

/-- The entry of one virtual byte comes before itself. -/
theorem descendantScore_not_irreflexive :
    oneByteEntry.PositiveSizes ⟨fun _ => 0, 20⟩ ∧
      PoolIndex.descendantScore.before ⟨fun _ => 0, 20⟩ oneByteEntry oneByteEntry = true :=
  ⟨oneByteEntry_positiveSizes, descendantScore_before_self oneByteEntry⟩

end Coinyecoin
