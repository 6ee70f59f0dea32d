import Mathlib.Algebra.BigOperators.Ring.Finset
import Mathlib.Algebra.Order.BigOperators.Group.Finset
import Mathlib.Data.UInt

/-!
# Sums of machine integers

64-bit integers form a commutative group, so that a total that is kept up to
date by additions and subtractions is a sum over a set whatever wraps around on
the way. A sum whose true value fits in the type is that value.
-/

namespace Foundation

open Finset

instance instAddCommGroupInt64 : AddCommGroup Int64 where
  add_assoc := Int64.add_assoc
  zero_add := Int64.zero_add
  add_zero := Int64.add_zero
  add_comm := Int64.add_comm
  neg_add_cancel := Int64.add_left_neg
  sub_eq_add_neg := Int64.sub_eq_add_neg
  nsmul := nsmulRec
  zsmul := zsmulRec

variable {ι : Type}

theorem toNat_ofInt_of_lt {v : ℤ} (hpos : 0 ≤ v) (hlt : v < 2 ^ 64) :
    ((UInt64.ofInt v).toNat : ℤ) = v := by
  rw [UInt64.ofInt, UInt64.toNat_ofNat_of_lt' (by rw [UInt64.size]; omega)]
  omega

section

variable (s : Finset ι)
include s

variable (f : ι → UInt64)

theorem toUInt64_sum : (∑ i ∈ s, (f i).toInt64).toUInt64 = ∑ i ∈ s, f i := by
  classical
  induction s using Finset.induction_on with
  | empty => rfl
  | insert a s ha ih =>
    rw [sum_insert ha, sum_insert ha, Int64.toUInt64_add, ih, UInt64.toUInt64_toInt64]

theorem sum_one_eq : ∑ _i ∈ s, (1 : UInt64) = UInt64.ofNat s.card := by
  classical
  induction s using Finset.induction_on with
  | empty => rfl
  | insert a s ha ih =>
    rw [sum_insert ha, ih, card_insert_of_notMem ha, UInt64.ofNat_add, add_comm]
    rfl

theorem toNat_sum_of_lt (h : ∑ i ∈ s, (f i).toNat < 2 ^ 64) :
    (∑ i ∈ s, f i).toNat = ∑ i ∈ s, (f i).toNat := by
  classical
  induction s using Finset.induction_on with
  | empty => simp
  | insert a s ha ih =>
    rw [sum_insert ha] at h ⊢
    rw [sum_insert ha, UInt64.toNat_add, ih (by omega), Nat.mod_eq_of_lt h]

theorem toInt_sum (f : ι → Int64) :
    (∑ i ∈ s, f i).toInt = (∑ i ∈ s, (f i).toInt).bmod (2 ^ 64) := by
  classical
  induction s using Finset.induction_on with
  | empty => rfl
  | insert a s ha ih =>
    rw [sum_insert ha, sum_insert ha, Int64.toInt_add, ih, Int.add_bmod_bmod]

theorem toInt_sum_of_lt (f : ι → Int64) (hf : ∀ i ∈ s, 0 ≤ (f i).toInt)
    (h : ∑ i ∈ s, (f i).toInt < 2 ^ 63) :
    (∑ i ∈ s, f i).toInt = ∑ i ∈ s, (f i).toInt := by
  have hpos := sum_nonneg hf
  rw [toInt_sum]
  exact Int.bmod_eq_of_le (by omega) (by omega)

end

theorem toInt64_pos {x : UInt64} (hpos : 0 < x.toNat) (hlt : x.toNat < 2 ^ 63) : 0 < x.toInt64 := by
  have hvalue : x.toInt64.toInt = x.toNat := by
    rw [← Int64.toInt_toBitVec, UInt64.toBitVec_toInt64, BitVec.toInt_eq_toNat_of_lt]
    · rfl
    · change 2 * x.toNat < 2 ^ 64
      omega
  rw [Int64.lt_iff_toInt_lt, hvalue]
  simpa using hpos

theorem toInt32_toInt64 {x : Int64} (hlow : -2 ^ 31 ≤ x.toInt) (hhigh : x.toInt < 2 ^ 31) :
    x.toInt32.toInt64 = x := by
  rw [← Int64.toInt_inj, Int32.toInt_toInt64, Int64.toInt_toInt32,
    Int.bmod_eq_of_le (by omega) (by omega)]

theorem toInt32_nonneg {x : Int64} (hpos : 0 ≤ x.toInt) (hhigh : x.toInt < 2 ^ 31) :
    0 ≤ x.toInt32 := by
  rw [Int32.le_iff_toInt_le, Int64.toInt_toInt32, Int.bmod_eq_of_le (by omega) (by omega)]
  simpa using hpos

end Foundation
