import Mathlib.Data.Nat.Bitwise
import Mathlib.Tactic.Ring

/-!
# Numbers in limbs

A number as a list of 32-bit limbs, lowest first. The loops of multi-precision
arithmetic walk over the limbs with a carry; `propagate` is that walk over terms
of 64 bits, and its value is the sum of the terms at their places, modulo the
size of the result. The bits of a number are those of its limbs.
-/

namespace Foundation

open List

namespace Limbs

def value : List UInt32 → ℕ
  | [] => 0
  | p :: pn => p.toNat + 2 ^ 32 * value pn

def wide : List UInt64 → ℕ
  | [] => 0
  | x :: xs => x.toNat + 2 ^ 32 * wide xs

/-- The terms are added up limb by limb, and what exceeds a limb is carried on. -/
def propagate (carry : UInt64) : List UInt64 → List UInt32
  | [] => []
  | x :: xs =>
    let n := carry + x
    (n &&& 0xffffffff).toUInt32 :: propagate (n >>> 32) xs

def increment : List UInt32 → List UInt32
  | [] => []
  | p :: pn => if p + 1 = 0 then (p + 1) :: increment pn else (p + 1) :: pn

def compareTo : List UInt32 → List UInt32 → Ordering
  | p :: pn, q :: qn =>
    (compareTo pn qn).then (if p < q then .lt else if p > q then .gt else .eq)
  | _, _ => .eq

section

variable (pn : List UInt32) (n : ℕ)

theorem two_pow_succ_limbs : 2 ^ (32 * (n + 1)) = 2 ^ 32 * 2 ^ (32 * n) := by
  rw [Nat.mul_succ, Nat.add_comm, pow_add]

theorem value_lt : value pn < 2 ^ (32 * pn.length) := by
  induction pn with
  | nil => exact Nat.one_pos
  | cons p pn ih =>
    have hp := p.toNat_lt
    rw [value, length_cons, two_pow_succ_limbs]
    omega

theorem value_append (pn qn : List UInt32) :
    value (pn ++ qn) = value pn + 2 ^ (32 * pn.length) * value qn := by
  induction pn with
  | nil => simp [value]
  | cons p pn ih =>
    rw [cons_append, value, ih, value, length_cons, two_pow_succ_limbs]
    ring

theorem value_replicate_zero : value (List.replicate n 0) = 0 := by
  induction n with
  | zero => rfl
  | succ n ih =>
    rw [replicate_succ, value, ih]
    rfl

theorem testBit_value (i : ℕ) {j : ℕ} (hj : j < 32) :
    (value pn).testBit (32 * i + j) = (pn.getD i 0).toNat.testBit j := by
  induction pn generalizing i with
  | nil => simp [value]
  | cons p pn ih =>
    rw [value, Nat.add_comm p.toNat, Nat.testBit_two_pow_mul_add _ p.toNat_lt]
    cases i with
    | zero => simp [hj]
    | succ i =>
      have hle : ¬ 32 * (i + 1) + j < 32 := by omega
      have hsub : 32 * (i + 1) + j - 32 = 32 * i + j := by omega
      rw [if_neg hle, hsub, ih, getD_cons_succ]

theorem value_eq_of_testBit {pn : List UInt32} {n : ℕ} (hn : n < 2 ^ (32 * pn.length))
    (h : ∀ i < pn.length, ∀ j < 32, (pn.getD i 0).toNat.testBit j = n.testBit (32 * i + j)) :
    value pn = n := by
  refine Nat.eq_of_testBit_eq fun k => ?_
  obtain ⟨i, j, hj, rfl⟩ : ∃ i j, j < 32 ∧ k = 32 * i + j :=
    ⟨k / 32, k % 32, Nat.mod_lt k (by decide), by omega⟩
  by_cases hi : i < pn.length
  · rw [testBit_value pn i hj, h i hi j hj]
  · have hle : 2 ^ (32 * pn.length) ≤ 2 ^ (32 * i + j) :=
      Nat.pow_le_pow_right (by decide) (by omega)
    rw [Nat.testBit_lt_two_pow ((value_lt pn).trans_le hle),
      Nat.testBit_lt_two_pow (hn.trans_le hle)]

end

section

theorem length_propagate (carry : UInt64) (xs : List UInt64) :
    (propagate carry xs).length = xs.length := by
  induction xs generalizing carry with
  | nil => rfl
  | cons x xs ih => rw [propagate, length_cons, ih, length_cons]

theorem value_propagate {carry : UInt64} {xs : List UInt64} (hcarry : carry.toNat < 2 ^ 32)
    (hxs : ∀ x ∈ xs, x.toNat ≤ 2 ^ 64 - 2 ^ 32) :
    value (propagate carry xs) = (carry.toNat + wide xs) % 2 ^ (32 * xs.length) := by
  induction xs generalizing carry with
  | nil => simp [propagate, value, Nat.mod_one]
  | cons x xs ih =>
    obtain ⟨hx, hxs⟩ := forall_mem_cons.1 hxs
    have hsum : (carry + x).toNat = carry.toNat + x.toNat := by
      rw [UInt64.toNat_add]
      exact Nat.mod_eq_of_lt (by omega)
    have hlow : ((carry + x) &&& 0xffffffff).toUInt32.toNat = (carry + x).toNat % 2 ^ 32 := by
      have hmask : (0xffffffff : UInt64).toNat = 2 ^ 32 - 1 := rfl
      rw [UInt64.toNat_toUInt32, UInt64.toNat_and, hmask, Nat.and_two_pow_sub_one_eq_mod,
        Nat.mod_mod]
    have hhigh : ((carry + x) >>> 32).toNat = (carry + x).toNat / 2 ^ 32 := by
      rw [UInt64.toNat_shiftRight, Nat.shiftRight_eq_div_pow]
      rfl
    have hnext : ((carry + x) >>> 32).toNat < 2 ^ 32 := by
      have hlt := (carry + x).toNat_lt
      omega
    rw [propagate, value, ih hnext hxs, hlow, hhigh, hsum, wide, length_cons,
      two_pow_succ_limbs, Nat.mod_mul]
    congr 1
    · omega
    · congr 2
      omega

variable (pn : List UInt32)

theorem length_increment : (increment pn).length = pn.length := by
  induction pn with
  | nil => rfl
  | cons p pn ih =>
    rw [increment]
    split_ifs
    · rw [length_cons, ih, length_cons]
    · rfl

theorem value_increment : value (increment pn) = (value pn + 1) % 2 ^ (32 * pn.length) := by
  induction pn with
  | nil => rfl
  | cons p pn ih =>
    have hlt := value_lt pn
    have hp := p.toNat_lt
    have hadd : (p + 1).toNat = (p.toNat + 1) % 2 ^ 32 := UInt32.toNat_add p 1
    rw [increment, length_cons, two_pow_succ_limbs]
    split_ifs with hwrap
    · have hzero : (p.toNat + 1) % 2 ^ 32 = 0 := by rw [← hadd, hwrap]; rfl
      have hfull : p.toNat = 2 ^ 32 - 1 := by omega
      rw [value, ih, hwrap, value, hfull, Nat.mod_mul]
      have hsum : 2 ^ 32 - 1 + 2 ^ 32 * value pn + 1 = 2 ^ 32 * (value pn + 1) := by omega
      rw [hsum, Nat.mul_mod_right, Nat.mul_div_cancel_left _ (by decide)]
      rfl
    · have hne : (p.toNat + 1) % 2 ^ 32 ≠ 0 := fun h =>
        hwrap (UInt32.toNat_inj.1 (hadd.trans h))
      have hno : (p + 1).toNat = p.toNat + 1 := by omega
      rw [value, value, hno, Nat.mod_eq_of_lt (by omega)]
      omega

theorem value_map_not : value (pn.map fun p => ~~~p) = 2 ^ (32 * pn.length) - 1 - value pn := by
  induction pn with
  | nil => rfl
  | cons p pn ih =>
    have hlt := value_lt pn
    have hp := p.toNat_lt
    have hnot : (~~~p).toNat = 2 ^ 32 - 1 - p.toNat := UInt32.toNat_not p
    rw [map_cons, value, ih, hnot, value, length_cons, two_pow_succ_limbs]
    omega

end

theorem compareTo_eq_compare {pn qn : List UInt32} (hlen : pn.length = qn.length) :
    compareTo pn qn = compare (value pn) (value qn) := by
  induction pn generalizing qn with
  | nil =>
    rw [length_eq_zero_iff.1 hlen.symm]
    rfl
  | cons p pn ih =>
    cases qn with
    | nil => exact nomatch hlen
    | cons q qn =>
      have hp := p.toNat_lt
      have hq := q.toNat_lt
      rw [compareTo, ih (Nat.succ.inj hlen), value, value]
      rcases lt_trichotomy (value pn) (value qn) with hlt | heq | hgt
      · rw [compare_lt_iff_lt.2 hlt, compare_lt_iff_lt.2 (by omega)]
        rfl
      · rw [compare_eq_iff_eq.2 heq, heq]
        split_ifs with hlt hgt
        · exact (compare_lt_iff_lt.2 (Nat.add_lt_add_right (UInt32.lt_iff_toNat_lt.1 hlt) _)).symm
        · exact (compare_gt_iff_gt.2 (Nat.add_lt_add_right (UInt32.lt_iff_toNat_lt.1 hgt) _)).symm
        · rw [UInt32.le_antisymm (UInt32.not_lt.1 hgt) (UInt32.not_lt.1 hlt)]
          exact (compare_eq_iff_eq.2 rfl).symm
      · rw [compare_gt_iff_gt.2 hgt, compare_gt_iff_gt.2 (by omega)]
        rfl

end Limbs

end Foundation
