import Coinyecoin.Basic.Amount
import Mathlib.Algebra.Order.Ring.Nat
import Mathlib.Tactic.Ring

/-!
# Compressed amounts

`CompressAmount` and `DecompressAmount`: the zeros at the end of an amount, at
most nine, are counted, and the last digit before them, which is then not zero,
is folded in. Results of unsigned 64-bit arithmetic pass through `word`, so that
whether one of them wraps is a question about the model.
-/

namespace Coinyecoin

open Foundation

def wrap64 (n : ℕ) : ℕ := n % 2 ^ 64

/-- The loop of `CompressAmount`, which takes off at most `left` more zeros: how many it takes off,
and what remains. -/
def stripZeros : ℕ → ℕ → ℕ × ℕ
  | 0, n => (0, n)
  | left + 1, n =>
    if n % 10 = 0 then ((stripZeros left (n / 10)).1 + 1, (stripZeros left (n / 10)).2)
    else (0, n)

section

variable (word : ℕ → ℕ)

def compressAmount (n : ℕ) : Except Fault ℕ :=
  if n = 0 then .ok 0
  else
    let e := (stripZeros 9 n).1
    let n := (stripZeros 9 n).2
    if e < 9 then do
      let d := n % 10
      assertThat (d ≥ 1 ∧ d ≤ 9) "d >= 1 && d <= 9"
      .ok (word (word (1 + word ((word (word (n / 10 * 9) + d) - 1) * 10)) + e))
    else .ok (word (word (1 + word ((n - 1) * 10)) + 9))

def decompressAmount (x : ℕ) : ℕ :=
  if x = 0 then 0
  else
    let e := (x - 1) % 10
    let x := (x - 1) / 10
    let n := if e < 9 then word (word (x / 9 * 10) + (x % 9 + 1)) else word (x + 1)
    (fun n => word (n * 10))^[e] n

/-- Nothing that is computed reaches 64 bits: arithmetic that is right below gives the same. -/
def Exact (word : ℕ → ℕ) : Prop := ∀ n, n < 2 ^ 64 → word n = n

end

theorem exact_wrap64 : Exact wrap64 := fun _ hn => Nat.mod_eq_of_lt hn

structure Stripped10 (left n e m : ℕ) : Prop where
  value : m * 10 ^ e = n
  le : e ≤ left
  last : e < left → m % 10 ≠ 0

theorem stripZeros_spec (left n : ℕ) :
    Stripped10 left n (stripZeros left n).1 (stripZeros left n).2 := by
  induction left generalizing n with
  | zero => exact ⟨Nat.mul_one n, le_rfl, fun h => absurd h (Nat.lt_irrefl 0)⟩
  | succ left ih =>
    rw [stripZeros]
    split_ifs with hzero
    · refine ⟨?_, Nat.succ_le_succ (ih (n / 10)).le, fun h =>
        (ih (n / 10)).last (Nat.lt_of_succ_lt_succ h)⟩
      rw [pow_succ, ← mul_assoc, (ih (n / 10)).value]
      omega
    · exact ⟨Nat.mul_one n, Nat.zero_le _, fun _ => hzero⟩

variable {word : ℕ → ℕ}

theorem iterate_times_ten (hword : Exact word) {m e : ℕ} (hlt : m * 10 ^ e < 2 ^ 64) :
    (fun n => word (n * 10))^[e] m = m * 10 ^ e := by
  induction e generalizing m with
  | zero => exact (Nat.mul_one m).symm
  | succ e ih =>
    have hstep : m * 10 * 10 ^ e = m * 10 ^ (e + 1) := by ring
    have hle : m * 10 ≤ m * 10 ^ (e + 1) :=
      hstep ▸ Nat.le_mul_of_pos_right _ (Nat.pow_pos (by decide))
    rw [Function.iterate_succ_apply, hword _ (hle.trans_lt hlt), ih (hstep ▸ hlt), hstep]

/-- The code of `m * 10 ^ e` without `e`, where `m` ends in a digit other than zero unless `e` is
nine. -/
def foldDigit (m e : ℕ) : ℕ := if e < 9 then m / 10 * 9 + m % 10 - 1 else m - 1

section

variable {n e m : ℕ} (h : Stripped10 9 n e m) (hpos : 0 < n)
include h

theorem Stripped10.le_self : m ≤ n :=
  (Nat.le_mul_of_pos_right m (Nat.pow_pos (by decide : 0 < 10))).trans_eq h.value

include hpos

theorem Stripped10.pos : 0 < m := by
  refine Nat.pos_of_ne_zero fun hzero => ?_
  rw [← h.value, hzero, Nat.zero_mul] at hpos
  exact Nat.lt_irrefl 0 hpos

theorem decompressAmount_code (hword : Exact word) (hn : n < 2 ^ 63) :
    decompressAmount word (foldDigit m e * 10 + e + 1) = n := by
  have hle := h.le_self
  have hm := h.pos hpos
  have hnine := h.le
  have hexp : (foldDigit m e * 10 + e) % 10 = e := by omega
  have hrest : (foldDigit m e * 10 + e) / 10 = foldDigit m e := by omega
  have hdigits : (if e < 9 then word (word (foldDigit m e / 9 * 10) + (foldDigit m e % 9 + 1))
      else word (foldDigit m e + 1)) = m := by
    rw [foldDigit]
    split_ifs with he
    · have hlast := h.last he
      rw [hword ((m / 10 * 9 + m % 10 - 1) / 9 * 10) (by omega), hword _ (by omega)]
      omega
    · rw [hword _ (by omega)]
      omega
  rw [decompressAmount, if_neg (Nat.succ_ne_zero _)]
  simp only [Nat.add_sub_cancel, hexp, hrest, hdigits]
  rw [iterate_times_ten hword (by rw [h.value]; omega), h.value]

end

theorem compressAmount_eq (hword : Exact word) {n : ℕ} (hpos : 0 < n) (hn : n ≤ 10 ^ 18) :
    compressAmount word n =
      .ok (foldDigit (stripZeros 9 n).2 (stripZeros 9 n).1 * 10 + (stripZeros 9 n).1 + 1) := by
  have h := stripZeros_spec 9 n
  have hle := h.le_self
  have hm := h.pos hpos
  have hnine := h.le
  rw [compressAmount, if_neg hpos.ne', foldDigit]
  dsimp only
  split_ifs with he
  · have hlast := h.last he
    rw [assertThat_of_true (by omega), ok_bind]
    simp (disch := omega) only [hword _]
    congr 1
    omega
  · simp (disch := omega) only [hword _]
    congr 1
    omega

/-- Amounts are compressed without a wrap, and both ways round nothing is lost. -/
theorem decompressAmount_compressAmount {n : ℕ} (hn : (n : ℤ) ≤ MAX_MONEY) :
    (∀ word, Exact word → compressAmount word n = compressAmount id n) ∧
    ∃ x, compressAmount wrap64 n = .ok x ∧ x < 2 ^ 64 ∧ decompressAmount wrap64 x = n ∧
      compressAmount wrap64 (decompressAmount wrap64 x) = .ok x := by
  have hmax : n ≤ 10 ^ 18 := by
    rw [MAX_MONEY, COIN] at hn
    omega
  obtain rfl | hpos := Nat.eq_zero_or_pos n
  · exact ⟨fun word _ => rfl, 0, rfl, by decide, rfl, rfl⟩
  · have h := stripZeros_spec 9 n
    have hcode := compressAmount_eq exact_wrap64 hpos hmax
    have hback := decompressAmount_code h hpos exact_wrap64 (by omega)
    refine ⟨fun word hword => ?_, _, hcode, ?_, hback, by rw [hback, hcode]⟩
    · have hid : Exact id := fun _ _ => rfl
      rw [compressAmount_eq hword hpos hmax, compressAmount_eq hid hpos hmax]
    · have hle := h.le_self
      have hnine := h.le
      rw [foldDigit]
      split_ifs with he
      · omega
      · omega

theorem decompressAmount_compressAmount_most :
    (10 ^ 18 : ℕ) ≤ MAX_MONEY ∧ ∃ x, compressAmount wrap64 (10 ^ 18) = .ok x ∧
      decompressAmount wrap64 x = 10 ^ 18 := by
  have hmax : (10 ^ 18 : ℕ) ≤ MAX_MONEY := by decide
  obtain ⟨-, x, hcode, -, hback, -⟩ := decompressAmount_compressAmount hmax
  exact ⟨hmax, x, hcode, hback⟩

end Coinyecoin
