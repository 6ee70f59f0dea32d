import Coinyecoin.Foundation.ByteStream
import Mathlib.Data.Nat.Bitwise
import Mathlib.Tactic.Ring

/-!
# Bytes as digits

The highest bit of a byte and the other seven, as arithmetic, and numbers with
their highest byte set apart.
-/

namespace Foundation

variable (b : UInt8) (l : Bytes)

theorem toNat_and_7f : (b &&& 0x7f).toNat = b.toNat % 128 := by
  rw [UInt8.toNat_and]
  exact Nat.and_two_pow_sub_one_eq_mod b.toNat 7

theorem toNat_and_80 : (b &&& 0x80).toNat = 128 * (b.toNat / 128) := by
  have hlt := b.toNat_lt
  have hbit : (b.toNat.testBit 7).toNat = b.toNat / 128 := by
    rw [Nat.toNat_testBit]
    omega
  rw [UInt8.toNat_and, mul_comm, ← hbit]
  exact Nat.and_two_pow b.toNat 7

theorem and_80_ne_zero {b : UInt8} : b &&& 0x80 ≠ 0 ↔ 128 ≤ b.toNat := by
  rw [ne_eq, ← UInt8.toNat_inj, toNat_and_80]
  change ¬ 128 * (b.toNat / 128) = 0 ↔ _
  omega

theorem toNat_or_80 {b : UInt8} (hb : b.toNat < 128) : (b ||| 0x80).toNat = b.toNat + 128 := by
  rw [UInt8.toNat_or, Nat.or_comm]
  exact (Nat.two_pow_add_eq_or_of_lt (i := 7) hb 1).symm.trans (Nat.add_comm _ _)

theorem leNat_concat (b : UInt8) : leNat (l ++ [b]) = leNat l + 256 ^ l.length * b.toNat := by
  induction l with
  | nil => simp [leNat]
  | cons c l ih =>
    rw [List.cons_append, leNat, leNat, ih, List.length_cons, pow_succ]
    ring

theorem leNat_lt : leNat l < 256 ^ l.length := by
  induction l with
  | nil => exact Nat.one_pos
  | cons c l ih =>
    have hc := c.toNat_lt
    rw [leNat, List.length_cons, pow_succ]
    omega

end Foundation
