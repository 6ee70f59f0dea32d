import Coinyecoin.Arith.Compact
import Coinyecoin.Arith.Operators

/-!
# Compact targets in words

`SetCompact` and `GetCompact` as `arith_uint256` computes them, with shifts of
words. They are the functions on 256-bit numbers of the same names, and the
assertions of `GetCompact` hold.
-/

namespace Coinyecoin

open Foundation Nat ArithUint256

/-- `arith_uint256`. -/
abbrev ArithWords := BaseUint 8

namespace BaseUint

/-- `ArithToUint256`. -/
def toUint256 (a : ArithWords) : uint256 := BitVec.ofNat 256 a.toNat

/-- `UintToArith256`. -/
def ofUint256 (x : uint256) : ArithWords where
  pn := (List.range 8).map fun i => UInt32.ofNat (x.toNat / 2 ^ (32 * i))
  length_pn := rfl

def setCompact (nCompact : UInt32) : ArithWords :=
  let nSize := (nCompact >>> 24).toNat
  let nWord := nCompact &&& 0x007fffff
  if nSize ≤ 3 then ofUInt64 (nWord >>> UInt32.ofNat (8 * (3 - nSize))).toUInt64
  else (ofUInt64 nWord.toUInt64).shiftLeft (8 * (nSize - 3))

/-- The size in bytes and the top three of them, before the sign bit is looked at. -/
def topBytes (a : ArithWords) : UInt32 :=
  let nSize := (a.bits + 7) / 8
  if nSize ≤ 3 then (a.getLow64 <<< UInt64.ofNat (8 * (3 - nSize))).toUInt32
  else (a.shiftRight (8 * (nSize - 3))).getLow64.toUInt32

def getCompact (a : ArithWords) : Except Fault UInt32 := do
  let nCompact := a.topBytes
  let nSize := (a.bits + 7) / 8
  let fSign := nCompact &&& 0x00800000 ≠ 0
  let nCompact := if fSign then nCompact >>> 8 else nCompact
  let nSize := if fSign then nSize + 1 else nSize
  assertThat (nCompact &&& ~~~0x007fffff = 0) "(nCompact & ~0x007fffff) == 0"
  assertThat (nSize < 256) "nSize < 256"
  return nCompact ||| (UInt32.ofNat nSize <<< 24)

section

variable (a : ArithWords)

theorem toNat_toUint256 : a.toUint256.toNat = a.toNat := by
  rw [toUint256, BitVec.toNat_ofNat]
  exact mod_eq_of_lt a.toNat_lt

theorem toNat_ofUint256 (x : uint256) : (ofUint256 x).toNat = x.toNat := by
  refine Limbs.value_eq_of_testBit x.isLt fun i hi j hj => ?_
  have hget : (ofUint256 x).pn.getD i 0 = UInt32.ofNat (x.toNat / 2 ^ (32 * i)) := by
    have hi : i < 8 := hi
    simp [ofUint256, List.getD_eq_getElem?_getD, hi]
  rw [hget, UInt32.toNat_ofNat', testBit_mod_two_pow, decide_eq_true hj, Bool.true_and,
    testBit_div_two_pow, add_comm]

theorem bits_toUint256 : ArithUint256.bits a.toUint256 = a.bits := by
  rw [ArithUint256.bits, toNat_toUint256, bits_eq]
  rfl

theorem toNat_getLow64 : a.getLow64.toNat = a.toNat % 2 ^ 64 := by
  obtain ⟨pn, hlen⟩ := a
  match pn, hlen with
  | p :: q :: pn, _ =>
    have hp := p.toNat_lt
    have hq := q.toNat_lt
    have hhigh : (q.toUInt64 <<< 32).toNat = 2 ^ 32 * q.toNat := by
      rw [UInt64.toNat_shiftLeft, UInt32.toNat_toUInt64, shiftLeft_eq, mul_comm]
      exact mod_eq_of_lt (show 2 ^ 32 * q.toNat < 2 ^ 64 by omega)
    change (p.toUInt64 ||| (q.toUInt64 <<< 32)).toNat = Limbs.value (p :: q :: pn) % 2 ^ 64
    rw [UInt64.toNat_or, UInt32.toNat_toUInt64, hhigh, Nat.or_comm,
      ← two_pow_add_eq_or_of_lt hp, Limbs.value, Limbs.value]
    omega

theorem toNat_topBytes : a.topBytes.toNat = mantissa a.toUint256 := by
  rw [← mantissa_eq, bits_toUint256, topBytes]
  split_ifs with h
  · have hcount : 8 * (3 - (a.bits + 7) / 8) < 64 := by omega
    rw [UInt64.toNat_toUInt32, UInt64.toNat_shiftLeft, UInt64.toNat_ofNat',
      mod_eq_of_lt (show 8 * (3 - (a.bits + 7) / 8) < 2 ^ 64 by omega),
      mod_eq_of_lt hcount, shiftLeft_eq, toNat_getLow64, toNat_toUint256,
      mod_mod_of_dvd _ (by decide)]
  · rw [UInt64.toNat_toUInt32, toNat_getLow64, toNat_shiftRight, BitVec.toNat_ushiftRight,
      shiftRight_eq_div_pow, toNat_toUint256]

theorem and_not_mask {n : UInt32} (hn : n.toNat < 2 ^ 23) : n &&& ~~~0x007fffff = 0 := by
  have hclear : ∀ i < 23, (~~~0x007fffff : UInt32).toNat.testBit i = false := by decide
  refine UInt32.toNat_inj.1 (eq_of_testBit_eq fun i => ?_)
  rw [UInt32.toNat_and, testBit_and, UInt32.toNat_zero, zero_testBit]
  by_cases hi : i < 23
  · rw [hclear i hi, Bool.and_false]
  · rw [Nat.testBit_lt_two_pow (hn.trans_le (Nat.pow_le_pow_right (by decide) (by omega))),
      Bool.false_and]

theorem getCompact_eq : a.getCompact = .ok (ArithUint256.getCompact a.toUint256) := by
  have hbounds := compactParts_lt a.toUint256
  have hsign : a.topBytes &&& 0x00800000 ≠ 0 ↔
      (mantissa a.toUint256).testBit 23 = true := by
    rw [← toNat_topBytes]
    exact testBit_of_and_ne_zero a.topBytes (by decide : 23 < 32)
  have hshift : (a.topBytes >>> 8).toNat = mantissa a.toUint256 / 2 ^ 8 := by
    rw [UInt32.toNat_shiftRight, shiftRight_eq_div_pow, toNat_topBytes]
    rfl
  -- the words after the sign bit was looked at are the parts
  have hmantissa : (if a.topBytes &&& 0x00800000 ≠ 0 then a.topBytes >>> 8 else a.topBytes).toNat =
      (compactParts a.toUint256).1 := by
    rw [compactParts_eq]
    by_cases h : a.topBytes &&& 0x00800000 ≠ 0
    · rw [if_pos h, if_pos (hsign.1 h), hshift]
    · rw [if_neg h, if_neg (mt hsign.2 h), toNat_topBytes]
  have hsize : (if a.topBytes &&& 0x00800000 ≠ 0 then (a.bits + 7) / 8 + 1 else (a.bits + 7) / 8) =
      (compactParts a.toUint256).2 := by
    rw [compactParts_eq, bits_toUint256]
    by_cases h : a.topBytes &&& 0x00800000 ≠ 0
    · rw [if_pos h, if_pos (hsign.1 h)]
    · rw [if_neg h, if_neg (mt hsign.2 h)]
  have hpack : ∀ {m : UInt32} {size : ℕ}, size < 256 →
      m ||| (UInt32.ofNat size <<< 24) = UInt32.ofNat (m.toNat ||| size <<< 24) := by
    intro m size h
    have hhigh : (UInt32.ofNat size <<< 24).toNat = size <<< 24 := by
      rw [UInt32.toNat_shiftLeft, UInt32.toNat_ofNat', mod_eq_of_lt (show size < 2 ^ 32 by omega)]
      refine mod_eq_of_lt ?_
      rw [shiftLeft_eq]
      exact mul_lt_mul_of_pos_right h (by decide)
    have hlt := (m ||| (UInt32.ofNat size <<< 24)).toNat_lt
    rw [UInt32.toNat_or, hhigh] at hlt
    refine UInt32.toNat_inj.1 ?_
    rw [UInt32.toNat_or, hhigh, UInt32.toNat_ofNat', mod_eq_of_lt hlt]
  unfold getCompact
  dsimp only
  rw [hsize, assertThat_of_true (and_not_mask (by rw [hmantissa]; exact hbounds.1)), ok_bind,
    assertThat_of_true hbounds.2, ok_bind, hpack hbounds.2, hmantissa]
  rfl

theorem toNat_setCompact (nCompact : UInt32) :
    (setCompact nCompact).toNat = (ArithUint256.setCompact nCompact).1.toNat := by
  have hsize : (nCompact >>> 24).toNat = nCompact.toNat / 2 ^ 24 := by
    rw [UInt32.toNat_shiftRight, shiftRight_eq_div_pow]
    rfl
  have hword : (nCompact &&& 0x007fffff).toNat = nCompact.toNat % 2 ^ 23 := by
    have hmask : (0x007fffff : UInt32).toNat = 2 ^ 23 - 1 := rfl
    rw [UInt32.toNat_and, hmask, and_two_pow_sub_one_eq_mod]
  have hlt : nCompact.toNat % 2 ^ 23 < 2 ^ 23 := mod_lt _ (by decide)
  unfold setCompact ArithUint256.setCompact
  simp only [hsize]
  split_ifs with h
  · have hcount : 8 * (3 - nCompact.toNat / 2 ^ 24) < 32 := by omega
    rw [toNat_ofUInt64, UInt32.toNat_toUInt64, UInt32.toNat_shiftRight, UInt32.toNat_ofNat',
      mod_eq_of_lt (show 8 * (3 - nCompact.toNat / 2 ^ 24) < 2 ^ 32 by omega),
      mod_eq_of_lt hcount, shiftRight_eq_div_pow, hword, BitVec.toNat_ofNat]
    refine (mod_eq_of_lt ((div_le_self _ _).trans_lt ?_)).symm
    omega
  · rw [toNat_shiftLeft, toNat_ofUInt64, UInt32.toNat_toUInt64, hword, BitVec.toNat_shiftLeft,
      BitVec.toNat_ofNat, shiftLeft_eq,
      mod_eq_of_lt (show nCompact.toNat % 2 ^ 23 < 2 ^ 256 by omega)]

end

end BaseUint

end Coinyecoin
