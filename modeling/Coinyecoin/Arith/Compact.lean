import Coinyecoin.Consensus.Params
import Mathlib.Algebra.Order.Group.Nat
import Mathlib.Data.Nat.Log

/-!
# Compact targets

The 32-bit floating format of `nBits`. `arith_uint256` is a `uint256` read as a
number, its operations those of `BitVec 256`: they wrap at `2 ^ 256`, and a
shift by 256 or more gives zero.
-/

namespace Coinyecoin

open Nat

namespace ArithUint256

def bits (x : uint256) : ℕ :=
  if x.toNat = 0 then 0 else Nat.log2 x.toNat + 1

theorem toNat_lt_two_pow_bits (x : uint256) : x.toNat < 2 ^ bits x := by
  unfold bits
  split_ifs with h
  · simp [h]
  · exact (log2_lt h).1 (lt_succ_self _)

theorem bits_le (x : uint256) : bits x ≤ 256 := by
  unfold bits
  split_ifs with h
  · omega
  · have hlt : Nat.log2 x.toNat < 256 := (log2_lt h).2 x.isLt
    omega

/-- `arith_uint256::SetCompact`: the value, the negative flag and the overflow
flag. -/
def setCompact (nCompact : UInt32) : uint256 × Bool × Bool :=
  let nSize := nCompact.toNat / 2 ^ 24
  let nMantissa := nCompact.toNat % 2 ^ 23
  let nWord := if nSize ≤ 3 then nMantissa / 2 ^ (8 * (3 - nSize)) else nMantissa
  let value : uint256 :=
    if nSize ≤ 3 then BitVec.ofNat 256 nWord
    else BitVec.ofNat 256 nWord <<< (8 * (nSize - 3))
  (value,
    nWord ≠ 0 ∧ nCompact.toNat.testBit 23,
    nWord ≠ 0 ∧ (nSize > 34 ∨ (nWord > 0xff ∧ nSize > 33) ∨ (nWord > 0xffff ∧ nSize > 32)))

/-- The mantissa and the size `GetCompact` packs, after the sign bit of the
mantissa has been cleared. -/
def compactParts (x : uint256) : ℕ × ℕ :=
  let nSize := (bits x + 7) / 8
  let nCompact :=
    if nSize ≤ 3 then x.toNat % 2 ^ 64 * 2 ^ (8 * (3 - nSize)) % 2 ^ 32
    else (x >>> (8 * (nSize - 3))).toNat % 2 ^ 64 % 2 ^ 32
  if nCompact.testBit 23 then (nCompact / 2 ^ 8, nSize + 1) else (nCompact, nSize)

/-- `arith_uint256::GetCompact`, for a non-negative value. -/
def getCompact (x : uint256) : UInt32 :=
  let (nCompact, nSize) := compactParts x
  UInt32.ofNat (nCompact ||| nSize <<< 24)

section

variable {x y : uint256} {m size : ℕ}

theorem two_pow_bits_le (h : x.toNat ≠ 0) : 2 ^ (bits x - 1) ≤ x.toNat := by
  rw [bits, if_neg h, Nat.add_sub_cancel]
  exact log2_self_le h

theorem bits_mono (h : x.toNat ≤ y.toNat) : bits x ≤ bits y := by
  by_contra hlt
  have hx : x.toNat ≠ 0 := by
    intro hzero
    rw [bits, if_pos hzero] at hlt
    exact hlt (zero_le _)
  have hpow : 2 ^ bits y ≤ 2 ^ (bits x - 1) := Nat.pow_le_pow_right (by decide) (by omega)
  exact absurd (toNat_lt_two_pow_bits y) (by have := two_pow_bits_le hx; omega)

def mantissa (x : uint256) : ℕ :=
  if (bits x + 7) / 8 ≤ 3 then x.toNat * 2 ^ (8 * (3 - (bits x + 7) / 8))
  else x.toNat / 2 ^ (8 * ((bits x + 7) / 8 - 3))

theorem mantissa_eq (x : uint256) :
    (if (bits x + 7) / 8 ≤ 3 then
        x.toNat % 2 ^ 64 * 2 ^ (8 * (3 - (bits x + 7) / 8)) % 2 ^ 32
      else (x >>> (8 * ((bits x + 7) / 8 - 3))).toNat % 2 ^ 64 % 2 ^ 32) = mantissa x := by
  have hx : x.toNat < 2 ^ (8 * ((bits x + 7) / 8)) :=
    lt_of_lt_of_le (toNat_lt_two_pow_bits x) (Nat.pow_le_pow_right (by decide) (by omega))
  unfold mantissa
  split_ifs with hsize
  · have hsmall : x.toNat < 2 ^ 64 :=
      hx.trans_le (Nat.pow_le_pow_right (by decide) (by omega))
    have hmul : x.toNat * 2 ^ (8 * (3 - (bits x + 7) / 8)) < 2 ^ 24 := by
      calc _ < 2 ^ (8 * ((bits x + 7) / 8)) * 2 ^ (8 * (3 - (bits x + 7) / 8)) :=
            Nat.mul_lt_mul_of_pos_right hx (Nat.two_pow_pos _)
        _ = 2 ^ 24 := by rw [← pow_add]; congr 1; omega
    rw [mod_eq_of_lt hsmall, mod_eq_of_lt (by omega)]
  · have hshift : x.toNat / 2 ^ (8 * ((bits x + 7) / 8 - 3)) < 2 ^ 24 := by
      rw [Nat.div_lt_iff_lt_mul (Nat.two_pow_pos _), ← pow_add]
      exact lt_of_lt_of_eq hx (by congr 1; omega)
    rw [BitVec.toNat_ushiftRight, shiftRight_eq_div_pow, mod_mod_of_dvd _ (by decide),
      mod_eq_of_lt (by omega)]

theorem compactParts_eq (x : uint256) :
    compactParts x = if (mantissa x).testBit 23 then (mantissa x / 2 ^ 8, (bits x + 7) / 8 + 1)
      else (mantissa x, (bits x + 7) / 8) := by
  unfold compactParts
  simp only [mantissa_eq]

theorem mantissa_lt_of_lt {k : ℕ} (hk : k ≤ 24)
    (hx : x.toNat < 2 ^ (8 * ((bits x + 7) / 8) - k)) (hsize : k ≤ 8 * ((bits x + 7) / 8)) :
    mantissa x < 2 ^ (24 - k) := by
  unfold mantissa
  split_ifs with h
  · calc _ < 2 ^ (8 * ((bits x + 7) / 8) - k) * 2 ^ (8 * (3 - (bits x + 7) / 8)) :=
          Nat.mul_lt_mul_of_pos_right hx (Nat.two_pow_pos _)
      _ = 2 ^ (24 - k) := by
        rw [← pow_add]
        congr 1
        omega
  · rw [Nat.div_lt_iff_lt_mul (Nat.two_pow_pos _), ← pow_add]
    refine lt_of_lt_of_eq hx ?_
    congr 1
    omega

theorem mantissa_lt (x : uint256) : mantissa x < 2 ^ 24 := by
  refine mantissa_lt_of_lt (k := 0) (by decide) ((toNat_lt_two_pow_bits x).trans_le ?_) (by omega)
  exact Nat.pow_le_pow_right (by decide) (by omega)

theorem compactParts_lt (x : uint256) : (compactParts x).1 < 2 ^ 23 ∧ (compactParts x).2 < 256 := by
  have hbits := bits_le x
  have hm := mantissa_lt x
  rw [compactParts_eq]
  split_ifs with hsign
  · constructor <;> dsimp only <;> omega
  · rw [testBit_eq_decide_div_mod_eq, decide_eq_true_eq] at hsign
    constructor <;> dsimp only <;> omega

theorem testBit_mantissa (h : x.toNat ≠ 0) :
    (mantissa x).testBit 23 = true ↔ bits x = 8 * ((bits x + 7) / 8) := by
  have hpos : 0 < bits x := by
    rw [bits, if_neg h]
    exact succ_pos _
  have hlt := toNat_lt_two_pow_bits x
  have hge := two_pow_bits_le h
  constructor
  · intro hset
    by_contra hne
    have hsmall : mantissa x < 2 ^ (24 - 1) := by
      refine mantissa_lt_of_lt (by decide) (hlt.trans_le ?_) (by omega)
      exact Nat.pow_le_pow_right (by decide) (by omega)
    exact absurd (ge_two_pow_of_testBit hset) (not_le.2 hsmall)
  · intro hfull
    have hupper : mantissa x < 2 ^ (24 - 0) :=
      mantissa_lt_of_lt (by decide) (hlt.trans_le (Nat.pow_le_pow_right (by decide) (by omega)))
        (zero_le _)
    have hlower : 2 ^ 23 ≤ mantissa x := by
      unfold mantissa
      split_ifs with hsize
      · calc 2 ^ 23 = 2 ^ (bits x - 1) * 2 ^ (8 * (3 - (bits x + 7) / 8)) := by
              rw [← pow_add]
              congr 1
              omega
          _ ≤ _ := Nat.mul_le_mul_right _ hge
      · rw [Nat.le_div_iff_mul_le (Nat.two_pow_pos _), ← pow_add]
        refine le_of_eq_of_le ?_ hge
        congr 1
        omega
    rw [testBit_eq_decide_div_mod_eq, decide_eq_true_eq]
    omega

theorem toNat_pack (hm : m < 2 ^ 23) (hsize : size < 256) :
    (UInt32.ofNat (m ||| size <<< 24)).toNat = 2 ^ 24 * size + m := by
  rw [Nat.or_comm, Nat.shiftLeft_eq, Nat.mul_comm, ← Nat.two_pow_add_eq_or_of_lt (by omega),
    UInt32.toNat_ofNat']
  exact mod_eq_of_lt (by omega)

theorem toNat_setCompact_pack (hm : m < 2 ^ 23) (hsize : size < 256) :
    (setCompact (UInt32.ofNat (m ||| size <<< 24))).1.toNat =
      if size ≤ 3 then m / 2 ^ (8 * (3 - size)) else m * 2 ^ (8 * (size - 3)) % 2 ^ 256 := by
  have hdiv : (2 ^ 24 * size + m) / 2 ^ 24 = size := by omega
  have hmod : (2 ^ 24 * size + m) % 2 ^ 23 = m := by omega
  unfold setCompact
  simp only [toNat_pack hm hsize, hdiv, hmod]
  split_ifs with h
  · rw [BitVec.toNat_ofNat, mod_eq_of_lt]
    exact (div_le_self _ _).trans_lt (by omega)
  · rw [BitVec.toNat_shiftLeft, BitVec.toNat_ofNat, Nat.shiftLeft_eq,
      mod_eq_of_lt (show m < 2 ^ 256 by omega)]

theorem setCompact_pack_flags (hm : m < 2 ^ 23) (hsize : size ≤ 33)
    (hlast : size = 33 → m < 2 ^ 16) :
    (setCompact (UInt32.ofNat (m ||| size <<< 24))).2 = (false, false) := by
  have hdiv : (2 ^ 24 * size + m) / 2 ^ 24 = size := by omega
  have hmod : (2 ^ 24 * size + m) % 2 ^ 23 = m := by omega
  have hsign : (2 ^ 24 * size + m).testBit 23 = false := by
    rw [testBit_eq_decide_div_mod_eq, decide_eq_false_iff_not]
    omega
  have hword : (if size ≤ 3 then m / 2 ^ (8 * (3 - size)) else m) ≤ m := by
    split_ifs
    · exact div_le_self _ _
    · exact le_refl m
  unfold setCompact
  simp only [toNat_pack hm (show size < 256 by omega), hdiv, hmod, hsign]
  generalize (if size ≤ 3 then m / 2 ^ (8 * (3 - size)) else m) = nWord at hword
  refine Prod.ext (by simp) (decide_eq_false ?_)
  omega

def droppedBytes (x : uint256) : ℕ := bits x / 8 - 2

theorem toNat_setCompact_getCompact (x : uint256) :
    (setCompact (getCompact x)).1.toNat =
      x.toNat / 2 ^ (8 * droppedBytes x) * 2 ^ (8 * droppedBytes x) := by
  obtain ⟨hm, hsize⟩ := compactParts_lt x
  have hdecode : (setCompact (getCompact x)).1.toNat =
      if (compactParts x).2 ≤ 3 then (compactParts x).1 / 2 ^ (8 * (3 - (compactParts x).2))
      else (compactParts x).1 * 2 ^ (8 * ((compactParts x).2 - 3)) % 2 ^ 256 :=
    toNat_setCompact_pack hm hsize
  have hround : ∀ k, x.toNat / 2 ^ k * 2 ^ k < 2 ^ 256 := fun k =>
    (div_mul_le_self _ _).trans_lt x.isLt
  have hparts := compactParts_eq x
  rw [hdecode, droppedBytes]
  by_cases h : x.toNat = 0
  · have hbits : bits x = 0 := if_pos h
    rw [mantissa, hbits, h] at hparts
    rw [hparts, hbits, h]
    rfl
  by_cases hfull : bits x = 8 * ((bits x + 7) / 8)
  · rw [if_pos ((testBit_mantissa h).2 hfull)] at hparts
    rw [hparts, mantissa]
    generalize (bits x + 7) / 8 = nSize at hfull
    rw [hfull, Nat.mul_div_cancel_left _ (by decide)]
    dsimp only
    rcases lt_trichotomy nSize 3 with hshort | rfl | hlong
    · have hzero : nSize - 2 = 0 := by omega
      have hexp : 8 + 8 * (3 - (nSize + 1)) = 8 * (3 - nSize) := by omega
      rw [if_pos (by omega), if_pos (by omega), Nat.div_div_eq_div_mul, ← pow_add, hexp,
        Nat.mul_div_cancel _ (Nat.two_pow_pos _), hzero]
      simp
    · have hlt := hround 8
      simpa using mod_eq_of_lt hlt
    · have hexp : 8 * (nSize - 3) + 8 = 8 * (nSize - 2) := by omega
      have hsize : nSize + 1 - 3 = nSize - 2 := by omega
      rw [if_neg (by omega), if_neg (by omega), Nat.div_div_eq_div_mul, ← pow_add, hexp, hsize]
      exact mod_eq_of_lt (hround _)
  · rw [if_neg (mt (testBit_mantissa h).1 hfull)] at hparts
    have hbits : bits x / 8 - 2 = (bits x + 7) / 8 - 3 := by omega
    rw [hparts, mantissa, hbits]
    dsimp only
    split_ifs with hshort
    · have hzero : (bits x + 7) / 8 - 3 = 0 := by omega
      rw [Nat.mul_div_cancel _ (Nat.two_pow_pos _), hzero]
      simp
    · exact mod_eq_of_lt (hround _)

theorem two_pow_bits_le_kept (h : x.toNat ≠ 0) :
    2 ^ (bits x - 1) ≤ x.toNat / 2 ^ (8 * droppedBytes x) * 2 ^ (8 * droppedBytes x) := by
  have hexp : bits x - 1 = bits x - 1 - 8 * droppedBytes x + 8 * droppedBytes x := by
    unfold droppedBytes
    omega
  calc 2 ^ (bits x - 1) = 2 ^ (bits x - 1 - 8 * droppedBytes x) * 2 ^ (8 * droppedBytes x) := by
        rw [← pow_add, ← hexp]
    _ ≤ _ := by
        refine Nat.mul_le_mul_right _ ((Nat.le_div_iff_mul_le (Nat.two_pow_pos _)).2 ?_)
        rw [← pow_add, ← hexp]
        exact two_pow_bits_le h

theorem toNat_setCompact_getCompact_mono (h : x.toNat ≤ y.toNat) :
    (setCompact (getCompact x)).1.toNat ≤ (setCompact (getCompact y)).1.toNat := by
  rw [toNat_setCompact_getCompact, toNat_setCompact_getCompact]
  rcases Nat.eq_or_lt_of_le (bits_mono h) with heq | hlt
  · rw [droppedBytes, droppedBytes, heq]
    exact Nat.mul_le_mul_right _ (Nat.div_le_div_right h)
  · -- the larger value keeps its highest bit
    have hy : y.toNat ≠ 0 := by
      intro hzero
      rw [bits, bits, if_pos hzero] at hlt
      exact not_lt_zero _ hlt
    calc x.toNat / 2 ^ (8 * droppedBytes x) * 2 ^ (8 * droppedBytes x)
        ≤ x.toNat := div_mul_le_self _ _
      _ ≤ 2 ^ (bits y - 1) :=
          (toNat_lt_two_pow_bits x).le.trans (Nat.pow_le_pow_right (by decide) (by omega))
      _ ≤ _ := two_pow_bits_le_kept hy

theorem compactParts_room (x : uint256) :
    (compactParts x).2 ≤ 33 ∧ ((compactParts x).2 = 33 → (compactParts x).1 < 2 ^ 16) := by
  have hbits := bits_le x
  have hlt : mantissa x < 2 ^ 24 := mantissa_lt x
  rw [compactParts_eq]
  split_ifs
  · exact ⟨by dsimp only; omega, fun _ => by dsimp only; omega⟩
  · exact ⟨by dsimp only; omega, fun h => by dsimp only at h; omega⟩

theorem toNat_setCompact_getCompact_le (x : uint256) :
    (setCompact (getCompact x)).1.toNat ≤ x.toNat := by
  rw [toNat_setCompact_getCompact]
  exact div_mul_le_self _ _

theorem bits_setCompact_getCompact (x : uint256) : bits (setCompact (getCompact x)).1 = bits x := by
  refine le_antisymm (bits_mono (toNat_setCompact_getCompact_le x)) (not_lt.1 fun hlt => ?_)
  have hx : x.toNat ≠ 0 := by
    intro hzero
    rw [bits, bits, if_pos hzero] at hlt
    exact not_lt_zero _ hlt
  have hkept := two_pow_bits_le_kept hx
  rw [← toNat_setCompact_getCompact] at hkept
  have hpow : 2 ^ bits (setCompact (getCompact x)).1 ≤ 2 ^ (bits x - 1) :=
    Nat.pow_le_pow_right (by decide) (by omega)
  have := toNat_lt_two_pow_bits (setCompact (getCompact x)).1
  omega

theorem compactParts_setCompact_getCompact (x : uint256) :
    compactParts (setCompact (getCompact x)).1 = compactParts x := by
  have hbits := bits_setCompact_getCompact x
  have hvalue := toNat_setCompact_getCompact x
  generalize (setCompact (getCompact x)).1 = y at hbits hvalue ⊢
  by_cases hdropped : droppedBytes x = 0
  · rw [hdropped] at hvalue
    rw [BitVec.eq_of_toNat_eq (show y.toNat = x.toNat by simpa using hvalue)]
  have hlarge : 24 ≤ bits x := by
    unfold droppedBytes at hdropped
    omega
  have hx : x.toNat ≠ 0 := fun hzero => by
    rw [bits, if_pos hzero] at hlarge
    omega
  have hy : y.toNat ≠ 0 := fun hzero => by
    rw [← hbits, bits, if_pos hzero] at hlarge
    omega
  have hmantissa : ∀ z : uint256, bits z = bits x →
      mantissa z = z.toNat / 2 ^ (8 * ((bits x + 7) / 8 - 3)) := fun z hz => by
    unfold mantissa
    rw [hz]
    split_ifs with hthree
    · rw [show (bits x + 7) / 8 = 3 by omega]
      simp
    · rfl
  rw [compactParts_eq, compactParts_eq, hbits]
  by_cases hfull : bits x = 8 * ((bits x + 7) / 8)
  · have hexp : 8 * droppedBytes x = 8 * ((bits x + 7) / 8 - 3) + 8 := by
      unfold droppedBytes
      omega
    rw [if_pos ((testBit_mantissa hx).2 hfull), if_pos ((testBit_mantissa hy).2 (hbits ▸ hfull)),
      hmantissa y hbits, hmantissa x rfl, hvalue, hexp, Nat.div_div_eq_div_mul, ← pow_add,
      Nat.mul_div_cancel _ (Nat.two_pow_pos _), Nat.div_div_eq_div_mul, ← pow_add]
  · have hexp : droppedBytes x = (bits x + 7) / 8 - 3 := by
      unfold droppedBytes
      omega
    rw [if_neg (mt (testBit_mantissa hx).1 hfull),
      if_neg (mt (testBit_mantissa hy).1 (hbits ▸ hfull)), hmantissa y hbits, hmantissa x rfl,
      hvalue, hexp, Nat.mul_div_cancel _ (Nat.two_pow_pos _)]

def significantBytes (x : uint256) : ℕ := (bits x + 7) / 8

def keptBytes (x : uint256) : ℕ :=
  if 0x80 ≤ x.toNat / 2 ^ (8 * (significantBytes x - 1)) then 2 else 3

theorem droppedBytes_eq (x : uint256) : droppedBytes x = significantBytes x - keptBytes x := by
  by_cases hx : x.toNat = 0
  · rw [droppedBytes, significantBytes, bits, if_pos hx]
    simp
  have hpos : 0 < bits x := by
    rw [bits, if_neg hx]
    exact succ_pos _
  have htop : 0x80 ≤ x.toNat / 2 ^ (8 * (significantBytes x - 1)) ↔
      2 ^ (8 * significantBytes x - 1) ≤ x.toNat := by
    rw [Nat.le_div_iff_mul_le (Nat.two_pow_pos _), show 0x80 = 2 ^ 7 from rfl, ← pow_add,
      show 7 + 8 * (significantBytes x - 1) = 8 * significantBytes x - 1 by
        unfold significantBytes
        omega]
  have hlt := toNat_lt_two_pow_bits x
  rw [keptBytes, droppedBytes]
  split_ifs with hset
  · have hbits : 8 * significantBytes x - 1 < bits x :=
      (Nat.pow_lt_pow_iff_right Nat.one_lt_two).1 ((htop.1 hset).trans_lt hlt)
    unfold significantBytes at hbits ⊢
    omega
  · have hbits : bits x - 1 < 8 * significantBytes x - 1 :=
      (Nat.pow_lt_pow_iff_right Nat.one_lt_two).1
        ((two_pow_bits_le hx).trans_lt (not_le.1 (mt htop.2 hset)))
    unfold significantBytes at hbits ⊢
    omega

/-- The compact form of a value is decoded without a flag to its highest bytes, which have the
same compact form; a smaller value is decoded to no larger one. -/
theorem setCompact_getCompact (x y : uint256) :
    (setCompact (getCompact x)).2 = (false, false) ∧
      (setCompact (getCompact x)).1.toNat =
        x.toNat - x.toNat % 2 ^ (8 * (significantBytes x - keptBytes x)) ∧
      (setCompact (getCompact x)).1.toNat ≤ x.toNat ∧
      getCompact (setCompact (getCompact x)).1 = getCompact x ∧
      (x.toNat ≤ y.toNat →
        (setCompact (getCompact x)).1.toNat ≤ (setCompact (getCompact y)).1.toNat) := by
  obtain ⟨hsize, hlast⟩ := compactParts_room x
  refine ⟨setCompact_pack_flags (compactParts_lt x).1 hsize hlast, ?_,
    toNat_setCompact_getCompact_le x, ?_, toNat_setCompact_getCompact_mono⟩
  · rw [toNat_setCompact_getCompact, droppedBytes_eq]
    have := div_add_mod' x.toNat (2 ^ (8 * (significantBytes x - keptBytes x)))
    omega
  · exact congrArg (fun parts : ℕ × ℕ => UInt32.ofNat (parts.1 ||| parts.2 <<< 24))
      (compactParts_setCompact_getCompact x)

theorem setCompact_getCompact_half : (0x80 : uint256).toNat ≤ (0x8000 : uint256).toNat ∧
    (setCompact (getCompact 0x80)).1.toNat ≤ (setCompact (getCompact 0x8000)).1.toNat :=
  ⟨by decide, (setCompact_getCompact 0x80 0x8000).2.2.2.2 (by decide)⟩

end

end ArithUint256

end Coinyecoin
