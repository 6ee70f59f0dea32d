import Coinyecoin.Basic.Fault
import Coinyecoin.Foundation.Limbs

/-!
# Unsigned big integers

`base_uint`: an array of 32-bit words and its operators, word by word as the
source computes them. Multiplication adds one row of products after the other;
division aligns the divisor with the number and subtracts and shifts. Each
operator is that of the numbers, modulo `2 ^ (32 * WIDTH)`.
-/

namespace Coinyecoin

open Foundation List

/-- `base_uint<32 * WIDTH>`, the lowest word first. -/
structure BaseUint (WIDTH : ℕ) where
  pn : List UInt32
  length_pn : pn.length = WIDTH
deriving DecidableEq

namespace BaseUint

variable {WIDTH : ℕ}

def toNat (a : BaseUint WIDTH) : ℕ := Limbs.value a.pn

def zero : BaseUint WIDTH := ⟨List.replicate WIDTH 0, List.length_replicate⟩

def ofUInt64 (b : UInt64) : BaseUint (WIDTH + 2) where
  pn := b.toUInt32 :: (b >>> 32).toUInt32 :: List.replicate WIDTH 0
  length_pn := by rw [List.length_cons, List.length_cons, List.length_replicate]

def shiftLeftStep (a : List UInt32) (k : ℕ) (shift : UInt32) (pn : List UInt32) (i : ℕ) :
    List UInt32 :=
  let pn := if i + k + 1 < a.length ∧ shift ≠ 0 then
      pn.modify (i + k + 1) (· ||| (a.getD i 0 >>> (32 - shift)))
    else pn
  if i + k < a.length then pn.modify (i + k) (· ||| (a.getD i 0 <<< shift)) else pn

def shiftLeftWords (a : List UInt32) (shift : ℕ) : List UInt32 :=
  (List.range a.length).foldl (shiftLeftStep a (shift / 32) (UInt32.ofNat (shift % 32)))
    (List.replicate a.length 0)

def shiftRightStep (a : List UInt32) (k : ℕ) (shift : UInt32) (pn : List UInt32) (i : ℕ) :
    List UInt32 :=
  let pn := if k + 1 ≤ i ∧ shift ≠ 0 then
      pn.modify (i - k - 1) (· ||| (a.getD i 0 <<< (32 - shift)))
    else pn
  if k ≤ i then pn.modify (i - k) (· ||| (a.getD i 0 >>> shift)) else pn

def shiftRightWords (a : List UInt32) (shift : ℕ) : List UInt32 :=
  (List.range a.length).foldl (shiftRightStep a (shift / 32) (UInt32.ofNat (shift % 32)))
    (List.replicate a.length 0)

def addWords (a b : List UInt32) : List UInt32 :=
  Limbs.propagate 0 (a.zipWith (fun p q => p.toUInt64 + q.toUInt64) b)

/-- `operator-`: the complement, plus one. -/
def negWords (a : List UInt32) : List UInt32 := Limbs.increment (a.map fun p => ~~~p)

/-- `operator*=` for a factor of one word. -/
def mulWord (a : List UInt32) (b32 : UInt32) : List UInt32 :=
  Limbs.propagate 0 (a.map fun p => b32.toUInt64 * p.toUInt64)

/-- The round of `operator*=` for one word `aj`: `pn` are the words of the result from its place
on. -/
def mulRow (aj : UInt32) (b pn : List UInt32) : List UInt32 :=
  Limbs.propagate 0 (pn.zipWith (fun p q => p.toUInt64 + aj.toUInt64 * q.toUInt64) b)

def mulLoop (b : List UInt32) : List UInt32 → List UInt32 → List UInt32
  | [], pn => pn
  | aj :: a, pn =>
    match mulRow aj b pn with
    | [] => []
    | p :: pn => p :: mulLoop b a pn

/-- The highest set bit of a word that is not zero, looked for from `bit` down. -/
def topBit (p : UInt32) : ℕ → ℕ
  | 0 => 0
  | bit + 1 => if p &&& (1 <<< UInt32.ofNat (bit + 1)) ≠ 0 then bit + 1 else topBit p bit

/-- `bits`, over the words from the highest down. -/
def bitsLoop : List UInt32 → ℕ
  | [] => 0
  | p :: pn => if p ≠ 0 then 32 * pn.length + topBit p 31 + 1 else bitsLoop pn

/-- `pn[shift / 32] |= 1 << (shift & 31)`. -/
def setBit (pn : List UInt32) (shift : ℕ) : List UInt32 :=
  pn.modify (shift / 32) (· ||| (1 <<< UInt32.ofNat (shift % 32)))

/-- The loop of `operator/=`, with `shift + 1` rounds to go. -/
def divLoop : ℕ → List UInt32 → List UInt32 → List UInt32 → List UInt32
  | 0, _, _, pn => pn
  | shift + 1, num, div, pn =>
    if Limbs.compareTo num div ≠ .lt then
      divLoop shift (addWords num (negWords div)) (shiftRightWords div 1) (setBit pn shift)
    else divLoop shift num (shiftRightWords div 1) pn

section

variable (a b : List UInt32)

theorem length_foldl {α : Type} {step : List UInt32 → α → List UInt32}
    (h : ∀ pn i, (step pn i).length = pn.length) (is : List α) (pn : List UInt32) :
    (is.foldl step pn).length = pn.length := by
  induction is generalizing pn with
  | nil => rfl
  | cons i is ih => rw [foldl_cons, ih, h]

variable (shift : ℕ) (k : ℕ)

theorem length_shiftLeftStep (shift : UInt32) (pn : List UInt32) (i : ℕ) :
    (shiftLeftStep a k shift pn i).length = pn.length := by
  unfold shiftLeftStep
  dsimp only
  split_ifs <;> simp

theorem length_shiftLeftWords : (shiftLeftWords a shift).length = a.length := by
  rw [shiftLeftWords, length_foldl (length_shiftLeftStep a _ _), length_replicate]

theorem length_shiftRightStep (shift : UInt32) (pn : List UInt32) (i : ℕ) :
    (shiftRightStep a k shift pn i).length = pn.length := by
  unfold shiftRightStep
  dsimp only
  split_ifs <;> simp

theorem length_shiftRightWords : (shiftRightWords a shift).length = a.length := by
  rw [shiftRightWords, length_foldl (length_shiftRightStep a _ _), length_replicate]

variable {a b}

theorem length_addWords (hlen : a.length = b.length) : (addWords a b).length = a.length := by
  rw [addWords, Limbs.length_propagate, length_zipWith, hlen, Nat.min_self]

theorem length_negWords : (negWords a).length = a.length := by
  rw [negWords, Limbs.length_increment, length_map]

variable {pn : List UInt32}

theorem length_mulRow {aj : UInt32} (hle : pn.length ≤ b.length) :
    (mulRow aj b pn).length = pn.length := by
  rw [mulRow, Limbs.length_propagate, length_zipWith, Nat.min_eq_left hle]

theorem length_mulLoop (hle : pn.length ≤ b.length) : (mulLoop b a pn).length = pn.length := by
  induction a generalizing pn with
  | nil => rfl
  | cons aj a ih =>
    have hrow : (mulRow aj b pn).length = pn.length := length_mulRow hle
    rw [mulLoop]
    split
    · rename_i hnil
      rw [← hrow, hnil]
    · rename_i p qn hcons
      rw [hcons, length_cons] at hrow
      rw [length_cons, ih (by omega), hrow]

theorem length_setBit (pn : List UInt32) (shift : ℕ) : (setBit pn shift).length = pn.length :=
  length_modify _ _ _

theorem length_divLoop (rounds : ℕ) (num div pn : List UInt32) :
    (divLoop rounds num div pn).length = pn.length := by
  induction rounds generalizing num div pn with
  | zero => rfl
  | succ shift ih =>
    rw [divLoop]
    split_ifs
    · rw [ih, length_setBit]
    · exact ih _ _ _

end

section

variable (a b : BaseUint WIDTH)

def shiftLeft (shift : ℕ) : BaseUint WIDTH :=
  ⟨shiftLeftWords a.pn shift, (length_shiftLeftWords a.pn shift).trans a.length_pn⟩

def shiftRight (shift : ℕ) : BaseUint WIDTH :=
  ⟨shiftRightWords a.pn shift, (length_shiftRightWords a.pn shift).trans a.length_pn⟩

def add : BaseUint WIDTH :=
  ⟨addWords a.pn b.pn, (length_addWords (a.length_pn.trans b.length_pn.symm)).trans a.length_pn⟩

def neg : BaseUint WIDTH := ⟨negWords a.pn, length_negWords.trans a.length_pn⟩

def sub : BaseUint WIDTH := a.add b.neg

def mulUInt32 (b32 : UInt32) : BaseUint WIDTH :=
  ⟨mulWord a.pn b32, by rw [mulWord, Limbs.length_propagate, List.length_map, a.length_pn]⟩

def mul : BaseUint WIDTH :=
  ⟨mulLoop b.pn a.pn (zero : BaseUint WIDTH).pn,
    (length_mulLoop (zero.length_pn.trans_le b.length_pn.ge)).trans zero.length_pn⟩

def compareTo : Ordering := Limbs.compareTo a.pn b.pn

def bits : ℕ := bitsLoop a.pn.reverse

/-- `operator/=`. -/
def div : Except Fault (BaseUint WIDTH) :=
  if b.bits = 0 then .error .divisionByZero
  else if b.bits > a.bits then .ok zero
  else
    let shift := a.bits - b.bits
    .ok ⟨divLoop (shift + 1) a.pn (b.shiftLeft shift).pn (zero : BaseUint WIDTH).pn,
      (length_divLoop _ _ _ _).trans zero.length_pn⟩

def getLow64 : UInt64 := (a.pn.getD 0 0).toUInt64 ||| ((a.pn.getD 1 0).toUInt64 <<< 32)

end

end BaseUint

end Coinyecoin
