import Coinyecoin.Arith.BaseUint

/-!
# The value of the operators

What each operator of `base_uint` computes, as a number. The shifts move the bits
of the number; sums and products are those of the numbers, modulo the size of the
type; the division is exact, and throws on zero only.
-/

namespace Coinyecoin

open Foundation List Limbs Nat

namespace BaseUint

variable {n bit : ℕ}

section

def wordBit (pn : List UInt32) (m j : ℕ) : Bool := (pn.getD m 0).toNat.testBit j

variable {pn : List UInt32} {i m j s : ℕ}

theorem wordBit_modify_or (hm : m < pn.length) (x : UInt32) (j : ℕ) :
    wordBit (pn.modify i (· ||| x)) m j =
      (wordBit pn m j || (decide (i = m) && x.toNat.testBit j)) := by
  have hget : (pn.modify i (· ||| x)).getD m 0 =
      if i = m then pn.getD m 0 ||| x else pn.getD m 0 := by
    rw [getD_eq_getElem?_getD, getD_eq_getElem?_getD, getElem?_modify, getElem?_eq_getElem hm]
    split_ifs <;> simp_all
  rw [wordBit, wordBit, hget]
  split_ifs with him
  · rw [UInt32.toNat_or, testBit_or, decide_eq_true him, Bool.true_and]
  · rw [decide_eq_false him, Bool.false_and, Bool.or_false]

theorem wordBit_orIf (hm : m < pn.length) (c : Prop) [Decidable c] (x : UInt32) (j : ℕ) :
    wordBit (if c then pn.modify i (· ||| x) else pn) m j =
      (wordBit pn m j || (decide (c ∧ i = m) && x.toNat.testBit j)) := by
  split_ifs with hc
  · rw [wordBit_modify_or hm]
    simp [hc]
  · simp [hc]

theorem length_orIf (c : Prop) [Decidable c] (f : UInt32 → UInt32) :
    (if c then pn.modify i f else pn).length = pn.length := by
  split_ifs
  · exact length_modify f pn i
  · rfl

variable {a : List UInt32}

theorem decide_div_and_testBit {i p : ℕ} (hp : p = 32 * i + j) (hj : j < 32) :
    (decide (p / 32 = i) && (Limbs.value a).testBit p) = wordBit a i j := by
  rw [decide_eq_true (by omega), Bool.true_and, hp]
  exact testBit_value a i hj

theorem wordBit_of_le {i : ℕ} (hj : 32 ≤ j) : wordBit a i j = false :=
  Nat.testBit_lt_two_pow ((a.getD i 0).toNat_lt.trans_le (Nat.pow_le_pow_right (by decide) hj))

theorem toNat_ofNat_small (hs : s ≤ 32) : (UInt32.ofNat s).toNat = s :=
  UInt32.toNat_ofNat_of_lt' (hs.trans_lt (by decide))

theorem testBit_shiftLeft (x : UInt32) (hs : s < 32) (hj : j < 32) :
    (x <<< UInt32.ofNat s).toNat.testBit j = (decide (s ≤ j) && x.toNat.testBit (j - s)) := by
  rw [UInt32.toNat_shiftLeft, toNat_ofNat_small hs.le, Nat.mod_eq_of_lt hs,
    Nat.testBit_mod_two_pow, Nat.testBit_shiftLeft, decide_eq_true hj, Bool.true_and]

theorem testBit_shiftRight {x : UInt32} (hs : s < 32) (j : ℕ) :
    (x >>> UInt32.ofNat s).toNat.testBit j = x.toNat.testBit (s + j) := by
  rw [UInt32.toNat_shiftRight, toNat_ofNat_small hs.le, Nat.mod_eq_of_lt hs, Nat.testBit_shiftRight]

theorem sub_ofNat (hs : s < 32) : 32 - UInt32.ofNat s = UInt32.ofNat (32 - s) := by
  apply UInt32.toNat_inj.1
  have hle : UInt32.ofNat s ≤ 32 := by
    rw [UInt32.le_iff_toNat_le, toNat_ofNat_small hs.le]
    exact hs.le
  rw [UInt32.toNat_sub_of_le _ _ hle, toNat_ofNat_small hs.le, toNat_ofNat_small (Nat.sub_le _ _)]
  rfl

theorem ofNat_ne_zero (hs : s < 32) : UInt32.ofNat s ≠ 0 ↔ s ≠ 0 := by
  rw [Ne, ← UInt32.toNat_inj, toNat_ofNat_small hs.le]
  rfl

theorem wordBit_foldl {step : List UInt32 → ℕ → List UInt32} {len : ℕ} {sel : ℕ → ℕ → ℕ}
    {want : ℕ → ℕ → Bool} (hlen : ∀ pn i, (step pn i).length = pn.length)
    (hstep : ∀ pn i m j, pn.length = len → i < len → m < len → j < 32 →
      wordBit (step pn i) m j = (wordBit pn m j || (decide (sel m j = i) && want m j)))
    {n m j : ℕ} (hn : n ≤ len) (hm : m < len) (hj : j < 32) :
    wordBit ((List.range n).foldl step (List.replicate len 0)) m j =
      (decide (sel m j < n) && want m j) := by
  induction n with
  | zero => simp [wordBit, hm]
  | succ n ih =>
    rw [range_succ, foldl_append, foldl_cons, foldl_nil]
    have hlength : ((List.range n).foldl step (List.replicate len 0)).length = len := by
      rw [length_foldl hlen, length_replicate]
    rw [hstep _ n m j hlength hn hm hj, ih (by omega), ← Bool.and_or_distrib_right]
    congr 1
    rw [← Bool.decide_or]
    exact decide_eq_decide.2 (by omega)

end

section

variable {a pn : List UInt32} {k s i m j : ℕ}

section

variable (hs : s < 32) (hlen : pn.length = a.length) (hm : m < a.length) (hj : j < 32)
include hs hlen hm hj

theorem wordBit_shiftLeftStep :
    wordBit (shiftLeftStep a k (UInt32.ofNat s) pn i) m j =
      (wordBit pn m j || (decide ((32 * m + j - (32 * k + s)) / 32 = i) &&
        (decide (32 * k + s ≤ 32 * m + j) &&
          (Limbs.value a).testBit (32 * m + j - (32 * k + s))))) := by
  unfold shiftLeftStep
  dsimp only
  rw [wordBit_orIf (by rwa [length_orIf, hlen]), wordBit_orIf (hlen ▸ hm), Bool.or_assoc,
    sub_ofNat hs, testBit_shiftLeft _ hs hj]
  simp only [ofNat_ne_zero hs]
  congr 1
  by_cases hnext : i + k + 1 = m ∧ s ≠ 0
  · -- the high part of the word goes to the next place
    obtain ⟨rfl, hs₀⟩ := hnext
    rw [decide_eq_true ⟨⟨hm, hs₀⟩, rfl⟩, decide_eq_false (p := _ ∧ i + k = i + k + 1) (by omega),
      testBit_shiftRight (by omega), Bool.true_and, Bool.false_and, Bool.or_false,
      decide_eq_true (p := 32 * k + s ≤ _) (by omega), Bool.true_and]
    by_cases hlow : j < s
    · exact (decide_div_and_testBit (by omega) (by omega)).symm
    · rw [decide_eq_false (p := _ = i) (by omega), Bool.false_and]
      exact wordBit_of_le (by omega)
  · rw [decide_eq_false (p := _ ∧ i + k + 1 = m) (by tauto), Bool.false_and, Bool.false_or]
    by_cases hhere : i + k = m ∧ s ≤ j
    · obtain ⟨rfl, hle⟩ := hhere
      rw [decide_eq_true (p := _ ∧ i + k = i + k) ⟨hm, rfl⟩, decide_eq_true hle,
        decide_eq_true (p := 32 * k + s ≤ _) (by omega), Bool.true_and, Bool.true_and,
        Bool.true_and]
      exact (decide_div_and_testBit (by omega) (by omega)).symm
    · have hleft : ¬ ((i + k < a.length ∧ i + k = m) ∧ s ≤ j) := by tauto
      have hright : ¬ ((32 * m + j - (32 * k + s)) / 32 = i ∧ 32 * k + s ≤ 32 * m + j) := by omega
      rw [← Bool.and_assoc, ← Bool.and_assoc, ← Bool.decide_and, ← Bool.decide_and,
        decide_eq_false hleft, decide_eq_false hright, Bool.false_and, Bool.false_and]

theorem wordBit_shiftRightStep :
    wordBit (shiftRightStep a k (UInt32.ofNat s) pn i) m j =
      (wordBit pn m j || (decide ((32 * m + j + (32 * k + s)) / 32 = i) &&
        (Limbs.value a).testBit (32 * m + j + (32 * k + s)))) := by
  unfold shiftRightStep
  dsimp only
  rw [wordBit_orIf (by rwa [length_orIf, hlen]), wordBit_orIf (hlen ▸ hm), Bool.or_assoc,
    sub_ofNat hs, testBit_shiftRight hs]
  simp only [ofNat_ne_zero hs]
  congr 1
  by_cases hnext : i = m + k + 1 ∧ s ≠ 0
  · -- the low part of the word goes to the place before
    obtain ⟨rfl, hs₀⟩ := hnext
    rw [decide_eq_true (p := (k + 1 ≤ _ ∧ _) ∧ _) (by omega),
      decide_eq_false (p := k ≤ _ ∧ _ = m) (by omega), testBit_shiftLeft _ (by omega) hj,
      Bool.true_and, Bool.false_and, Bool.or_false]
    by_cases hlow : 32 - s ≤ j
    · rw [decide_eq_true hlow, Bool.true_and]
      exact (decide_div_and_testBit (by omega) (by omega)).symm
    · rw [decide_eq_false hlow, decide_eq_false (p := _ = m + k + 1) (by omega), Bool.false_and,
        Bool.false_and]
  · rw [decide_eq_false (p := (k + 1 ≤ _ ∧ _) ∧ _) (by omega), Bool.false_and, Bool.false_or]
    by_cases hhere : i = m + k
    · subst hhere
      rw [decide_eq_true (p := k ≤ _ ∧ _ = m) (by omega), Bool.true_and]
      by_cases hin : s + j < 32
      · exact (decide_div_and_testBit (by omega) hin).symm
      · rw [decide_eq_false (p := _ = m + k) (by omega), Bool.false_and]
        exact wordBit_of_le (by omega)
    · rw [decide_eq_false (p := k ≤ _ ∧ _ = m) (by omega),
        decide_eq_false (p := _ = i) (by omega), Bool.false_and, Bool.false_and]

end

theorem value_shiftLeftWords (a : List UInt32) (shift : ℕ) :
    Limbs.value (shiftLeftWords a shift) = Limbs.value a * 2 ^ shift % 2 ^ (32 * a.length) := by
  have hshift : shift = 32 * (shift / 32) + shift % 32 := (div_add_mod shift 32).symm
  have hs : shift % 32 < 32 := Nat.mod_lt _ (by decide)
  refine value_eq_of_testBit ?_ fun m hm j hj => ?_
  · rw [length_shiftLeftWords]
    exact Nat.mod_lt _ (Nat.two_pow_pos _)
  rw [length_shiftLeftWords] at hm
  have hbits := wordBit_foldl (length_shiftLeftStep a (shift / 32) (UInt32.ofNat (shift % 32)))
    (fun _ _ _ _ hlen _ => wordBit_shiftLeftStep hs hlen) le_rfl hm hj
  rw [← hshift] at hbits
  rw [Nat.testBit_mod_two_pow, decide_eq_true (by omega), Bool.true_and, testBit_mul_two_pow]
  refine hbits.trans ?_
  rw [decide_eq_true (by omega), Bool.true_and]

theorem value_shiftRightWords {a : List UInt32} {shift : ℕ} :
    Limbs.value (shiftRightWords a shift) = Limbs.value a / 2 ^ shift := by
  have hshift : shift = 32 * (shift / 32) + shift % 32 := (div_add_mod shift 32).symm
  have hs : shift % 32 < 32 := Nat.mod_lt _ (by decide)
  refine value_eq_of_testBit ?_ fun m hm j hj => ?_
  · rw [length_shiftRightWords]
    exact (div_le_self _ _).trans_lt (value_lt a)
  rw [length_shiftRightWords] at hm
  have hbits := wordBit_foldl (length_shiftRightStep a (shift / 32) (UInt32.ofNat (shift % 32)))
    (fun _ _ _ _ hlen _ => wordBit_shiftRightStep hs hlen) le_rfl hm hj
  rw [← hshift] at hbits
  rw [testBit_div_two_pow]
  refine hbits.trans ?_
  by_cases hin : (32 * m + j + shift) / 32 < a.length
  · rw [decide_eq_true hin, Bool.true_and]
  · rw [decide_eq_false hin, Bool.false_and]
    refine (Nat.testBit_lt_two_pow ((value_lt a).trans_le ?_)).symm
    exact Nat.pow_le_pow_right (by decide) (by omega)

variable {b : List UInt32}

theorem forall_mem_zipWith {f : UInt32 → UInt32 → UInt64} {P : UInt64 → Prop}
    (h : ∀ p q, P (f p q)) : ∀ x ∈ a.zipWith f b, P x := by
  induction a generalizing b with
  | nil => exact fun _ hx => nomatch hx
  | cons p a ih =>
    cases b with
    | nil => exact fun _ hx => nomatch hx
    | cons q b => exact forall_mem_cons.2 ⟨h p q, ih⟩

variable (p q : UInt32)

theorem toNat_toUInt64_add : (p.toUInt64 + q.toUInt64).toNat = p.toNat + q.toNat := by
  have hp := p.toNat_lt
  have hq := q.toNat_lt
  rw [UInt64.toNat_add, UInt32.toNat_toUInt64, UInt32.toNat_toUInt64]
  exact Nat.mod_eq_of_lt (by omega)

theorem mul_le_of_words : p.toNat * q.toNat ≤ (2 ^ 32 - 1) * (2 ^ 32 - 1) :=
  Nat.mul_le_mul (Nat.le_sub_one_of_lt p.toNat_lt) (Nat.le_sub_one_of_lt q.toNat_lt)

theorem toNat_toUInt64_mul : (p.toUInt64 * q.toUInt64).toNat = p.toNat * q.toNat := by
  have hle := mul_le_of_words p q
  rw [UInt64.toNat_mul, UInt32.toNat_toUInt64, UInt32.toNat_toUInt64]
  exact Nat.mod_eq_of_lt (by omega)

theorem toNat_rowTerm (aj p q : UInt32) :
    (p.toUInt64 + aj.toUInt64 * q.toUInt64).toNat = p.toNat + aj.toNat * q.toNat := by
  have hp := p.toNat_lt
  have hle := mul_le_of_words aj q
  rw [UInt64.toNat_add, toNat_toUInt64_mul, UInt32.toNat_toUInt64]
  exact Nat.mod_eq_of_lt (by omega)

theorem value_addWords (hlen : a.length = b.length) :
    Limbs.value (addWords a b) = (Limbs.value a + Limbs.value b) % 2 ^ (32 * a.length) := by
  have hterms : ∀ x ∈ a.zipWith (fun p q => p.toUInt64 + q.toUInt64) b,
      x.toNat ≤ 2 ^ 64 - 2 ^ 32 := by
    refine forall_mem_zipWith fun p q => ?_
    have hp := p.toNat_lt
    have hq := q.toNat_lt
    rw [toNat_toUInt64_add]
    omega
  have hwide : ∀ {a b : List UInt32}, a.length = b.length →
      wide (a.zipWith (fun p q => p.toUInt64 + q.toUInt64) b) =
        Limbs.value a + Limbs.value b := by
    intro a b hlen
    induction a generalizing b with
    | nil =>
      rw [length_eq_zero_iff.1 hlen.symm]
      rfl
    | cons p a ih =>
      cases b with
      | nil => exact nomatch hlen
      | cons q b =>
        rw [zipWith_cons_cons, wide, ih (Nat.succ.inj hlen), toNat_toUInt64_add,
          Limbs.value, Limbs.value]
        ring
  rw [addWords, value_propagate (by decide) hterms, hwide hlen, length_zipWith, hlen,
    min_self, show (0 : UInt64).toNat = 0 from rfl, zero_add]

theorem value_negWords (a : List UInt32) :
    Limbs.value (negWords a) =
      (2 ^ (32 * a.length) - Limbs.value a) % 2 ^ (32 * a.length) := by
  have hlt := value_lt a
  rw [negWords, value_increment, value_map_not, length_map]
  congr 1
  omega

theorem value_subWords (hlen : a.length = b.length) (hle : Limbs.value b ≤ Limbs.value a) :
    Limbs.value (addWords a (negWords b)) = Limbs.value a - Limbs.value b := by
  have hlt := value_lt a
  rw [value_addWords (hlen.trans length_negWords.symm), value_negWords, ← hlen, add_mod_mod]
  have hsum : Limbs.value a + (2 ^ (32 * a.length) - Limbs.value b) =
      Limbs.value a - Limbs.value b + 2 ^ (32 * a.length) := by omega
  rw [hsum, add_mod_right, Nat.mod_eq_of_lt (by omega)]

end

section

variable {a b : List UInt32}

theorem value_mulWord (a : List UInt32) (b32 : UInt32) :
    Limbs.value (mulWord a b32) = b32.toNat * Limbs.value a % 2 ^ (32 * a.length) := by
  have hterms : ∀ x ∈ a.map (fun p => b32.toUInt64 * p.toUInt64), x.toNat ≤ 2 ^ 64 - 2 ^ 32 := by
    intro x hx
    obtain ⟨p, -, rfl⟩ := mem_map.1 hx
    have hle := mul_le_of_words b32 p
    rw [toNat_toUInt64_mul]
    omega
  have hwide : ∀ a : List UInt32, wide (a.map fun p => b32.toUInt64 * p.toUInt64) =
      b32.toNat * Limbs.value a := by
    intro a
    induction a with
    | nil => rfl
    | cons p a ih =>
      rw [map_cons, wide, ih, toNat_toUInt64_mul, Limbs.value]
      ring
  rw [mulWord, value_propagate (by decide) hterms, hwide, length_map,
    show (0 : UInt64).toNat = 0 from rfl, zero_add]

theorem add_mul_mod_of_lt {p n x M : ℕ} (hp : p < n) : p + n * (x % M) = (p + n * x) % (n * M) := by
  rw [mod_mul, add_mul_mod_self_left, Nat.mod_eq_of_lt hp,
    add_mul_div_left _ _ (by omega), div_eq_of_lt hp, zero_add]

theorem value_mulRow {aj : UInt32} {pn : List UInt32} (hle : pn.length ≤ b.length) :
    Limbs.value (mulRow aj b pn) =
      (Limbs.value pn + aj.toNat * Limbs.value b) % 2 ^ (32 * pn.length) := by
  have hterms : ∀ x ∈ pn.zipWith (fun p q => p.toUInt64 + aj.toUInt64 * q.toUInt64) b,
      x.toNat ≤ 2 ^ 64 - 2 ^ 32 := by
    refine forall_mem_zipWith fun p q => ?_
    have hp := p.toNat_lt
    have hmul := mul_le_of_words aj q
    rw [toNat_rowTerm]
    omega
  -- the words of `b` beyond the end of the row count for multiples of its size
  have hwide : ∀ {pn b : List UInt32}, pn.length ≤ b.length →
      ∃ c, wide (pn.zipWith (fun p q => p.toUInt64 + aj.toUInt64 * q.toUInt64) b) +
        2 ^ (32 * pn.length) * c = Limbs.value pn + aj.toNat * Limbs.value b := by
    intro pn b hle
    induction pn generalizing b with
    | nil => exact ⟨aj.toNat * Limbs.value b, by simp [wide, Limbs.value]⟩
    | cons p pn ih =>
      cases b with
      | nil => exact absurd hle (not_succ_le_zero _)
      | cons q b =>
        obtain ⟨c, hc⟩ := ih (le_of_succ_le_succ hle)
        refine ⟨c, ?_⟩
        rw [zipWith_cons_cons, wide, toNat_rowTerm, Limbs.value, Limbs.value,
          length_cons, two_pow_succ_limbs]
        calc _ = p.toNat + aj.toNat * q.toNat + 2 ^ 32 *
              (wide (pn.zipWith (fun p q => p.toUInt64 + aj.toUInt64 * q.toUInt64) b) +
                2 ^ (32 * pn.length) * c) := by ring
          _ = _ := by
            rw [hc]
            ring
  obtain ⟨c, hc⟩ := hwide hle
  rw [mulRow, value_propagate (by decide) hterms, length_zipWith, min_eq_left hle,
    show (0 : UInt64).toNat = 0 from rfl, zero_add, ← hc, add_mul_mod_self_left]

theorem value_mulLoop {pn : List UInt32} (hle : pn.length ≤ b.length) :
    Limbs.value (mulLoop b a pn) =
      (Limbs.value pn + Limbs.value a * Limbs.value b) % 2 ^ (32 * pn.length) := by
  induction a generalizing pn with
  | nil =>
    rw [mulLoop, Limbs.value, zero_mul, add_zero, Nat.mod_eq_of_lt (value_lt pn)]
  | cons aj a ih =>
    have hrow : Limbs.value (mulRow aj b pn) =
        (Limbs.value pn + aj.toNat * Limbs.value b) % 2 ^ (32 * pn.length) := value_mulRow hle
    have hlen : (mulRow aj b pn).length = pn.length := length_mulRow hle
    rw [mulLoop]
    split
    · rename_i hnil
      rw [hnil] at hlen
      rw [← hlen, length_nil, mul_zero, pow_zero, mod_one]
      rfl
    · rename_i p qn hcons
      rw [hcons] at hlen hrow
      rw [length_cons] at hlen
      rw [Limbs.value, ih (by omega), ← hlen, two_pow_succ_limbs,
        add_mul_mod_of_lt p.toNat_lt, Limbs.value]
      rw [← hlen, two_pow_succ_limbs, Limbs.value] at hrow
      calc _ = (p.toNat + 2 ^ 32 * Limbs.value qn + 2 ^ 32 * (Limbs.value a * Limbs.value b)) %
            (2 ^ 32 * 2 ^ (32 * qn.length)) := by ring_nf
        _ = _ := by
          rw [hrow, mod_add_mod]
          ring_nf

end

def bitLength (n : ℕ) : ℕ := if n = 0 then 0 else Nat.log2 n + 1

theorem lt_two_pow_bitLength {n : ℕ} : n < 2 ^ bitLength n := by
  unfold bitLength
  split_ifs with h
  · rw [h]
    exact one_pos
  · exact lt_log2_self

theorem two_pow_bitLength_le (h : n ≠ 0) : 2 ^ bitLength n ≤ 2 * n := by
  rw [bitLength, if_neg h, pow_succ']
  exact mul_le_mul_left 2 (log2_self_le h)

theorem bitLength_eq_zero : bitLength n = 0 ↔ n = 0 := by
  by_cases h : n = 0
  · rw [bitLength, if_pos h]
    exact iff_of_true rfl h
  · rw [bitLength, if_neg h]
    exact iff_of_false (succ_ne_zero _) h

theorem testBit_of_and_ne_zero (p : UInt32) (hbit : bit < 32) :
    p &&& (1 <<< UInt32.ofNat bit) ≠ 0 ↔ p.toNat.testBit bit = true := by
  have hone : (1 <<< UInt32.ofNat bit : UInt32).toNat = 2 ^ bit := by
    rw [UInt32.toNat_shiftLeft, UInt32.toNat_ofNat', Nat.mod_eq_of_lt (show bit < 2 ^ 32 by omega),
      Nat.mod_eq_of_lt hbit, show (1 : UInt32).toNat = 1 from rfl, one_shiftLeft]
    exact Nat.mod_eq_of_lt (Nat.pow_lt_pow_right (by decide) hbit)
  rw [Ne, ← UInt32.toNat_inj, UInt32.toNat_and, hone, and_two_pow]
  cases p.toNat.testBit bit <;> simp

theorem topBit_eq {p : UInt32} (hp : p.toNat ≠ 0) (hbit : bit < 32)
    (hlt : p.toNat < 2 ^ (bit + 1)) : topBit p bit = Nat.log2 p.toNat := by
  induction bit with
  | zero =>
    have hone : p.toNat = 1 := by omega
    rw [topBit, hone]
    rfl
  | succ bit ih =>
    rw [topBit]
    split_ifs with hset
    · rw [testBit_of_and_ne_zero p hbit] at hset
      exact ((log2_eq_iff hp).2 ⟨ge_two_pow_of_testBit hset, hlt⟩).symm
    · refine ih (by omega) (lt_pow_two_of_testBit _ fun i hi => ?_)
      rw [testBit_of_and_ne_zero p hbit, Bool.not_eq_true] at hset
      rcases eq_or_lt_of_le hi with rfl | hi
      · exact hset
      · exact Nat.testBit_lt_two_pow (hlt.trans_le (Nat.pow_le_pow_right (by decide) hi))

theorem bitsLoop_eq (pn : List UInt32) : bitsLoop pn = bitLength (Limbs.value pn.reverse) := by
  induction pn with
  | nil => rfl
  | cons p pn ih =>
    have hvalue : Limbs.value (p :: pn).reverse =
        Limbs.value pn.reverse + 2 ^ (32 * pn.length) * p.toNat := by
      rw [reverse_cons, value_append, length_reverse, Limbs.value, Limbs.value, mul_zero, add_zero]
    have hlow := value_lt pn.reverse
    rw [length_reverse] at hlow
    rw [bitsLoop, hvalue]
    split_ifs with hp
    · have hp : p.toNat ≠ 0 := fun h => hp (UInt32.toNat_inj.1 h)
      have hge := log2_self_le hp
      have hlt : p.toNat < 2 ^ (Nat.log2 p.toNat + 1) := lt_log2_self
      have hne : Limbs.value pn.reverse + 2 ^ (32 * pn.length) * p.toNat ≠ 0 := by
        have := Nat.mul_pos (Nat.two_pow_pos (32 * pn.length)) (Nat.pos_of_ne_zero hp)
        omega
      rw [topBit_eq hp (by decide) p.toNat_lt, bitLength, if_neg hne, (log2_eq_iff hne).2]
      constructor
      · rw [pow_add]
        exact (mul_le_mul_left _ hge).trans (le_add_left _ _)
      · rw [add_assoc, pow_add]
        calc _ < 2 ^ (32 * pn.length) + 2 ^ (32 * pn.length) * p.toNat :=
              Nat.add_lt_add_right hlow _
          _ = 2 ^ (32 * pn.length) * (p.toNat + 1) := by ring
          _ ≤ _ := mul_le_mul_left _ hlt
    · rw [not_not] at hp
      rw [hp, ih]
      rfl

theorem value_setBit {pn : List UInt32} {shift : ℕ} (hin : shift < 32 * pn.length)
    (hdvd : 2 ^ (shift + 1) ∣ Limbs.value pn) :
    Limbs.value (setBit pn shift) = Limbs.value pn + 2 ^ shift := by
  have hor : Limbs.value pn + 2 ^ shift = Limbs.value pn ||| 2 ^ shift := by
    obtain ⟨c, hc⟩ := hdvd
    rw [hc]
    exact Nat.two_pow_add_eq_or_of_lt (Nat.pow_lt_pow_right (by decide) (Nat.lt_succ_self _)) c
  rw [hor]
  refine value_eq_of_testBit ?_ fun m hm j hj => ?_
  · rw [length_setBit]
    exact Nat.or_lt_two_pow (value_lt pn) (Nat.pow_lt_pow_right (by decide) hin)
  · rw [length_setBit] at hm
    have hbit := wordBit_modify_or (i := shift / 32) hm (1 <<< UInt32.ofNat (shift % 32)) j
    have hone : (1 : UInt32).toNat = 1 := rfl
    rw [testBit_shiftLeft _ (Nat.mod_lt _ (by decide)) hj, hone] at hbit
    refine hbit.trans ?_
    rw [testBit_or, testBit_value pn m hj, testBit_two_pow, wordBit]
    congr 1
    by_cases heq : shift = 32 * m + j
    · have hsub : j - shift % 32 = 0 := by omega
      rw [decide_eq_true heq, decide_eq_true (by omega), decide_eq_true (by omega), hsub]
      rfl
    · rw [decide_eq_false heq]
      by_cases hle : shift / 32 = m ∧ shift % 32 ≤ j
      · have hsucc : ∃ k, j - shift % 32 = k + 1 := ⟨j - shift % 32 - 1, by omega⟩
        obtain ⟨k, hk⟩ := hsucc
        rw [hk, testBit_succ]
        simp
      · rw [← Bool.and_assoc, ← Bool.decide_and, decide_eq_false hle, Bool.false_and]

/-- What remains of the number is divided in the rounds that remain. -/
theorem value_divLoop {rounds d : ℕ} {num div pn : List UInt32} (hd : 0 < d)
    (hnumLen : num.length = pn.length) (hdivLen : div.length = pn.length)
    (hdiv : ∀ n, rounds = n + 1 → Limbs.value div = d * 2 ^ n)
    (hnum : Limbs.value num < d * 2 ^ rounds) (hpn : 2 ^ rounds ∣ Limbs.value pn)
    (hroom : rounds ≤ 32 * pn.length) :
    Limbs.value (divLoop rounds num div pn) = Limbs.value pn + Limbs.value num / d := by
  induction rounds generalizing num div pn with
  | zero =>
    rw [pow_zero, mul_one] at hnum
    rw [divLoop, div_eq_of_lt hnum, add_zero]
  | succ shift ih =>
    have hvalue := hdiv shift rfl
    have hhalf : ∀ n, shift = n + 1 → Limbs.value (shiftRightWords div 1) = d * 2 ^ n := by
      rintro n rfl
      rw [value_shiftRightWords, hvalue, pow_succ, ← mul_assoc, pow_one,
        Nat.mul_div_cancel _ (by decide)]
    have hdvd : 2 ^ shift ∣ Limbs.value pn := (pow_dvd_pow 2 (le_succ shift)).trans hpn
    have hshiftLen : (shiftRightWords div 1).length = pn.length :=
      (length_shiftRightWords div 1).trans hdivLen
    have hlen := hnumLen.trans hdivLen.symm
    have hcompare : Limbs.compareTo num div ≠ .lt ↔ Limbs.value div ≤ Limbs.value num := by
      rw [compareTo_eq_compare hlen, Ne, compare_lt_iff_lt, not_lt]
    by_cases hle : Limbs.value div ≤ Limbs.value num
    · rw [divLoop, if_pos (hcompare.2 hle)]
      have hsub := value_subWords hlen hle
      have hbit := value_setBit (by omega) hpn
      have hsubLen : (addWords num (negWords div)).length = num.length :=
        length_addWords (hlen.trans length_negWords.symm)
      have hset := length_setBit pn shift
      have hrest : Limbs.value num - Limbs.value div < d * 2 ^ shift := by
        rw [pow_succ, ← mul_assoc] at hnum
        omega
      rw [ih (by rw [hsubLen, hset, hnumLen]) (hshiftLen.trans hset.symm) hhalf
        (by rw [hsub]; exact hrest) (by rw [hbit]; exact Nat.dvd_add hdvd dvd_rfl)
        (by rw [hset]; omega), hbit, hsub, hvalue, add_assoc]
      rw [hvalue] at hle
      rw [Nat.sub_mul_div, Nat.add_sub_cancel']
      exact (le_div_iff_mul_le hd).2 (by rwa [mul_comm])
    · rw [divLoop, if_neg (mt hcompare.1 hle)]
      rw [not_le, hvalue] at hle
      exact ih hnumLen hshiftLen hhalf hle hdvd (by omega)

section

variable {WIDTH : ℕ} (a b : BaseUint WIDTH)

theorem toNat_lt : a.toNat < 2 ^ (32 * WIDTH) := by
  have h := value_lt a.pn
  rwa [a.length_pn] at h

@[simp] theorem toNat_zero : (zero : BaseUint WIDTH).toNat = 0 := value_replicate_zero WIDTH

theorem toNat_ofUInt64 (n : UInt64) : (ofUInt64 n : BaseUint (WIDTH + 2)).toNat = n.toNat := by
  have hlt := n.toNat_lt
  have hhigh : (n >>> 32).toUInt32.toNat = n.toNat / 2 ^ 32 := by
    rw [UInt64.toNat_toUInt32, UInt64.toNat_shiftRight, shiftRight_eq_div_pow]
    exact Nat.mod_eq_of_lt (show n.toNat / 2 ^ 32 < 2 ^ 32 by omega)
  rw [toNat, ofUInt64, Limbs.value, Limbs.value, value_replicate_zero, hhigh, UInt64.toNat_toUInt32]
  omega

theorem toNat_shiftLeft (shift : ℕ) :
    (a.shiftLeft shift).toNat = a.toNat * 2 ^ shift % 2 ^ (32 * WIDTH) := by
  have h := value_shiftLeftWords a.pn shift
  rwa [a.length_pn] at h

theorem toNat_shiftRight (shift : ℕ) : (a.shiftRight shift).toNat = a.toNat / 2 ^ shift :=
  value_shiftRightWords

theorem toNat_add : (a.add b).toNat = (a.toNat + b.toNat) % 2 ^ (32 * WIDTH) := by
  have h := value_addWords (a.length_pn.trans b.length_pn.symm)
  rwa [a.length_pn] at h

theorem toNat_sub {a b : BaseUint WIDTH} (hle : b.toNat ≤ a.toNat) :
    (a.sub b).toNat = a.toNat - b.toNat :=
  value_subWords (a.length_pn.trans b.length_pn.symm) hle

theorem toNat_mulUInt32 (b32 : UInt32) :
    (a.mulUInt32 b32).toNat = b32.toNat * a.toNat % 2 ^ (32 * WIDTH) := by
  have h := value_mulWord a.pn b32
  rwa [a.length_pn] at h

theorem toNat_mul : (a.mul b).toNat = a.toNat * b.toNat % 2 ^ (32 * WIDTH) := by
  have hle : (zero : BaseUint WIDTH).pn.length ≤ b.pn.length :=
    (zero.length_pn.trans b.length_pn.symm).le
  have h : Limbs.value (mulLoop b.pn a.pn (zero : BaseUint WIDTH).pn) = _ := value_mulLoop hle
  rw [zero.length_pn, show Limbs.value (zero : BaseUint WIDTH).pn = 0 from toNat_zero,
    zero_add] at h
  exact h

theorem compareTo_eq : a.compareTo b = compare a.toNat b.toNat :=
  compareTo_eq_compare (a.length_pn.trans b.length_pn.symm)

theorem bits_eq : a.bits = bitLength a.toNat := by
  rw [bits, bitsLoop_eq, reverse_reverse]
  rfl

theorem toNat_lt_two_pow_bits : a.toNat < 2 ^ a.bits := a.bits_eq ▸ lt_two_pow_bitLength

theorem bits_le : a.bits ≤ 32 * WIDTH := by
  have hlt := a.toNat_lt
  rw [bits_eq, bitLength]
  split_ifs with h
  · exact zero_le _
  · exact (log2_lt h).2 hlt

/-- Division by any other number gives the quotient. -/
theorem exists_div {a b : BaseUint WIDTH} (h : b.toNat ≠ 0) :
    ∃ q, a.div b = .ok q ∧ q.toNat = a.toNat / b.toNat := by
  have hlarge : 2 ^ b.bits ≤ 2 * b.toNat := b.bits_eq ▸ two_pow_bitLength_le h
  have hbits : ¬ b.bits = 0 := by rwa [bits_eq, bitLength_eq_zero]
  have ha := a.toNat_lt_two_pow_bits
  have hb := b.toNat_lt_two_pow_bits
  have hroom := a.bits_le
  rw [div, if_neg hbits]
  by_cases hshort : b.bits > a.bits
  · rw [if_pos hshort]
    refine ⟨zero, rfl, ?_⟩
    have hpow : 2 ^ (a.bits + 1) ≤ 2 ^ b.bits := Nat.pow_le_pow_right (by decide) hshort
    rw [toNat_zero, div_eq_of_lt]
    rw [pow_succ] at hpow
    omega
  · rw [if_neg hshort]
    refine ⟨_, rfl, ?_⟩
    change Limbs.value (divLoop (a.bits - b.bits + 1) a.pn (b.shiftLeft (a.bits - b.bits)).pn
      (zero : BaseUint WIDTH).pn) = _
    generalize hshift : a.bits - b.bits = shift
    have hsplit : 2 ^ a.bits = 2 ^ b.bits * 2 ^ shift := by
      rw [← pow_add]
      congr 1
      omega
    have haligned : (b.shiftLeft shift).toNat = b.toNat * 2 ^ shift := by
      rw [toNat_shiftLeft]
      refine Nat.mod_eq_of_lt (lt_of_lt_of_le ?_ (Nat.pow_le_pow_right (by decide) hroom))
      rw [hsplit]
      exact mul_lt_mul_of_pos_right hb (Nat.two_pow_pos _)
    have hzero : Limbs.value (zero : BaseUint WIDTH).pn = 0 := toNat_zero
    refine (value_divLoop (Nat.pos_of_ne_zero h) (a.length_pn.trans zero.length_pn.symm)
      ((b.shiftLeft shift).length_pn.trans zero.length_pn.symm)
      (fun n hn => Nat.succ.inj hn ▸ haligned) ?_ ?_ ?_).trans ?_
    · calc a.toNat < 2 ^ b.bits * 2 ^ shift := hsplit ▸ ha
        _ ≤ 2 * b.toNat * 2 ^ shift := mul_le_mul_right _ hlarge
        _ = b.toNat * 2 ^ (shift + 1) := by ring
    · rw [hzero]
      exact dvd_zero _
    · rw [zero.length_pn]
      omega
    · rw [hzero, zero_add]
      rfl

end

end BaseUint

end Coinyecoin
