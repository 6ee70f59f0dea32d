import Coinyecoin.Validation.CheckBlock
import Mathlib.Data.Rat.Floor

/-!
# Fee rates

`CFeeRate` is a fee for a thousand bytes. The fee for a size rounds the size up
to whole thousands first. Both the rate that a fee amounts to and the fee at a
rate multiply before they divide, in signed 64-bit arithmetic, and `MAX_MONEY`
is so large that the products of valid amounts leave it: the two are exact where
the products fit, and not defined elsewhere.
-/

namespace Coinyecoin

variable {nFee f' : ℤ}

structure CFeeRate where
  nSatoshisPerK : ℤ
deriving DecidableEq, Repr

namespace CFeeRate

open Foundation

/-- `int64_t(nBytes_)`, after the assert that it is the same number. -/
def sizeOf (nBytes : ℕ) : Except Fault ℤ := do
  assertThat (nBytes ≤ 2 ^ 63 - 1) "nBytes_ <= uint64_t(std::numeric_limits<int64_t>::max())"
  return nBytes

def ofFeePaid (nFeePaid : ℤ) (nBytes : ℕ) : Except Fault CFeeRate := do
  let nSize ← sizeOf nBytes
  if nSize > 0 then
    let nPaid ← checkedInt64 (nFeePaid * 1000)
    return ⟨nPaid.tdiv nSize⟩
  else
    return ⟨0⟩

def roundUp (nSize : ℤ) : Except Fault ℤ :=
  if nSize.tmod 1000 > 0 then do
    let nNext ← checkedInt64 (nSize + 1000)
    return nNext - nSize.tmod 1000
  else
    return nSize

def atLeastOne (nSatoshisPerK nSize nFee : ℤ) : ℤ :=
  if nFee = 0 ∧ nSize ≠ 0 then
    if nSatoshisPerK > 0 then 1
    else if nSatoshisPerK < 0 then -1
    else nFee
  else nFee

def getFee (rate : CFeeRate) (nBytes : ℕ) : Except Fault ℤ := do
  let nSize ← sizeOf nBytes
  let nSize ← roundUp nSize
  let nProduct ← checkedInt64 (rate.nSatoshisPerK * nSize)
  return atLeastOne rate.nSatoshisPerK nSize (nProduct.tdiv 1000)

section

def thousands (nBytes : ℕ) : ℕ := (nBytes + 999) / 1000

theorem thousands_eq_ceil (nBytes : ℕ) : (thousands nBytes : ℤ) = ⌈(nBytes : ℚ) / 1000⌉ := by
  have h := Rat.ceil_intCast_div_natCast nBytes 1000
  simp only [Int.cast_natCast, Nat.cast_ofNat] at h
  rw [h, thousands]
  omega

theorem thousands_mono {m n : ℕ} (h : m ≤ n) : thousands m ≤ thousands n :=
  Nat.div_le_div_right (by omega)

def exactFee (rate : CFeeRate) (nBytes : ℕ) : ℤ := rate.nSatoshisPerK * thousands nBytes

variable {nBytes : ℕ} {rate : CFeeRate}

theorem sizeOf_of_le (h : nBytes ≤ 2 ^ 63 - 1) : sizeOf nBytes = .ok nBytes := by
  rw [sizeOf, assertThat_of_true h]
  rfl

theorem roundUp_eq (h : nBytes < 2 ^ 63 - 1000) :
    roundUp nBytes = .ok (1000 * thousands nBytes) := by
  have hmod : (nBytes : ℤ).tmod 1000 = (nBytes % 1000 : ℕ) := by
    rw [Int.tmod_eq_emod_of_nonneg (Int.natCast_nonneg nBytes)]
    omega
  unfold roundUp
  rw [hmod]
  split_ifs with hpos
  · have hfits : FitsInt64 ((nBytes : ℤ) + 1000) := by
      unfold FitsInt64
      omega
    rw [checkedInt64_eq_ok.2 ⟨hfits, rfl⟩]
    simp only [ok_bind, pure, Except.pure, Except.ok.injEq, thousands]
    omega
  · simp only [pure, Except.pure, Except.ok.injEq, thousands]
    omega

theorem atLeastOne_mul (nSatoshisPerK : ℤ) (k : ℕ) :
    atLeastOne nSatoshisPerK (1000 * k) ((nSatoshisPerK * (1000 * k)).tdiv 1000) =
      nSatoshisPerK * k := by
  have hdiv : (nSatoshisPerK * (1000 * k)).tdiv 1000 = nSatoshisPerK * k := by
    rw [show nSatoshisPerK * (1000 * (k : ℤ)) = 1000 * (nSatoshisPerK * k) by ring]
    exact Int.mul_tdiv_cancel_left _ (by decide)
  rw [hdiv, atLeastOne]
  split_ifs with hzero hpos hneg
  · rcases mul_eq_zero.1 hzero.1 with h | h
    · omega
    · exact absurd (by rw [h, mul_zero]) hzero.2
  · rcases mul_eq_zero.1 hzero.1 with h | h
    · omega
    · exact absurd (by rw [h, mul_zero]) hzero.2
  · rfl
  · rfl

theorem getFee_eq_ok (h : nBytes < 2 ^ 63 - 1000) :
    rate.getFee nBytes = .ok nFee ↔
      FitsInt64 (rate.nSatoshisPerK * (1000 * thousands nBytes)) ∧ nFee = rate.exactFee nBytes := by
  rw [getFee, sizeOf_of_le (by omega), ok_bind, roundUp_eq h, ok_bind, bind_eq_ok]
  simp only [checkedInt64_eq_ok, pure, Except.pure, Except.ok.injEq]
  constructor
  · rintro ⟨nProduct, ⟨hfits, rfl⟩, rfl⟩
    exact ⟨hfits, atLeastOne_mul _ _⟩
  · rintro ⟨hfits, rfl⟩
    exact ⟨_, ⟨hfits, rfl⟩, atLeastOne_mul _ _⟩

theorem ofFeePaid_eq_ok {nFeePaid : ℤ} (hfee : 0 ≤ nFeePaid) (hpos : 0 < nBytes)
    (h : nBytes ≤ 2 ^ 63 - 1) :
    ofFeePaid nFeePaid nBytes = .ok rate ↔
      FitsInt64 (nFeePaid * 1000) ∧ rate = ⟨nFeePaid * 1000 / nBytes⟩ := by
  have hsize : (nBytes : ℤ) > 0 := by omega
  rw [ofFeePaid, sizeOf_of_le h, ok_bind, if_pos hsize, bind_eq_ok]
  simp only [checkedInt64_eq_ok, pure, Except.pure, Except.ok.injEq]
  have hdiv : (nFeePaid * 1000).tdiv nBytes = nFeePaid * 1000 / nBytes :=
    Int.tdiv_eq_ediv_of_nonneg (by omega)
  constructor
  · rintro ⟨nPaid, ⟨hfits, rfl⟩, rfl⟩
    exact ⟨hfits, by rw [hdiv]⟩
  · rintro ⟨hfits, rfl⟩
    exact ⟨_, ⟨hfits, rfl⟩, by rw [hdiv]⟩

end

/-- The fee that a rate, given by a fee and the size it was paid for, asks for another size. -/
def feeAtRatePaid (f : ℤ) (s n : ℕ) : Except Fault ℤ := do
  let rate ← ofFeePaid f s
  rate.getFee n

/-- The rate and the fee are those of exact arithmetic, and a smaller fee or size asks for no
more. -/
structure Exact (f : ℤ) (s n : ℕ) : Prop where
  exact : ∃ rate, ofFeePaid f s = .ok rate ∧
    rate.nSatoshisPerK = ⌊1000 * (f : ℚ) / s⌋ ∧
    rate.getFee n = .ok
      (if rate.nSatoshisPerK * ⌈(n : ℚ) / 1000⌉ = 0 ∧ 0 < rate.nSatoshisPerK ∧ 0 < n then 1
        else rate.nSatoshisPerK * ⌈(n : ℚ) / 1000⌉)
  monotone : ∀ (f' : ℤ) (n' : ℕ), 0 ≤ f' → f' ≤ f → n' ≤ n →
    ∃ nFee nFee', feeAtRatePaid f s n = .ok nFee ∧ feeAtRatePaid f' s n' = .ok nFee' ∧
      nFee' ≤ nFee

theorem floor_rate (f : ℤ) (s : ℕ) : ⌊1000 * (f : ℚ) / s⌋ = f * 1000 / s := by
  have h := Rat.floor_intCast_div_natCast (f * 1000) s
  rw [Int.cast_mul, Int.cast_ofNat, mul_comm (f : ℚ)] at h
  exact h

def ProductsFit (f : ℤ) (s n : ℕ) : Prop :=
  1000 * f < 2 ^ 63 ∧ ⌊1000 * (f : ℚ) / s⌋ * (1000 * ⌈(n : ℚ) / 1000⌉) < 2 ^ 63

section

variable {f : ℤ} {s n : ℕ}

theorem ratePaid_nonneg (hf : 0 ≤ f) : 0 ≤ f * 1000 / (s : ℤ) :=
  Int.ediv_nonneg (by omega) (by omega)

theorem ratePaid_mono (hs : 0 < s) (hf : f' ≤ f) : f' * 1000 / (s : ℤ) ≤ f * 1000 / s :=
  Int.ediv_le_ediv (by omega) (by omega)

theorem productsFit_iff (hf : 0 ≤ f) :
    ProductsFit f s n ↔
      FitsInt64 (f * 1000) ∧ FitsInt64 (f * 1000 / s * (1000 * thousands n)) := by
  have hproduct : 0 ≤ f * 1000 / (s : ℤ) * (1000 * thousands n) :=
    mul_nonneg (ratePaid_nonneg hf) (by omega)
  rw [ProductsFit, floor_rate, ← thousands_eq_ceil, FitsInt64, FitsInt64]
  omega

theorem ProductsFit.of_le {n' : ℕ} (hfits : ProductsFit f s n) (hs : 0 < s)
    (hpos : 0 ≤ f') (hf : f' ≤ f) (hn : n' ≤ n) : ProductsFit f' s n' := by
  obtain ⟨hpaid, hproduct⟩ := hfits
  refine ⟨by omega, lt_of_le_of_lt ?_ hproduct⟩
  rw [floor_rate, floor_rate, ← thousands_eq_ceil, ← thousands_eq_ceil]
  have hsize := thousands_mono hn
  exact mul_le_mul (ratePaid_mono hs hf) (by omega) (by omega) (ratePaid_nonneg (by omega))

theorem feeAtRatePaid_eq_ok (hf : 0 ≤ f) (hs : 0 < s) (hs' : s ≤ 2 ^ 63 - 1)
    (hn : n < 2 ^ 63 - 1000) :
    feeAtRatePaid f s n = .ok nFee ↔
      ProductsFit f s n ∧ nFee = f * 1000 / s * thousands n := by
  rw [feeAtRatePaid, bind_eq_ok, productsFit_iff hf]
  constructor
  · rintro ⟨rate, hrate, hfee⟩
    obtain ⟨hpaid, rfl⟩ := (ofFeePaid_eq_ok hf hs hs').1 hrate
    obtain ⟨hproduct, rfl⟩ := (getFee_eq_ok hn).1 hfee
    exact ⟨⟨hpaid, hproduct⟩, rfl⟩
  · rintro ⟨⟨hpaid, hproduct⟩, rfl⟩
    exact ⟨_, (ofFeePaid_eq_ok hf hs hs').2 ⟨hpaid, rfl⟩, (getFee_eq_ok hn).2 ⟨hproduct, rfl⟩⟩

theorem exactFee_eq_ceil (rate : CFeeRate) (n : ℕ) :
    rate.exactFee n =
      if rate.nSatoshisPerK * ⌈(n : ℚ) / 1000⌉ = 0 ∧ 0 < rate.nSatoshisPerK ∧ 0 < n then 1
      else rate.nSatoshisPerK * ⌈(n : ℚ) / 1000⌉ := by
  rw [← thousands_eq_ceil, exactFee]
  split_ifs with h
  · obtain ⟨hzero, hrate, hn⟩ := h
    have hsize : 0 < thousands n := by
      unfold thousands
      omega
    have hpos : 0 < rate.nSatoshisPerK * (thousands n : ℤ) := mul_pos hrate (by omega)
    omega
  · rfl

/-- A fee in range, over a size of a block, gives the exact rate and the exact fees if and only if
a thousand times the fee, and the rate times the rounded size, are 64-bit values. -/
theorem feeRate_exact_iff (f : ℤ) (s n : ℕ) (hf : moneyRange f = true) (hs : 1 ≤ s)
    (hs' : s ≤ MAX_BLOCK_BASE_SIZE) (hn : n ≤ MAX_BLOCK_BASE_SIZE) :
    Exact f s n ↔ ProductsFit f s n := by
  have hpos : 0 ≤ f := by
    simp only [moneyRange, Bool.and_eq_true, decide_eq_true_eq] at hf
    exact hf.1
  rw [MAX_BLOCK_BASE_SIZE] at hs' hn
  have hsize : s ≤ 2 ^ 63 - 1 := by omega
  have hbound {n' : ℕ} (hle : n' ≤ n) : n' < 2 ^ 63 - 1000 := by omega
  constructor
  · intro hexact
    obtain ⟨nFee, -, hpaid, -⟩ := hexact.monotone f n hpos le_rfl le_rfl
    exact ((feeAtRatePaid_eq_ok hpos hs hsize (hbound le_rfl)).1 hpaid).1
  · intro hfits
    refine ⟨?_, ?_⟩
    · obtain ⟨hpaid, hproduct⟩ := (productsFit_iff hpos).1 hfits
      refine ⟨⟨f * 1000 / s⟩, (ofFeePaid_eq_ok hpos hs hsize).2 ⟨hpaid, rfl⟩,
        (floor_rate f s).symm, (getFee_eq_ok (hbound le_rfl)).2 ⟨hproduct, ?_⟩⟩
      rw [exactFee_eq_ceil]
    · intro f' n' hf' hle hn'
      refine ⟨_, _, (feeAtRatePaid_eq_ok hpos hs hsize (hbound le_rfl)).2 ⟨hfits, rfl⟩,
        (feeAtRatePaid_eq_ok hf' hs hsize (hbound hn')).2 ⟨hfits.of_le hs hf' hle hn', rfl⟩, ?_⟩
      have hthousands := thousands_mono hn'
      exact mul_le_mul (ratePaid_mono hs hle) (by omega) (by omega) (ratePaid_nonneg hpos)

/-- One coin for 250 bytes is a rate, and a fee for the largest block, that are exact. -/
theorem feeRate_exact_oneCoin : moneyRange COIN = true ∧ Exact COIN 250 MAX_BLOCK_BASE_SIZE := by
  refine ⟨by decide, (feeRate_exact_iff COIN 250 MAX_BLOCK_BASE_SIZE (by decide) (by decide)
    (by decide) le_rfl).2 ((productsFit_iff (by decide)).2 (by decide))⟩

/-- A hundred million coins, paid for one byte, are a rate that no 64-bit value holds. -/
theorem feeRate_overflow :
    moneyRange (100000000 * COIN) = true ∧ 1 ≤ 1 ∧ 1 ≤ MAX_BLOCK_BASE_SIZE ∧
      ofFeePaid (100000000 * COIN) 1 = .error .signedOverflow ∧
      ¬ Exact (100000000 * COIN) 1 1 := by
  have hover : ofFeePaid (100000000 * COIN) 1 = .error .signedOverflow := by decide
  refine ⟨by decide, le_rfl, by decide, hover, ?_⟩
  rintro ⟨⟨rate, hrate, -⟩, -⟩
  rw [hover] at hrate
  cases hrate

end

end CFeeRate

end Coinyecoin
