import Coinyecoin.Basic.Amount
import Coinyecoin.Consensus.Networks
import Mathlib.Algebra.Order.Ring.GeomSum

/-!
# The block subsidy

`getCoinyecoinBlockSubsidy` shifts the first reward right by the number of
halvings. Unlike `GetBlockSubsidy`, which answers zero from 64 halvings on, it
has no cap, and a shift of a 64-bit value by 64 or more is undefined.

`SubsidySchedule net era n` is the schedule one expects of the first `n`
blocks: every reward is between zero and the first one, rewards do not grow,
they end at zero and their total is bounded. It holds exactly as long as no
block reaches 64 halvings.
-/

namespace Coinyecoin

namespace Consensus

/-- `nValue >> count` on a 64-bit amount: undefined unless `0 ≤ count < 64`. -/
def shiftAmountRight (nValue : ℤ) (count : ℤ) : Except Fault ℤ :=
  if 0 ≤ count ∧ count < 64 then .ok (nValue / 2 ^ count.toNat) else .error .shiftTooWide

/-- `GetCoinyecoinBlockSubsidy`; the previous hash is no longer read. The three
branches of the source return the same value. -/
def getCoinyecoinBlockSubsidy (nHeight : ℤ) (consensusParams : Params) :
    Except Fault ℤ := do
  let halvings ← checkedDiv nHeight consensusParams.nSubsidyHalvingInterval
  if !consensusParams.fSimplifiedRewards then
    shiftAmountRight (666666 * COIN) halvings
  else if nHeight < 6 * consensusParams.nSubsidyHalvingInterval then
    shiftAmountRight (666666 * COIN) halvings
  else
    shiftAmountRight (666666 * COIN) halvings

def Network.halvingInterval : Network → ℕ
  | .main => 100000
  | .test => 100000
  | .regtest => 100

variable (net : Network) (k : ℕ)

theorem halvingInterval_pos : 0 < net.halvingInterval := by
  cases net <;> decide

theorem nSubsidyHalvingInterval_eq (h : ℕ) :
    (net.getConsensus h).nSubsidyHalvingInterval = net.halvingInterval := by
  cases net with
  | main => rw [getConsensus_main]; split_ifs <;> rfl
  | test => rw [getConsensus_test]; split_ifs <;> rfl
  | regtest => rw [getConsensus_regtest]; split_ifs <;> rfl

def halvedReward (k : ℕ) : ℕ := 66666600000000 / 2 ^ k

theorem halvedReward_le : halvedReward k ≤ 66666600000000 := Nat.div_le_self _ _

theorem halvedReward_anti {k l : ℕ} (h : k ≤ l) : halvedReward l ≤ halvedReward k :=
  Nat.div_le_div_left (Nat.pow_le_pow_right (by decide) h) (Nat.two_pow_pos k)

theorem halvedReward_eq_zero {k : ℕ} (h : 46 ≤ k) : halvedReward k = 0 := by
  have hzero : halvedReward 46 = 0 := by decide
  exact Nat.le_zero.1 (hzero ▸ halvedReward_anti h)

theorem shiftAmountRight_eq :
    shiftAmountRight (666666 * COIN) k =
      if k < 64 then .ok (halvedReward k : ℤ) else .error .shiftTooWide := by
  by_cases hk : k < 64
  · rw [if_pos hk, shiftAmountRight, if_pos ⟨by omega, by omega⟩]
    simp [halvedReward, COIN]
  · rw [if_neg hk, shiftAmountRight, if_neg (by omega)]

theorem getCoinyecoinBlockSubsidy_eq (era h : ℕ) :
    getCoinyecoinBlockSubsidy h (net.getConsensus era) =
      if h < 64 * net.halvingInterval then
        .ok (halvedReward (h / net.halvingInterval) : ℤ)
      else .error .shiftTooWide := by
  have hpos := halvingInterval_pos net
  have hcount : (h : ℤ).tdiv net.halvingInterval = ((h / net.halvingInterval : ℕ) : ℤ) := by
    rw [Int.tdiv_eq_ediv_of_nonneg (by omega)]
    rfl
  simp only [getCoinyecoinBlockSubsidy, nSubsidyHalvingInterval_eq,
    checkedDiv_of_ne_zero (show (net.halvingInterval : ℤ) ≠ 0 by omega), hcount,
    Foundation.ok_bind, shiftAmountRight_eq, Nat.div_lt_iff_lt_mul hpos, ite_self]

/-- The total reward of the blocks of heights below `n`, the parameters of block
`h` being those of the era `era h`. -/
def totalSubsidy (net : Network) (era : ℕ → ℕ) : ℕ → Except Fault ℤ
  | 0 => .ok 0
  | n + 1 => do
    let total ← totalSubsidy net era n
    let nSubsidy ← getCoinyecoinBlockSubsidy n (net.getConsensus (era n))
    return total + nSubsidy

structure SubsidySchedule (net : Network) (era : ℕ → ℕ) (n : ℕ) : Prop where
  bounded : ∀ h < n, ∃ nSubsidy, getCoinyecoinBlockSubsidy h (net.getConsensus (era h)) =
    .ok nSubsidy ∧ 0 ≤ nSubsidy ∧ nSubsidy ≤ 666666 * COIN
  antitone : ∀ h h', h ≤ h' → h' < n → ∃ nSubsidy nSubsidy',
    getCoinyecoinBlockSubsidy h (net.getConsensus (era h)) = .ok nSubsidy ∧
      getCoinyecoinBlockSubsidy h' (net.getConsensus (era h')) = .ok nSubsidy' ∧
      nSubsidy' ≤ nSubsidy
  ends : ∀ h, 46 * net.halvingInterval ≤ h → h < n →
    getCoinyecoinBlockSubsidy h (net.getConsensus (era h)) = .ok 0
  total : ∃ total, totalSubsidy net era n = .ok total ∧
    total ≤ 2 * net.halvingInterval * (666666 * COIN)

theorem sum_halvedReward_mul (I q : ℕ) (hI : 0 < I) :
    ∑ h ∈ Finset.range (q * I), halvedReward (h / I) =
      I * ∑ k ∈ Finset.range q, halvedReward k := by
  induction q with
  | zero => simp
  | succ q ih =>
    have hlast : ∑ x ∈ Finset.range I, halvedReward ((q * I + x) / I) = I * halvedReward q := by
      rw [Finset.sum_congr rfl (g := fun _ => halvedReward q)]
      · simp
      · intro x hx
        rw [Nat.mul_comm q I, Nat.mul_add_div hI, Nat.div_eq_of_lt (Finset.mem_range.1 hx),
          Nat.add_zero]
    rw [Nat.succ_mul, Finset.sum_range_add, ih, hlast, Finset.sum_range_succ, Nat.mul_add]

theorem sum_halvedReward_le (I n : ℕ) (hI : 0 < I) :
    ∑ h ∈ Finset.range n, halvedReward (h / I) ≤ 2 * I * 66666600000000 := by
  have hn : n ≤ (n / I + 1) * I := by
    have hlt := Nat.lt_div_mul_add hI (a := n)
    rw [Nat.add_mul, Nat.one_mul]
    exact hlt.le
  calc ∑ h ∈ Finset.range n, halvedReward (h / I)
      ≤ ∑ h ∈ Finset.range ((n / I + 1) * I), halvedReward (h / I) :=
        Finset.sum_le_sum_of_subset (Finset.range_subset_range.2 hn)
    _ = I * ∑ k ∈ Finset.range (n / I + 1), halvedReward k := sum_halvedReward_mul I _ hI
    _ ≤ I * (66666600000000 * 2 / (2 - 1)) :=
        Nat.mul_le_mul_left I (Nat.geom_sum_le le_rfl 66666600000000 _)
    _ = 2 * I * 66666600000000 := by omega

theorem totalSubsidy_eq (era : ℕ → ℕ) {n : ℕ} (hn : n ≤ 64 * net.halvingInterval) :
    totalSubsidy net era n =
      .ok (∑ h ∈ Finset.range n, halvedReward (h / net.halvingInterval) : ℕ) := by
  induction n with
  | zero => rfl
  | succ n ih =>
    rw [totalSubsidy, ih (by omega), getCoinyecoinBlockSubsidy_eq,
      if_pos (show n < 64 * net.halvingInterval by omega), Finset.sum_range_succ]
    simp only [Foundation.ok_bind, Nat.cast_add]
    rfl

/-- The schedule holds for the first `n` blocks exactly when none of them has
64 halvings behind it. -/
theorem subsidySchedule_iff (net : Network) (era : ℕ → ℕ) (n : ℕ) :
    SubsidySchedule net era n ↔ n ≤ 64 * net.halvingInterval := by
  constructor
  · intro hsched
    by_contra hgt
    obtain ⟨nSubsidy, hret, -⟩ := hsched.bounded (64 * net.halvingInterval) (by omega)
    rw [getCoinyecoinBlockSubsidy_eq, if_neg (lt_irrefl _)] at hret
    cases hret
  · intro hn
    have hvalue : ∀ h < n, getCoinyecoinBlockSubsidy h (net.getConsensus (era h)) =
        .ok (halvedReward (h / net.halvingInterval) : ℤ) := by
      intro h hh
      rw [getCoinyecoinBlockSubsidy_eq, if_pos (by omega)]
    refine ⟨?_, ?_, ?_, ?_⟩
    · intro h hh
      have hle := halvedReward_le (h / net.halvingInterval)
      refine ⟨_, hvalue h hh, by omega, ?_⟩
      simp only [COIN]
      omega
    · intro h h' hle hh'
      refine ⟨_, _, hvalue h (by omega), hvalue h' hh', ?_⟩
      exact_mod_cast halvedReward_anti (Nat.div_le_div_right hle)
    · intro h hlow hh
      have hk : 46 ≤ h / net.halvingInterval :=
        (Nat.le_div_iff_mul_le (halvingInterval_pos net)).2 hlow
      rw [hvalue h hh, halvedReward_eq_zero hk]
      rfl
    · refine ⟨_, totalSubsidy_eq net era hn, ?_⟩
      have hle := sum_halvedReward_le net.halvingInterval n (halvingInterval_pos net)
      simp only [COIN]
      omega

/-- The main chain's reward is undefined at height 6400000. -/
theorem getCoinyecoinBlockSubsidy_main_undefined :
    getCoinyecoinBlockSubsidy 6400000 (Network.main.getConsensus 6400000) =
      .error .shiftTooWide ∧ ¬ SubsidySchedule .main id 6400001 := by
  refine ⟨getCoinyecoinBlockSubsidy_eq .main 6400000 6400000, fun hsched => ?_⟩
  obtain ⟨nSubsidy, hret, -⟩ := hsched.bounded 6400000 (by decide)
  rw [getCoinyecoinBlockSubsidy_eq .main (id 6400000) 6400000] at hret
  cases hret

end Consensus

end Coinyecoin
