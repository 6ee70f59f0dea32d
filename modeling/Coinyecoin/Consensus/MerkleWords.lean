import Coinyecoin.Consensus.MerkleBranch
import Mathlib.Data.Nat.Bitwise

/-!
# The counters of MerkleComputation

`MerkleComputation` counts its leaves in a `uint32_t` and keeps their hashes in an array of 32. A
level is used by a shift and as an index, both defined below 32 only. Up to `2 ^ 31` leaves this is
`merkleComputation`. With more of them the final sweep wraps the count to zero and leaves the array.
-/

namespace Coinyecoin

namespace Merkle

open Foundation MerkleTree Nat

def bit (level : ℕ) : UInt32 := 1 <<< UInt32.ofNat level

variable {level left fuel : ℕ} {count : UInt32}

theorem toNat_bit (h : level < 32) : (bit level).toNat = 2 ^ level := by
  have hlevel : (UInt32.ofNat level).toNat % 32 = level := by
    rw [UInt32.toNat_ofNat']
    omega
  rw [bit, UInt32.toNat_shiftLeft, hlevel, UInt32.toNat_one, shiftLeft_eq, one_mul]
  exact Nat.mod_eq_of_lt (Nat.pow_lt_pow_right (by decide) h)

theorem and_bit_ne_zero (h : level < 32) :
    count &&& bit level ≠ 0 ↔ count.toNat.testBit level = true := by
  rw [← UInt32.toNat_inj.ne, UInt32.toNat_and, toNat_bit h, and_two_pow]
  cases count.toNat.testBit level with
  | false => simp
  | true => simp

theorem eq_bit_iff (h : level < 32) : count = bit level ↔ count.toNat = 2 ^ level := by
  rw [← UInt32.toNat_inj, toNat_bit h]

section

variable (hashPair : uint256 → uint256 → uint256)

/-- The loop over the lower bits of `count` that are zero; `left` levels are below 32. -/
def climbWords (inner : ℕ → uint256) (matchlevel : Option ℕ) (count : UInt32) :
    ℕ → Bool → Path → Except Fault (Path × Bool)
  | 0, _, _ => .error .shiftTooWide
  | left + 1, mutated, p =>
    if count &&& bit p.level ≠ 0 then .ok (p, mutated)
    else climbWords inner matchlevel count left (mutated || inner p.level == p.h)
      (combine hashPair inner matchlevel p)

structure StateWords where
  count : UInt32
  inner : ℕ → uint256
  matchlevel : Option ℕ
  mutated : Bool
  branch : List uint256

def StateWords.init : StateWords := ⟨0, fun _ => 0, none, false, []⟩

def processLeafWords (branchpos : UInt32) (s : StateWords) (leaf : uint256) :
    Except Fault StateWords := do
  let count := s.count + 1
  let (p, mutated) ← climbWords hashPair s.inner s.matchlevel count 32 s.mutated
    ⟨0, leaf, s.count == branchpos, s.branch⟩
  .ok { count := count
        inner := Function.update s.inner p.level p.h
        matchlevel := if p.matchh then some p.level else s.matchlevel
        mutated := mutated
        branch := p.branch }

def skipZerosWords (count : UInt32) : ℕ → ℕ → Except Fault ℕ
  | 0, _ => .error .shiftTooWide
  | left + 1, level =>
    if count &&& bit level ≠ 0 then .ok level else skipZerosWords count left (level + 1)

def sweepWords (inner : ℕ → uint256) (matchlevel : Option ℕ) :
    ℕ → UInt32 → Path → Except Fault Path
  | 0, _, _ => .error .shiftTooWide
  | left + 1, count, p =>
    if count = bit p.level then .ok p
    else if count &&& bit p.level ≠ 0 then
      sweepWords inner matchlevel left (count + bit p.level) (double hashPair p)
    else sweepWords inner matchlevel left count (combine hashPair inner matchlevel p)

def merkleComputationWords (leaves : List uint256) (branchpos : UInt32) : Except Fault Result :=
  if leaves.isEmpty then .ok ⟨0, false, []⟩
  else do
    let s ← leaves.foldlM (processLeafWords hashPair branchpos) StateWords.init
    let level ← skipZerosWords s.count 32 0
    let p ← sweepWords hashPair s.inner s.matchlevel (32 - level) s.count
      ⟨level, s.inner level, s.matchlevel == some level, s.branch⟩
    .ok ⟨p.h, s.mutated, p.branch⟩

def computeMerkleRootWords (leaves : List uint256) : Except Fault (uint256 × Bool) := do
  let result ← merkleComputationWords hashPair leaves 0xffffffff
  .ok (result.root, result.mutated)

def computeMerkleBranchWords (leaves : List uint256) (position : UInt32) :
    Except Fault (List uint256) := do
  let result ← merkleComputationWords hashPair leaves position
  .ok result.branch

end

variable {hashPair : uint256 → uint256 → uint256} {inner : ℕ → uint256} {ml : Option ℕ} {p : Path}
  {m : Bool}

/-- A word that is not zero has a bit below the width, and below its own value. -/
theorem exists_testBit (h : count ≠ 0) :
    ∃ l, count.toNat.testBit l = true ∧ l < 32 ∧ l < count.toNat := by
  have hne : count.toNat ≠ 0 := fun hzero => h (UInt32.toNat_inj.1 hzero)
  obtain ⟨l, hbit⟩ := exists_testBit_of_ne_zero hne
  have hle : 2 ^ l ≤ count.toNat := ge_two_pow_of_testBit hbit
  refine ⟨l, hbit, ?_, Nat.lt_two_pow_self.trans_le hle⟩
  exact (Nat.pow_lt_pow_iff_right (by decide)).1 (hle.trans_lt count.toNat_lt)

theorem climbWords_eq (hleft : p.level + left = 32) {l : ℕ}
    (hbit : count.toNat.testBit l = true) (hle : p.level ≤ l) (hl : l < 32)
    (hfuel : l < p.level + fuel) :
    climbWords hashPair inner ml count left m p =
      .ok (climb hashPair inner ml count.toNat fuel m p) := by
  induction left generalizing fuel m p with
  | zero => omega
  | succ left ih =>
    obtain ⟨fuel, rfl⟩ : ∃ f, fuel = f + 1 := ⟨fuel - 1, by omega⟩
    have hwidth : p.level < 32 := by omega
    simp only [climbWords, climb, and_bit_ne_zero hwidth]
    split_ifs with hset
    · rfl
    · have hne : p.level ≠ l := fun heq => hset (heq ▸ hbit)
      exact ih (by simp only [combine]; omega) (by simp only [combine]; omega)
        (by simp only [combine]; omega)

theorem skipZerosWords_eq (hleft : level + left = 32) {l : ℕ}
    (hbit : count.toNat.testBit l = true) (hle : level ≤ l) (hl : l < 32)
    (hfuel : l < level + fuel) :
    skipZerosWords count left level = .ok (skipZeros count.toNat fuel level) := by
  induction left generalizing fuel level with
  | zero => omega
  | succ left ih =>
    obtain ⟨fuel, rfl⟩ : ∃ f, fuel = f + 1 := ⟨fuel - 1, by omega⟩
    have hwidth : level < 32 := by omega
    simp only [skipZerosWords, skipZeros, and_bit_ne_zero hwidth]
    split_ifs with hset
    · rfl
    · have hne : level ≠ l := fun heq => hset (heq ▸ hbit)
      exact ih (by omega) (by omega) (by omega)

/-- Up to `2 ^ top` leaves the sweep stays within the levels up to `top`. -/
theorem sweepWords_eq {top : ℕ} (htop : top < 32) (hleft : p.level + left = 32)
    (hpos : count ≠ 0) (hle : count.toNat ≤ 2 ^ top) (hdvd : 2 ^ p.level ∣ count.toNat)
    (hfuel : top < p.level + fuel) :
    sweepWords hashPair inner ml left count p =
      .ok (sweep hashPair inner ml fuel count.toNat p) := by
  have hne : 0 < count.toNat := Nat.pos_of_ne_zero fun hzero => hpos (UInt32.toNat_inj.1 hzero)
  have hlevel : p.level ≤ top :=
    (Nat.pow_le_pow_iff_right (by decide)).1 ((le_of_dvd hne hdvd).trans hle)
  induction left generalizing fuel count p with
  | zero => omega
  | succ left ih =>
    obtain ⟨fuel, rfl⟩ : ∃ f, fuel = f + 1 := ⟨fuel - 1, by omega⟩
    have hwidth : p.level < 32 := by omega
    simp only [sweepWords, sweep, eq_bit_iff hwidth, and_bit_ne_zero hwidth]
    split_ifs with hlast hset
    · rfl
    · have hless : p.level < top := by
        refine lt_of_le_of_ne hlevel fun heq => hlast (le_antisymm ?_ (le_of_dvd hne hdvd))
        rwa [heq]
      obtain ⟨hdvd', hle'⟩ := add_two_pow_le (k := 1) hdvd hset hless (by rwa [one_mul])
      rw [one_mul] at hle'
      have hbound : 2 ^ top < 2 ^ 32 := Nat.pow_lt_pow_right (by decide) htop
      have hsum : (count + bit p.level).toNat = count.toNat + 2 ^ p.level := by
        rw [UInt32.toNat_add, toNat_bit hwidth]
        exact Nat.mod_eq_of_lt (hle'.trans_lt hbound)
      have hpos' : 0 < (count + bit p.level).toNat := by omega
      rw [← hsum] at hdvd' hle' ⊢
      refine ih ?_ (fun hzero => ?_) hle' hdvd' ?_ hpos' hless
      · simp only [double]; omega
      · rw [hzero] at hpos'; exact absurd hpos' (lt_irrefl 0)
      · simp only [double]; omega
    · have hdvd' := dvd_succ_of_not_testBit hdvd (by simpa using hset)
      have hless : p.level + 1 ≤ top :=
        (Nat.pow_le_pow_iff_right (by decide)).1 ((le_of_dvd hne hdvd').trans hle)
      exact ih (by simp only [combine]; omega) hpos hle hdvd' (by simp only [combine]; omega)
        hne hless

/-- A count that wrapped to zero has no set bit to stop at. -/
theorem sweepWords_zero (hleft : p.level + left = 32) :
    sweepWords hashPair inner ml left 0 p = .error .shiftTooWide := by
  induction left generalizing p with
  | zero => rfl
  | succ left ih =>
    have hwidth : p.level < 32 := by omega
    have hne : ¬ UInt32.toNat 0 = 2 ^ p.level := (Nat.two_pow_pos _).ne
    simp only [sweepWords, eq_bit_iff hwidth, and_bit_ne_zero hwidth, if_neg hne]
    rw [if_neg (by simp)]
    exact ih (by simp only [combine]; omega)

theorem sweepWords_wraps (hleft : p.level + left = 32) (hmany : 2 ^ 31 < count.toNat)
    (hdvd : 2 ^ p.level ∣ count.toNat) :
    sweepWords hashPair inner ml left count p = .error .shiftTooWide := by
  induction left generalizing count p with
  | zero => rfl
  | succ left ih =>
    have hwidth : p.level < 32 := by omega
    have hpow : 2 ^ p.level ≤ 2 ^ 31 := Nat.pow_le_pow_right (by decide) (by omega)
    have hlast : ¬ count.toNat = 2 ^ p.level := by omega
    simp only [sweepWords, eq_bit_iff hwidth, and_bit_ne_zero hwidth, if_neg hlast]
    split_ifs with hset
    · obtain ⟨hdvd', hle⟩ := add_two_pow_le (k := 1) hdvd hset hwidth
        (by rw [one_mul]; exact count.toNat_lt.le)
      have hsum : (count + bit p.level).toNat = (count.toNat + 2 ^ p.level) % 2 ^ 32 := by
        rw [UInt32.toNat_add, toNat_bit hwidth]
      rcases (one_mul (2 ^ 32) ▸ hle).lt_or_eq with hlt | heq
      · rw [Nat.mod_eq_of_lt hlt] at hsum
        rw [← hsum] at hdvd'
        exact ih (by simp only [double]; omega) (by omega) hdvd'
      · have hzero : count + bit p.level = 0 := UInt32.toNat_inj.1 (by rw [hsum, heq]; rfl)
        rw [hzero]
        exact sweepWords_zero (by simp only [double]; omega)
    · exact ih (by simp only [combine]; omega) hmany
        (dvd_succ_of_not_testBit hdvd (by simpa using hset))

def StateWords.toState (s : StateWords) : State :=
  ⟨s.count.toNat, s.inner, s.matchlevel, s.mutated, s.branch⟩

theorem foldlM_processLeafWords (branchpos : UInt32) (leaves : List uint256) {s : StateWords}
    (hlen : s.count.toNat + leaves.length < 2 ^ 32) :
    ∃ s', leaves.foldlM (processLeafWords hashPair branchpos) s = .ok s' ∧
      s'.toState = leaves.foldl (processLeaf hashPair branchpos) s.toState ∧
      s'.count.toNat = s.count.toNat + leaves.length := by
  induction leaves generalizing s with
  | nil => exact ⟨s, rfl, rfl, rfl⟩
  | cons leaf leaves ih =>
    rw [List.length_cons] at hlen
    have hcount : (s.count + 1).toNat = s.count.toNat + 1 := by
      rw [UInt32.toNat_add]
      exact Nat.mod_eq_of_lt (by change _ + 1 < _; omega)
    have hpos : s.count + 1 ≠ 0 := fun hzero => by simp [hzero] at hcount
    obtain ⟨l, hbit, hl, hlt⟩ := exists_testBit hpos
    have hmatch : (s.count == branchpos) = (s.count.toNat == branchpos.toNat) := by
      rw [Bool.eq_iff_iff, beq_iff_eq, beq_iff_eq, UInt32.toNat_inj]
    have hclimb : climbWords hashPair s.inner s.matchlevel (s.count + 1) 32 s.mutated
        ⟨0, leaf, s.count == branchpos, s.branch⟩ = .ok (climb hashPair s.inner s.matchlevel
          (s.count + 1).toNat (s.count.toNat + 1) s.mutated _) :=
      climbWords_eq rfl hbit (Nat.zero_le _) hl (by dsimp only; omega)
    obtain ⟨⟨p, mutated⟩, hpath⟩ : ∃ c, climb hashPair s.inner s.matchlevel (s.count.toNat + 1)
        (s.count.toNat + 1) s.mutated ⟨0, leaf, s.count == branchpos, s.branch⟩ = c := ⟨_, rfl⟩
    rw [hcount, hpath] at hclimb
    have hstep : ∃ s₁, processLeafWords hashPair branchpos s leaf = .ok s₁ ∧
        s₁.toState = processLeaf hashPair branchpos s.toState leaf ∧ s₁.count = s.count + 1 := by
      refine ⟨⟨s.count + 1, Function.update s.inner p.level p.h,
        if p.matchh then some p.level else s.matchlevel, mutated, p.branch⟩, ?_, ?_, rfl⟩
      · rw [processLeafWords, hclimb]
        rfl
      · rw [hmatch] at hpath
        simp only [StateWords.toState, processLeaf, hcount, hpath]
    obtain ⟨s₁, hfirst, hstate, hcount₁⟩ := hstep
    obtain ⟨s', hrest, hstate', hlen'⟩ := ih (s := s₁) (by rw [hcount₁, hcount]; omega)
    refine ⟨s', by rw [List.foldlM_cons, hfirst, ok_bind, hrest], ?_, ?_⟩
    · rw [hstate', hstate, List.foldl_cons]
    · rw [hlen', hcount₁, hcount, List.length_cons]
      omega

variable {leaves : List uint256}

/-- Below `2 ^ 32` leaves the count is their number, and the sweep starts at its lowest bit. -/
theorem leaves_counted (hashPair : uint256 → uint256 → uint256) (hempty : ¬ leaves.isEmpty = true)
    (hlen : leaves.length < 2 ^ 32) (branchpos : UInt32) :
    ∃ s level, leaves.foldlM (processLeafWords hashPair branchpos) StateWords.init = .ok s ∧
      s.toState = leaves.foldl (processLeaf hashPair branchpos) State.init ∧
      s.count.toNat = leaves.length ∧ s.count ≠ 0 ∧ skipZerosWords s.count 32 0 = .ok level ∧
      level = skipZeros s.count.toNat s.count.toNat 0 ∧ 2 ^ level ∣ s.count.toNat ∧ level < 32 := by
  obtain ⟨s, hrun, hstate, hcount⟩ := foldlM_processLeafWords branchpos leaves
    (s := StateWords.init) (by change 0 + leaves.length < _; omega)
  replace hcount : s.count.toNat = leaves.length := hcount.trans (Nat.zero_add _)
  have hpos : s.count ≠ 0 := fun hzero => by
    rw [hzero] at hcount
    exact hempty (List.isEmpty_iff.2 (List.length_eq_zero_iff.1 hcount.symm))
  have hne : s.count.toNat ≠ 0 := fun hzero => hpos (UInt32.toNat_inj.1 hzero)
  obtain ⟨l, hbit, hl, hlt⟩ := exists_testBit hpos
  obtain ⟨hset, hdvd⟩ := skipZeros_spec 0 s.count.toNat hne (by simp)
    (by rw [Nat.zero_add]; exact Nat.lt_two_pow_self)
  refine ⟨s, _, hrun, hstate, hcount, hpos, skipZerosWords_eq (Nat.zero_add 32) hbit
    (Nat.zero_le l) hl (hlt.trans_eq (Nat.zero_add _).symm), rfl, hdvd, ?_⟩
  refine (Nat.pow_lt_pow_iff_right (a := 2) (by decide)).1 ?_
  exact (ge_two_pow_of_testBit hset).trans_lt s.count.toNat_lt

theorem merkleComputationWords_eq (hashPair : uint256 → uint256 → uint256)
    (hlen : leaves.length ≤ 2 ^ 31) (branchpos : UInt32) :
    merkleComputationWords hashPair leaves branchpos =
      .ok (merkleComputation hashPair leaves branchpos) := by
  rw [merkleComputationWords, merkleComputation]
  split_ifs with hempty
  · rfl
  obtain ⟨s, level, hrun, hstate, hcount, hpos, hskip, hlevel, hdvd, hwidth⟩ :=
    leaves_counted hashPair hempty (by omega) branchpos
  -- the sweep ends at a level that is below the width and below the number of leaves
  obtain ⟨top, htop, hle, hfuel⟩ :
      ∃ top, top < 32 ∧ s.count.toNat ≤ 2 ^ top ∧ top ≤ s.count.toNat := by
    by_cases hsmall : s.count.toNat < 32
    · exact ⟨_, hsmall, Nat.lt_two_pow_self.le, le_rfl⟩
    · exact ⟨31, by decide, by omega, by omega⟩
  have hsweep : sweepWords hashPair s.inner s.matchlevel (32 - level) s.count
      ⟨level, s.inner level, s.matchlevel == some level, s.branch⟩ =
        .ok (sweep hashPair s.inner s.matchlevel (s.count.toNat + 1) s.count.toNat _) :=
    sweepWords_eq htop (by dsimp only; omega) hpos hle hdvd (by omega)
  rw [hrun, ok_bind, hskip, ok_bind, hsweep, ← hstate, hlevel]
  rfl

/-- Between `2 ^ 31` and `2 ^ 32` leaves the sweep runs out of levels. -/
theorem merkleComputationWords_wraps (hashPair : uint256 → uint256 → uint256)
    (hmany : 2 ^ 31 < leaves.length) (hlen : leaves.length < 2 ^ 32) (branchpos : UInt32) :
    merkleComputationWords hashPair leaves branchpos = .error .shiftTooWide := by
  have hempty : ¬ leaves.isEmpty = true := fun h => by
    rw [List.isEmpty_iff.1 h] at hmany
    exact absurd hmany (Nat.not_lt_zero _)
  obtain ⟨s, level, hrun, -, hcount, -, hskip, -, hdvd, hwidth⟩ :=
    leaves_counted hashPair hempty hlen branchpos
  rw [merkleComputationWords, if_neg hempty, hrun, ok_bind, hskip, ok_bind,
    sweepWords_wraps (by dsimp only; omega) (by omega) hdvd]
  rfl

/-- Up to `2 ^ 31` leaves, `ComputeMerkleRoot` is the level-by-level root, and every branch that
`ComputeMerkleBranch` gives leads there. -/
theorem computeMerkleRootFromBranch_computeMerkleBranch
    (hashPair : uint256 → uint256 → uint256) {leaves : List uint256} {leaf : uint256}
    (hlen : leaves.length ≤ 2 ^ 31) (position : UInt32)
    (hleaf : leaves[position.toNat]? = some leaf) :
    ∃ root mutated branch, computeMerkleRootWords hashPair leaves = .ok (root, mutated) ∧
      some root = MerkleTree.root hashPair leaves ∧
      computeMerkleBranchWords hashPair leaves position = .ok branch ∧
      computeMerkleRootFromBranch hashPair leaf branch position = root := by
  have hne : leaves ≠ [] := fun hnil => by
    rw [hnil] at hleaf
    cases hleaf
  refine ⟨(computeMerkleRoot hashPair leaves).1, (computeMerkleRoot hashPair leaves).2,
    computeMerkleBranch hashPair leaves position, ?_, computeMerkleRoot_root hne, ?_, ?_⟩
  · rw [computeMerkleRootWords, merkleComputationWords_eq hashPair hlen]
    rfl
  · rw [computeMerkleBranchWords, merkleComputationWords_eq hashPair hlen]
    rfl
  · rw [computeMerkleRootFromBranch_eq]
    exact foldUp_computeMerkleBranch hashPair position hleaf

theorem computeMerkleRootFromBranch_computeMerkleBranch_third :
    ([1, 2, 3] : List uint256)[2]? = some 3 ∧
      ∃ root mutated branch, computeMerkleRootWords (· + 2 * ·) [1, 2, 3] = .ok (root, mutated) ∧
        some root = MerkleTree.root (· + 2 * ·) [1, 2, 3] ∧
        computeMerkleBranchWords (· + 2 * ·) [1, 2, 3] 2 = .ok branch ∧
        computeMerkleRootFromBranch (· + 2 * ·) 3 branch 2 = root :=
  ⟨rfl, computeMerkleRootFromBranch_computeMerkleBranch (· + 2 * ·) (by decide) 2 rfl⟩

/-- One leaf more than `2 ^ 31`. -/
theorem computeMerkleRoot_overflows :
    computeMerkleRootWords (· + 2 * ·) (List.replicate (2 ^ 31 + 1) 0) = .error .shiftTooWide := by
  have hlen : (List.replicate (2 ^ 31 + 1) (0 : uint256)).length = 2 ^ 31 + 1 :=
    List.length_replicate
  rw [computeMerkleRootWords, merkleComputationWords_wraps _ (by rw [hlen]; omega)
    (by rw [hlen]; omega)]
  rfl

end Merkle

end Coinyecoin
