import Coinyecoin.Consensus.Merkle
import Coinyecoin.Foundation.MerkleTree

/-!
# Merkle branches

`MerkleComputation` collects the branch of one leaf while it computes the root. Once the
leaf has been seen, its subtree is the one at `matchlevel`, and the branch leads from the
leaf to the hash stored there. On a way up that does not carry the leaf the branch is
extended where the way joins that subtree, on a way that carries it at every level.
-/

namespace Coinyecoin

namespace Merkle

open Foundation MerkleTree Nat

variable {leaves : List uint256}

section

variable (hashPair : uint256 → uint256 → uint256)

def computeMerkleBranch (leaves : List uint256) (position : UInt32) : List uint256 :=
  (merkleComputation hashPair leaves position).branch

def blockMerkleBranch (getHash : CTransaction → uint256) (block : CBlock) (position : UInt32) :
    List uint256 :=
  computeMerkleBranch hashPair (block.vtx.map getHash) position

def computeMerkleRootFromBranch : uint256 → List uint256 → UInt32 → uint256
  | hash, [], _ => hash
  | hash, it :: vMerkleBranch, nIndex =>
    computeMerkleRootFromBranch
      (if nIndex &&& 1 ≠ 0 then hashPair it hash else hashPair hash it) vMerkleBranch (nIndex >>> 1)

theorem computeMerkleRootFromBranch_eq (hash : uint256) (vMerkleBranch : List uint256)
    (nIndex : UInt32) : computeMerkleRootFromBranch hashPair hash vMerkleBranch nIndex =
      foldUp hashPair hash nIndex.toNat vMerkleBranch := by
  induction vMerkleBranch generalizing hash nIndex with
  | nil => rfl
  | cons it vMerkleBranch ih =>
    have hodd : nIndex &&& 1 ≠ 0 ↔ nIndex.toNat % 2 = 1 := by
      rw [← UInt32.toNat_inj.ne, UInt32.toNat_and]
      change nIndex.toNat &&& 1 ≠ 0 ↔ _
      rw [and_one_is_mod]
      omega
    have hhalf : (nIndex >>> 1).toNat = nIndex.toNat / 2 := by
      rw [UInt32.toNat_shiftRight, shiftRight_eq_div_pow]
      rfl
    simp only [computeMerkleRootFromBranch, ih, hhalf, hodd, foldUp]

variable {count level top : ℕ}

theorem testBit_mul_two_pow (k level : ℕ) : (k * 2 ^ level).testBit level = decide (k % 2 = 1) := by
  rw [Nat.testBit_eq_decide_div_mod_eq, Nat.mul_div_cancel _ (Nat.two_pow_pos level)]

theorem ne_mul_two_pow (hbit : count.testBit level = true) (hlevel : level < top) (k : ℕ) :
    count ≠ k * 2 ^ top := by
  rintro rfl
  have hsplit : k * 2 ^ top = 2 * (k * 2 ^ (top - level - 1)) * 2 ^ level := by
    rw [show top = 1 + (top - level - 1) + level by omega, pow_add, pow_add]
    simp only [show 1 + (top - level - 1) + level - level - 1 = top - level - 1 by omega]
    ring
  rw [hsplit, testBit_mul_two_pow, decide_eq_true_eq] at hbit
  omega

theorem dvd_succ_of_not_testBit (hdvd : 2 ^ level ∣ count) (hbit : count.testBit level = false) :
    2 ^ (level + 1) ∣ count := by
  obtain ⟨k, rfl⟩ := hdvd
  rw [mul_comm, testBit_mul_two_pow, decide_eq_false_iff_not] at hbit
  rw [pow_succ]
  exact mul_dvd_mul_left _ (by omega)

theorem add_two_pow_le (hdvd : 2 ^ level ∣ count) (hbit : count.testBit level = true)
    (hlevel : level < top) {k : ℕ} (hle : count ≤ k * 2 ^ top) :
    2 ^ (level + 1) ∣ count + 2 ^ level ∧ count + 2 ^ level ≤ k * 2 ^ top := by
  have hless := lt_of_le_of_ne hle (ne_mul_two_pow hbit hlevel k)
  obtain ⟨m, rfl⟩ := hdvd
  obtain ⟨n, hn⟩ : 2 ^ level ∣ k * 2 ^ top := (pow_dvd_pow 2 hlevel.le).mul_left k
  rw [mul_comm, testBit_mul_two_pow, decide_eq_true_eq] at hbit
  rw [hn] at hless ⊢
  rw [← mul_succ, pow_succ]
  exact ⟨mul_dvd_mul_left _ (by omega),
    Nat.mul_le_mul_left _ (Nat.lt_of_mul_lt_mul_left hless)⟩

theorem skipZeros_spec (level fuel : ℕ) (hpos : count ≠ 0) (hdvd : 2 ^ level ∣ count)
    (hfuel : count < 2 ^ (level + fuel)) :
    count.testBit (skipZeros count fuel level) = true ∧ 2 ^ skipZeros count fuel level ∣ count := by
  induction fuel generalizing level with
  | zero => exact absurd (le_of_dvd (pos_of_ne_zero hpos) hdvd) (not_le.2 hfuel)
  | succ fuel ih =>
    rw [skipZeros]
    split_ifs with hbit
    · exact ⟨hbit, hdvd⟩
    · refine ih (level + 1) (dvd_succ_of_not_testBit hdvd (by simpa using hbit)) ?_
      rwa [show level + 1 + fuel = level + (fuel + 1) by omega]

end

section

variable {hashPair : uint256 → uint256 → uint256} {leaf : uint256} {pos : ℕ} {inner : ℕ → uint256}
  {matchlevel : Option ℕ} {top count fuel : ℕ} {p : Path}

/-- On the way up: right of the subtree with the leaf, which is stored at `matchlevel`, or with the
leaf. The number is the one of the leaves, rounded up to the level. -/
inductive OnTheWay (hashPair : uint256 → uint256 → uint256) (leaf : uint256) (pos : ℕ)
    (inner : ℕ → uint256) (matchlevel : Option ℕ) (count : ℕ) (p : Path) : Prop
  | beside (top : ℕ) (hstored : matchlevel = some top) (hmatch : p.matchh = false)
      (hlevel : p.level ≤ top)
      (hlt : (pos / 2 ^ top + 1) * 2 ^ top < count) (hle : count ≤ (pos / 2 ^ top + 2) * 2 ^ top)
      (heven : pos / 2 ^ top % 2 = 0) (hdvd : 2 ^ p.level ∣ count)
      (hlength : p.branch.length = top) (hbranch : foldUp hashPair leaf pos p.branch = inner top)
  | carried (hmatch : p.matchh = true) (hcount : count = (pos / 2 ^ p.level + 1) * 2 ^ p.level)
      (hlength : p.branch.length = p.level) (hbranch : foldUp hashPair leaf pos p.branch = p.h)

section

variable (h : OnTheWay hashPair leaf pos inner matchlevel count p)
include h

theorem OnTheWay.dvd : 2 ^ p.level ∣ count := by
  cases h with
  | beside _ _ _ _ _ _ _ hdvd _ _ => exact hdvd
  | carried _ hcount _ _ => exact hcount ▸ Dvd.intro_left _ rfl

theorem OnTheWay.count_pos : 0 < count := by
  cases h with
  | beside _ _ _ _ hlt _ _ _ _ _ => exact (zero_le _).trans_lt hlt
  | carried _ hcount _ _ => exact hcount ▸ Nat.mul_pos (Nat.succ_pos _) (Nat.two_pow_pos _)

end

theorem eq_of_dvd (hlt : (pos / 2 ^ top + 1) * 2 ^ top < count)
    (hle : count ≤ (pos / 2 ^ top + 2) * 2 ^ top) (hdvd : 2 ^ top ∣ count) :
    count = (pos / 2 ^ top + 2) * 2 ^ top := by
  obtain ⟨k, rfl⟩ := hdvd
  rw [mul_comm] at hlt
  rw [mul_comm _ (2 ^ top)] at hle
  have hlow := Nat.lt_of_mul_lt_mul_left hlt
  have hhigh := Nat.le_of_mul_le_mul_left hle (Nat.two_pow_pos top)
  rw [show k = pos / 2 ^ top + 2 by omega, mul_comm]

theorem parent_eq (pos level : ℕ) : pos / 2 ^ (level + 1) = pos / 2 ^ level / 2 := by
  rw [pow_succ, Nat.div_div_eq_div_mul]

section

variable (h : OnTheWay hashPair leaf pos inner matchlevel count p)
include h

theorem OnTheWay.combine (hbit : count.testBit p.level = false) :
    OnTheWay hashPair leaf pos inner matchlevel count (combine hashPair inner matchlevel p) := by
  have hnext := dvd_succ_of_not_testBit h.dvd hbit
  cases h with
  | carried hmatch hcount hlength hbranch =>
    rw [hcount, testBit_mul_two_pow, decide_eq_false_iff_not] at hbit
    refine .carried (by simp [Merkle.combine, hmatch]) ?_
      (by simp [Merkle.combine, hmatch, hlength]) ?_
    · rw [hcount, Merkle.combine, parent_eq, pow_succ, ← mul_assoc, mul_right_comm]
      congr 1
      omega
    · simp only [Merkle.combine, hmatch, if_true]
      rw [foldUp_append, hlength, if_pos (by omega), hbranch]
  | beside top hstored hmatch hlevel hlt hle heven hdvd hlength hbranch =>
    subst hstored
    by_cases htop : p.level = top
    · -- the way joins the subtree with the leaf
      have hcount := eq_of_dvd hlt hle (htop ▸ hdvd)
      refine .carried (by simp [Merkle.combine, htop]) ?_
        (by simp [Merkle.combine, hmatch, htop, hlength]) ?_
      · rw [hcount, Merkle.combine, htop, parent_eq, pow_succ, ← mul_assoc, mul_right_comm]
        congr 1
        omega
      · simp only [Merkle.combine, hmatch, htop, Bool.false_eq_true, if_false, if_true]
        rw [foldUp_append, hlength, if_neg (by omega), hbranch]
    · refine .beside top rfl (by simp [Merkle.combine, hmatch, Ne.symm htop]) ?_ hlt hle heven hnext
        (by simpa [Merkle.combine, hmatch, Ne.symm htop] using hlength)
        (by simpa [Merkle.combine, hmatch, Ne.symm htop] using hbranch)
      simp only [Merkle.combine]
      omega

theorem OnTheWay.double (hbit : count.testBit p.level = true) :
    OnTheWay hashPair leaf pos inner matchlevel (count + 2 ^ p.level) (double hashPair p) := by
  cases h with
  | carried hmatch hcount hlength hbranch =>
    rw [hcount, testBit_mul_two_pow, decide_eq_true_eq] at hbit
    refine .carried hmatch ?_ (by simp [Merkle.double, hmatch, hlength]) ?_
    · rw [hcount, Merkle.double, parent_eq, pow_succ, ← succ_mul, ← mul_assoc, mul_right_comm]
      congr 1
      omega
    · simp only [Merkle.double, hmatch, if_true]
      rw [foldUp_append, hlength, if_neg (by omega), hbranch]
  | beside top hstored hmatch hlevel hlt hle heven hdvd hlength hbranch =>
    have hne : p.level ≠ top := fun htop => by
      rw [eq_of_dvd hlt hle (htop ▸ hdvd), htop, testBit_mul_two_pow, decide_eq_true_eq] at hbit
      omega
    obtain ⟨hdvd', hle'⟩ := add_two_pow_le hdvd hbit (lt_of_le_of_ne hlevel hne) hle
    refine .beside top hstored hmatch ?_ (hlt.trans_le (le_add_right _ _)) hle' heven hdvd'
      (by simpa [Merkle.double, hmatch] using hlength)
      (by simpa [Merkle.double, hmatch] using hbranch)
    simp only [Merkle.double]
    omega

theorem OnTheWay.climb (hfuel : count < 2 ^ (p.level + fuel)) (mutated : Bool) :
    let climbed := (climb hashPair inner matchlevel count fuel mutated p).1
    OnTheWay hashPair leaf pos inner matchlevel count climbed ∧ count.testBit climbed.level = true := by
  induction fuel generalizing p mutated with
  | zero => exact absurd (le_of_dvd h.count_pos h.dvd) (not_le.2 hfuel)
  | succ fuel ih =>
    rw [Merkle.climb]
    split_ifs with hbit
    · exact ⟨h, hbit⟩
    · refine ih (h.combine (by simpa using hbit)) ?_ _
      rwa [Merkle.combine, show p.level + 1 + fuel = p.level + (fuel + 1) by omega]

theorem OnTheWay.foldUp_eq
    (hcount : count = 2 ^ p.level) : foldUp hashPair leaf pos p.branch = p.h := by
  cases h with
  | beside top _ _ hlevel hlt _ _ _ _ _ =>
    have hpow := Nat.pow_le_pow_right (n := 2) (by decide) hlevel
    have hmul := mul_le_mul_right (2 ^ top) (le_add_left 1 (pos / 2 ^ top))
    omega
  | carried _ _ _ hbranch => exact hbranch

theorem OnTheWay.sweep {height : ℕ}
    (hheight : count ≤ 2 ^ height) (hfuel : height ≤ p.level + fuel) :
    foldUp hashPair leaf pos (sweep hashPair inner matchlevel fuel count p).branch =
      (sweep hashPair inner matchlevel fuel count p).h := by
  have hleast := le_of_dvd h.count_pos h.dvd
  induction fuel generalizing p count with
  | zero =>
    have hpow := Nat.pow_le_pow_right (n := 2) (by decide) hfuel
    refine h.foldUp_eq ?_
    rw [add_zero] at hpow
    omega
  | succ fuel ih =>
    rw [Merkle.sweep]
    split_ifs with hcount hbit
    · exact h.foldUp_eq hcount
    · have hnext := h.double hbit
      have hless : p.level < height := (Nat.pow_lt_pow_iff_right (by decide)).1
        ((lt_of_le_of_ne hleast (Ne.symm hcount)).trans_le hheight)
      have hround := (add_two_pow_le h.dvd hbit hless (k := 1) (by rwa [one_mul])).2
      refine ih hnext (by rwa [one_mul] at hround) ?_ (le_of_dvd hnext.count_pos hnext.dvd)
      simp only [Merkle.double]
      omega
    · have hnext := h.combine (by simpa using hbit)
      refine ih hnext hheight ?_ (le_of_dvd hnext.count_pos hnext.dvd)
      simp only [Merkle.combine]
      omega

end

/-- The state after some leaves, the one at the position among them: its subtree is stored, as a
left child, and the branch leads there. -/
structure Follows (hashPair : uint256 → uint256 → uint256) (leaf : uint256) (pos top : ℕ)
    (s : State) : Prop where
  least : (pos / 2 ^ top + 1) * 2 ^ top ≤ s.count
  less : s.count < (pos / 2 ^ top + 2) * 2 ^ top
  even : pos / 2 ^ top % 2 = 0
  matchlevel : s.matchlevel = some top
  length : s.branch.length = top
  branch : foldUp hashPair leaf pos s.branch = s.inner top

variable {branchpos : UInt32} {s : State}

theorem follows_processLeaf {next : uint256}
    (h : OnTheWay hashPair leaf branchpos.toNat s.inner s.matchlevel (s.count + 1)
      ⟨0, next, s.count == branchpos.toNat, s.branch⟩) :
    ∃ top, Follows hashPair leaf branchpos.toNat top (processLeaf hashPair branchpos s next) := by
  have hfuel : s.count + 1 < 2 ^ (0 + (s.count + 1)) := by
    rw [Nat.zero_add]
    exact Nat.lt_two_pow_self
  obtain ⟨hway, hbit⟩ := h.climb hfuel s.mutated
  generalize hclimbed : (Merkle.climb hashPair s.inner s.matchlevel (s.count + 1) (s.count + 1)
    s.mutated ⟨0, next, s.count == branchpos.toNat, s.branch⟩).1 = climbed at hway hbit
  cases hway with
  | beside top hstored hmatch hlevel hlt hle heven hdvd hlength hbranch =>
    have hne : climbed.level ≠ top := fun htop => by
      rw [eq_of_dvd hlt hle (htop ▸ hdvd), htop, testBit_mul_two_pow, decide_eq_true_eq] at hbit
      omega
    have hless := lt_of_le_of_ne hle (ne_mul_two_pow hbit (lt_of_le_of_ne hlevel hne) _)
    refine ⟨top, hlt.le, hless, heven, ?_, ?_, ?_⟩
    · simp only [processLeaf, hclimbed]
      rw [hmatch, if_neg Bool.false_ne_true]
      exact hstored
    · simpa only [processLeaf, hclimbed] using hlength
    · simp only [processLeaf, hclimbed]
      rw [Function.update_of_ne (Ne.symm hne)]
      exact hbranch
  | carried hmatch hcount hlength hbranch =>
    rw [hcount, testBit_mul_two_pow, decide_eq_true_eq] at hbit
    have hnext : (branchpos.toNat / 2 ^ climbed.level + 1) * 2 ^ climbed.level <
        (branchpos.toNat / 2 ^ climbed.level + 2) * 2 ^ climbed.level :=
      Nat.mul_lt_mul_of_pos_right (Nat.lt_succ_self _) (Nat.two_pow_pos _)
    refine ⟨climbed.level, hcount.ge, hcount.trans_lt hnext, by omega, ?_, ?_, ?_⟩
    · simp only [processLeaf, hclimbed]
      rw [hmatch, if_pos rfl]
    · simpa only [processLeaf, hclimbed] using hlength
    · simp only [processLeaf, hclimbed]
      rw [Function.update_self]
      exact hbranch

theorem Follows.processLeaf (h : Follows hashPair leaf branchpos.toNat top s) (next : uint256) :
    ∃ top', Follows hashPair leaf branchpos.toNat top'
      (processLeaf hashPair branchpos s next) := by
  have hseen : branchpos.toNat < s.count := by
    have hdiv := div_add_mod' branchpos.toNat (2 ^ top)
    have hmod := Nat.mod_lt branchpos.toNat (Nat.two_pow_pos top)
    have hleast := h.least
    rw [succ_mul] at hleast
    omega
  refine follows_processLeaf (.beside top h.matchlevel ?_ (zero_le _)
    (lt_succ_of_le h.least) h.less h.even (by simp) h.length h.branch)
  simpa using hseen.ne'

theorem Follows.eq_of_dvd (h : Follows hashPair leaf pos top s) (hdvd : 2 ^ top ∣ s.count) :
    s.count = (pos / 2 ^ top + 1) * 2 ^ top := by
  by_contra hne
  exact absurd (Merkle.eq_of_dvd (lt_of_le_of_ne h.least (Ne.symm hne)) h.less.le hdvd) h.less.ne

theorem Follows.level_le {level : ℕ} (h : Follows hashPair leaf pos top s)
    (hdvd : 2 ^ level ∣ s.count) : level ≤ top := by
  by_contra hlt
  have hcount := h.eq_of_dvd ((pow_dvd_pow 2 (not_le.1 hlt).le).trans hdvd)
  have heven := h.even
  obtain ⟨k, hk⟩ := (pow_dvd_pow 2 (not_le.1 hlt)).trans hdvd
  have hodd : pos / 2 ^ top + 1 = 2 * k := by
    refine Nat.eq_of_mul_eq_mul_right (Nat.two_pow_pos top) ?_
    rw [← hcount, hk, pow_succ]
    ring
  omega

theorem Follows.foldl (h : Follows hashPair leaf branchpos.toNat top s) (leaves : List uint256) :
    ∃ top', Follows hashPair leaf branchpos.toNat top'
      (leaves.foldl (Merkle.processLeaf hashPair branchpos) s) := by
  induction leaves generalizing s top with
  | nil => exact ⟨top, h⟩
  | cons next leaves ih =>
    obtain ⟨top', h'⟩ := h.processLeaf next
    exact ih h'

/-- Before the leaf at the position nothing is recorded. -/
structure Before (branchpos : UInt32) (s : State) : Prop where
  le : s.count ≤ branchpos.toNat
  matchlevel : s.matchlevel = none
  branch : s.branch = []

theorem climb_unmatched (hashPair : uint256 → uint256 → uint256) (inner : ℕ → uint256)
    (count fuel : ℕ) (mutated : Bool) (hmatch : p.matchh = false) :
    (climb hashPair inner none count fuel mutated p).1.matchh = false ∧
      (climb hashPair inner none count fuel mutated p).1.branch = p.branch := by
  induction fuel generalizing p mutated with
  | zero => exact ⟨hmatch, rfl⟩
  | succ fuel ih =>
    rw [climb]
    split_ifs
    · exact ⟨hmatch, rfl⟩
    · obtain ⟨hmatch', hbranch⟩ := ih (mutated || inner p.level == p.h)
        (show (combine hashPair inner none p).matchh = false by simp [combine, hmatch])
      exact ⟨hmatch', hbranch.trans (by simp [combine, hmatch])⟩

theorem Before.processLeaf (h : Before branchpos s) (hlt : s.count < branchpos.toNat)
    (next : uint256) : Before branchpos (processLeaf hashPair branchpos s next) := by
  have hclimb := climb_unmatched (p := ⟨0, next, s.count == branchpos.toNat, s.branch⟩) hashPair
    s.inner (s.count + 1) (s.count + 1) s.mutated (by simpa using hlt.ne)
  rw [← h.matchlevel] at hclimb
  refine ⟨hlt, ?_, hclimb.2.trans h.branch⟩
  simp only [Merkle.processLeaf]
  rw [hclimb.1, if_neg Bool.false_ne_true]
  exact h.matchlevel

theorem follows_of_before (hashPair : uint256 → uint256 → uint256) (h : Before branchpos s)
    (hleaf : leaves[branchpos.toNat - s.count]? = some leaf) :
    ∃ top, Follows hashPair leaf branchpos.toNat top
      (leaves.foldl (processLeaf hashPair branchpos) s) := by
  induction leaves generalizing s with
  | nil => cases hleaf
  | cons next leaves ih =>
    by_cases hlt : s.count < branchpos.toNat
    · refine ih (h.processLeaf hlt next) ?_
      rwa [show branchpos.toNat - s.count = branchpos.toNat - (s.count + 1) + 1 by omega,
        List.getElem?_cons_succ] at hleaf
    · have hcount : s.count = branchpos.toNat := le_antisymm h.le (not_lt.1 hlt)
      rw [hcount, Nat.sub_self, List.getElem?_cons_zero] at hleaf
      obtain rfl := Option.some.inj hleaf
      have hstart : OnTheWay hashPair next branchpos.toNat s.inner s.matchlevel (s.count + 1)
          ⟨0, next, s.count == branchpos.toNat, s.branch⟩ :=
        .carried (by simpa using hcount) (by simp [hcount]) (by simp [h.branch])
          (by simp [h.branch, foldUp])
      obtain ⟨top, hfollows⟩ := follows_processLeaf hstart
      exact hfollows.foldl leaves

theorem foldUp_computeMerkleBranch (hashPair : uint256 → uint256 → uint256)
    {leaf : uint256} (position : UInt32) (hleaf : leaves[position.toNat]? = some leaf) :
    foldUp hashPair leaf position.toNat (computeMerkleBranch hashPair leaves position) =
      (computeMerkleRoot hashPair leaves).1 := by
  have hne : leaves ≠ [] := fun hnil => by
    rw [hnil] at hleaf
    cases hleaf
  have hroot : (computeMerkleRoot hashPair leaves).1 =
      (merkleComputation hashPair leaves position).root :=
    Option.some.inj ((computeMerkleRoot_root hne).trans (merkleComputation_root hne position).symm)
  obtain ⟨top, h⟩ := follows_of_before (s := State.init) hashPair ⟨zero_le _, rfl, rfl⟩ hleaf
  rw [hroot, computeMerkleBranch, merkleComputation, if_neg (by simpa using hne)]
  generalize leaves.foldl (processLeaf hashPair position) State.init = s at h
  have hpos : s.count ≠ 0 := (lt_of_lt_of_le
    (Nat.mul_pos (Nat.succ_pos _) (Nat.two_pow_pos _)) h.least).ne'
  obtain ⟨hbit, hdvd⟩ := skipZeros_spec 0 s.count hpos (by simp)
    (by rw [zero_add]; exact Nat.lt_two_pow_self)
  have hfuel : s.count ≤ skipZeros s.count s.count 0 + (s.count + 1) := by omega
  refine OnTheWay.sweep ?_ Nat.lt_two_pow_self.le hfuel
  by_cases htop : skipZeros s.count s.count 0 = top
  · refine .carried ?_ ?_ (h.length.trans htop.symm) (h.branch.trans (htop ▸ rfl))
    · simp [h.matchlevel, htop]
    · dsimp only
      rw [htop]
      exact h.eq_of_dvd (htop ▸ hdvd)
  · have hlevel := h.level_le hdvd
    have hne := ne_mul_two_pow hbit (lt_of_le_of_ne hlevel htop) (position.toNat / 2 ^ top + 1)
    refine .beside top h.matchlevel ?_ hlevel (lt_of_le_of_ne h.least (Ne.symm hne)) h.less.le
      h.even hdvd h.length h.branch
    simpa [h.matchlevel] using Ne.symm htop

end

end Merkle

end Coinyecoin
