import Coinyecoin.Foundation.MerkleTree
import Coinyecoin.Validation.CheckBlock

/-!
# Merkle roots of blocks

`MerkleComputation` of `consensus/merkle.cpp`, which keeps one hash per set bit
of the number of leaves seen so far, and the functions built on it. The hash of
two concatenated hashes is a parameter, `hashPair`.

The counters of the source are 32 bits wide; here they are natural numbers, and
`MerkleWords` has the same functions with words, which agree up to `2 ^ 31` leaves.
Outputs a caller does not ask for are computed and not read.
-/

namespace Coinyecoin

namespace Merkle

open Foundation Function MerkleTree

variable {count fuel : ℕ} {inner : ℕ → uint256} {ml : Option ℕ} {seen leaves : List uint256}

section

variable (hashPair : uint256 → uint256 → uint256)

/-- The way up from a leaf: the level reached, the hash there, whether it
depends on the matching leaf, and the branch so far. -/
structure Path where
  level : ℕ
  h : uint256
  matchh : Bool
  branch : List uint256

def combine (inner : ℕ → uint256) (matchlevel : Option ℕ) (p : Path) : Path where
  level := p.level + 1
  h := hashPair (inner p.level) p.h
  matchh := p.matchh || matchlevel == some p.level
  branch :=
    if p.matchh then p.branch ++ [inner p.level]
    else if matchlevel = some p.level then p.branch ++ [p.h]
    else p.branch

def double (p : Path) : Path where
  level := p.level + 1
  h := hashPair p.h p.h
  matchh := p.matchh
  branch := if p.matchh then p.branch ++ [p.h] else p.branch

/-- The loop over the lower bits of `count` that are zero, with the flag for
equal hashes. The first argument bounds the number of rounds. -/
def climb (inner : ℕ → uint256) (matchlevel : Option ℕ) (count : ℕ) :
    ℕ → Bool → Path → Path × Bool
  | 0, mutated, p => (p, mutated)
  | fuel + 1, mutated, p =>
    if count.testBit p.level then (p, mutated)
    else climb inner matchlevel count fuel (mutated || inner p.level == p.h)
      (combine hashPair inner matchlevel p)

structure State where
  count : ℕ
  inner : ℕ → uint256
  matchlevel : Option ℕ
  mutated : Bool
  branch : List uint256

def State.init : State := ⟨0, fun _ => 0, none, false, []⟩

def processLeaf (branchpos : UInt32) (s : State) (leaf : uint256) : State :=
  let climbed := climb hashPair s.inner s.matchlevel (s.count + 1) (s.count + 1) s.mutated
    ⟨0, leaf, s.count == branchpos.toNat, s.branch⟩
  { count := s.count + 1
    inner := Function.update s.inner climbed.1.level climbed.1.h
    matchlevel := if climbed.1.matchh then some climbed.1.level else s.matchlevel
    mutated := climbed.2
    branch := climbed.1.branch }

def skipZeros (count : ℕ) : ℕ → ℕ → ℕ
  | 0, level => level
  | fuel + 1, level =>
    if count.testBit level then level else skipZeros count fuel (level + 1)

/-- The final sweep. A set bit at the level is the head of the outer loop, a
zero bit a round of the inner one. -/
def sweep (inner : ℕ → uint256) (matchlevel : Option ℕ) : ℕ → ℕ → Path → Path
  | 0, _, p => p
  | fuel + 1, count, p =>
    if count = 2 ^ p.level then p
    else if count.testBit p.level then
      sweep inner matchlevel fuel (count + 2 ^ p.level) (double hashPair p)
    else sweep inner matchlevel fuel count (combine hashPair inner matchlevel p)

structure Result where
  root : uint256
  mutated : Bool
  branch : List uint256

def merkleComputation (leaves : List uint256) (branchpos : UInt32) : Result :=
  if leaves.isEmpty then ⟨0, false, []⟩
  else
    let s := leaves.foldl (processLeaf hashPair branchpos) State.init
    let level := skipZeros s.count s.count 0
    let p := sweep hashPair s.inner s.matchlevel (s.count + 1) s.count
      ⟨level, s.inner level, s.matchlevel == some level, s.branch⟩
    ⟨p.h, s.mutated, p.branch⟩

def computeMerkleRoot (leaves : List uint256) : uint256 × Bool :=
  let result := merkleComputation hashPair leaves 0xffffffff
  (result.root, result.mutated)

def blockMerkleRoot (getHash : CTransaction → uint256) (block : CBlock) : uint256 × Bool :=
  computeMerkleRoot hashPair (block.vtx.map getHash)

end

section

variable {hashPair : uint256 → uint256 → uint256}

/-- The entries of `inner` at the set bits of `count`, lowest first. The other
entries are undefined in the source. -/
def stored (count : ℕ) (inner : ℕ → uint256) : List (Option uint256) :=
  if count = 0 then []
  else (if count.testBit 0 then some (inner 0) else none) ::
    stored (count / 2) fun level => inner (level + 1)
termination_by count
decreasing_by omega

@[simp] theorem stored_zero (inner : ℕ → uint256) : stored 0 inner = [] := by
  rw [stored, if_pos rfl]

theorem stored_even (hpos : count ≠ 0) (inner : ℕ → uint256) :
    stored (2 * count) inner = none :: stored count fun level => inner (level + 1) := by
  have hhalf : 2 * count / 2 = count := by omega
  rw [stored, if_neg (by omega), if_neg (by simp), hhalf]

theorem stored_odd (count : ℕ) (inner : ℕ → uint256) :
    stored (2 * count + 1) inner =
      some (inner 0) :: stored count fun level => inner (level + 1) := by
  have hhalf : (2 * count + 1) / 2 = count := by omega
  rw [stored, if_neg (by omega), if_pos (by simp), hhalf]

theorem stored_ne_nil (hpos : count ≠ 0) (inner : ℕ → uint256) : stored count inner ≠ [] := by
  rw [stored, if_neg hpos]
  exact List.cons_ne_nil _ _

theorem testBit_double_succ (count level : ℕ) :
    (2 * count).testBit (level + 1) = count.testBit level := by
  rw [Nat.testBit_succ, Nat.mul_div_cancel_left count (by decide)]

theorem two_mul_eq_two_pow_succ (count level : ℕ) :
    2 * count = 2 ^ (level + 1) ↔ count = 2 ^ level := by
  rw [pow_succ]
  omega

theorem update_succ (inner : ℕ → uint256) (level : ℕ) (h : uint256) :
    (fun i => Function.update inner (level + 1) h (i + 1)) =
      Function.update (fun i => inner (i + 1)) level h := by
  funext i
  by_cases hi : i = level
  · rw [hi, update_self, update_self]
  · rw [update_of_ne hi, update_of_ne (by omega)]

theorem climb_double (inner : ℕ → uint256) (ml : Option ℕ) (count fuel : ℕ) (m : Bool)
    (p q : Path) (hlevel : p.level = q.level + 1) (hh : p.h = q.h) :
    let up := climb hashPair inner ml (2 * count) fuel m p
    let down := climb hashPair (fun i => inner (i + 1)) ml count fuel m q
    up.1.level = down.1.level + 1 ∧ up.1.h = down.1.h ∧ up.2 = down.2 := by
  induction fuel generalizing m p q with
  | zero => exact ⟨hlevel, hh, rfl⟩
  | succ fuel ih =>
    simp only [climb, hlevel, testBit_double_succ, hh]
    split_ifs
    · exact ⟨hlevel, hh, rfl⟩
    · exact ih _ _ _ (by simp [combine, hlevel]) (by simp [combine, hlevel, hh])

theorem stored_climb {m : Bool} {p : Path} (hlevel : p.level = 0) (hfuel : count < fuel) :
    let climbed := climb hashPair inner ml (count + 1) fuel m p
    stored (count + 1) (Function.update inner climbed.1.level climbed.1.h) =
        push hashPair p.h (stored count inner) ∧
      climbed.2 = (m || pushClash hashPair p.h (stored count inner)) := by
  induction count using Nat.strong_induction_on generalizing inner ml fuel m p with
  | h count ih =>
    obtain ⟨fuel, rfl⟩ : ∃ f, fuel = f + 1 := ⟨fuel - 1, by omega⟩
    obtain ⟨half, heven | hodd⟩ := Nat.even_or_odd' count
    · -- the lowest bit is free: the leaf is stored there
      subst heven
      have hbit : (2 * half + 1).testBit p.level = true := by simp [hlevel]
      have hclimb : climb hashPair inner ml (2 * half + 1) (fuel + 1) m p = (p, m) := by
        rw [climb, if_pos hbit]
      simp only [hclimb, hlevel]
      rw [stored_odd, update_self]
      have hrest : (fun i => Function.update inner 0 p.h (i + 1)) = fun i => inner (i + 1) :=
        funext fun i => update_of_ne (Nat.succ_ne_zero i) _ _
      rw [hrest]
      by_cases hhalf : half = 0
      · simp [hhalf, push, pushClash]
      · rw [stored_even hhalf, push, pushClash, Bool.or_false]
        exact ⟨rfl, rfl⟩
    · -- the lowest entry is taken: combine with it and carry on above
      subst hodd
      have hcount : 2 * half + 1 + 1 = 2 * (half + 1) := by ring
      have hbit : ¬ (2 * (half + 1)).testBit p.level = true := by simp [hlevel]
      simp only [climb, hcount, if_neg hbit]
      let q : Path := { combine hashPair inner ml p with level := 0 }
      obtain ⟨hup, hh, hflag⟩ := climb_double inner ml (half + 1) fuel
        (m || inner p.level == p.h) (combine hashPair inner ml p) q
        (by simp [combine, hlevel, q]) rfl
      have hrest := fun m' => @ih half (by omega) fuel (fun i => inner (i + 1)) ml m' q rfl
        (by omega)
      rw [hup, hh, hflag, (hrest _).2, stored_even (Nat.succ_ne_zero half), update_succ,
        (hrest _).1, stored_odd, push, pushClash]
      simp [combine, hlevel, q, Bool.or_assoc]

theorem skipZeros_double (count fuel level : ℕ) :
    skipZeros (2 * count) fuel (level + 1) = skipZeros count fuel level + 1 := by
  induction fuel generalizing level with
  | zero => rfl
  | succ fuel ih =>
    simp only [skipZeros, testBit_double_succ]
    split_ifs
    · rfl
    · exact ih (level + 1)

theorem sweep_double (inner : ℕ → uint256) (ml : Option ℕ) (count fuel : ℕ) (p q : Path)
    (hlevel : p.level = q.level + 1) (hh : p.h = q.h) :
    (sweep hashPair inner ml fuel (2 * count) p).h =
      (sweep hashPair (fun i => inner (i + 1)) ml fuel count q).h := by
  induction fuel generalizing count p q with
  | zero => exact hh
  | succ fuel ih =>
    simp only [sweep, hlevel, testBit_double_succ, two_mul_eq_two_pow_succ]
    split_ifs
    · exact hh
    · have hcount : 2 * count + 2 ^ (q.level + 1) = 2 * (count + 2 ^ q.level) := by ring
      rw [hcount]
      exact ih _ _ _ (by simp [double, hlevel]) (by simp [double, hh])
    · exact ih _ _ _ (by simp [combine, hlevel]) (by simp [combine, hlevel, hh])

theorem sweep_carry {p : Path} (hlevel : p.level = 0) (hfuel : count < fuel) :
    (sweep hashPair inner ml fuel (count + 1) p).h =
      carryUp hashPair p.h (stored count inner) := by
  induction count using Nat.strong_induction_on generalizing inner fuel p with
  | h count ih =>
    obtain ⟨fuel, rfl⟩ : ∃ f, fuel = f + 1 := ⟨fuel - 1, by omega⟩
    obtain ⟨half, heven | hodd⟩ := Nat.even_or_odd' count
    · subst heven
      have hbit : (2 * half + 1).testBit p.level = true := by simp [hlevel]
      by_cases hhalf : half = 0
      · simp [hhalf, sweep, hlevel, carryUp]
      · have hne : ¬ 2 * half + 1 = 2 ^ p.level := by simp [hlevel, hhalf]
        have hnext : 2 * half + 1 + 2 ^ p.level = 2 * (half + 1) := by
          rw [hlevel]
          ring
        rw [sweep, if_neg hne, if_pos hbit, hnext, stored_even hhalf, carryUp]
        let q : Path := { double hashPair p with level := 0 }
        rw [sweep_double inner ml (half + 1) fuel (double hashPair p) q
          (by simp [double, hlevel, q]) rfl, ih half (by omega) rfl (by omega)]
        rfl
    · subst hodd
      have hcount : 2 * half + 1 + 1 = 2 * (half + 1) := by ring
      have hbit : ¬ (2 * (half + 1)).testBit p.level = true := by simp [hlevel]
      have hne : ¬ 2 * (half + 1) = 2 ^ p.level := by
        rw [hlevel, pow_zero]
        omega
      rw [hcount, sweep, if_neg hne, if_neg hbit, stored_odd, carryUp]
      let q : Path := { combine hashPair inner ml p with level := 0 }
      rw [sweep_double inner ml (half + 1) fuel (combine hashPair inner ml p) q
        (by simp [combine, hlevel, q]) rfl, ih half (by omega) rfl (by omega)]
      simp [combine, hlevel, q]

theorem sweep_finish {count fuel fuel' : ℕ} {p : Path}
    (hpos : count ≠ 0) (hfuel : count ≤ fuel) (hfuel' : count ≤ fuel')
    (hlevel : p.level = skipZeros count fuel' 0) (hh : p.h = inner p.level) :
    some (sweep hashPair inner ml fuel count p).h =
      finish hashPair (stored count inner) := by
  induction count using Nat.strong_induction_on generalizing inner fuel fuel' p with
  | h count ih =>
    obtain ⟨fuel', rfl⟩ : ∃ f, fuel' = f + 1 := ⟨fuel' - 1, by omega⟩
    obtain ⟨half, heven | hodd⟩ := Nat.even_or_odd' count
    · subst heven
      have hhalf : half ≠ 0 := by omega
      have hskip : skipZeros (2 * half) (fuel' + 1) 0 = skipZeros half fuel' 0 + 1 := by
        rw [skipZeros, if_neg (by simp), skipZeros_double]
      rw [hskip] at hlevel
      let q : Path := { p with level := skipZeros half fuel' 0 }
      rw [stored_even hhalf, finish, sweep_double inner ml half fuel p q hlevel rfl]
      exact ih half (by omega) hhalf (by omega) (by omega) rfl (by rw [hh, hlevel])
    · subst hodd
      have hskip : skipZeros (2 * half + 1) (fuel' + 1) 0 = 0 := by
        rw [skipZeros, if_pos (by simp)]
      rw [hskip] at hlevel
      rw [hlevel] at hh
      rw [sweep_carry hlevel (by omega), stored_odd, hh]
      by_cases hhalf : half = 0
      · simp [hhalf, carryUp, finish]
      · obtain ⟨entry, rest, hstored⟩ :=
          List.exists_cons_of_ne_nil (stored_ne_nil hhalf fun level => inner (level + 1))
        rw [stored_even hhalf, carryUp, hstored, finish]
        simp

def State.entries (s : State) : List (Option uint256) := stored s.count s.inner

theorem entries_init : State.init.entries = counter hashPair [] := by
  simp [State.entries, State.init]

variable (branchpos : UInt32)

theorem entries_foldl {s : State} (hs : s.entries = counter hashPair seen) (leaves : List uint256) :
    (leaves.foldl (processLeaf hashPair branchpos) s).entries =
      counter hashPair (seen ++ leaves) := by
  induction leaves generalizing s seen with
  | nil => simpa using hs
  | cons leaf leaves ih =>
    have hstep : (processLeaf hashPair branchpos s leaf).entries =
        counter hashPair (seen ++ [leaf]) := by
      rw [← push_counter, ← hs]
      exact (stored_climb rfl (Nat.lt_succ_self _)).1
    simpa using ih hstep

theorem mutated_foldl {s : State} (hs : s.entries = counter hashPair seen)
    (hm : s.mutated = false ↔ MerkleTree.SiblingsDiffer hashPair seen) (leaves : List uint256) :
    (leaves.foldl (processLeaf hashPair branchpos) s).mutated = false ↔
      MerkleTree.SiblingsDiffer hashPair (seen ++ leaves) := by
  induction leaves generalizing s seen with
  | nil => simpa using hm
  | cons leaf leaves ih =>
    have hflag : (processLeaf hashPair branchpos s leaf).mutated =
        (s.mutated || pushClash hashPair leaf s.entries) :=
      (stored_climb rfl (Nat.lt_succ_self _)).2
    have hentries : (processLeaf hashPair branchpos s leaf).entries =
        counter hashPair (seen ++ [leaf]) := by
      simpa using entries_foldl branchpos hs [leaf]
    have hstep := ih hentries
      (by rw [hflag, Bool.or_eq_false_iff, hs, siblingsDiffer_append, hm])
    simpa using hstep

theorem merkleComputation_root (hne : leaves ≠ []) (branchpos : UInt32) :
    some (merkleComputation hashPair leaves branchpos).root =
      root hashPair leaves := by
  have hlast := entries_foldl branchpos (@entries_init hashPair) leaves
  rw [List.nil_append] at hlast
  have hpos : (leaves.foldl (processLeaf hashPair branchpos) State.init).count ≠ 0 := by
    intro hzero
    rw [State.entries, hzero, stored_zero, counter_of_ne_nil hashPair hne] at hlast
    exact List.cons_ne_nil _ _ hlast.symm
  rw [merkleComputation, if_neg (by simpa using hne), ← finish_counter, ← hlast]
  exact sweep_finish hpos (Nat.le_succ _) le_rfl rfl rfl

theorem computeMerkleRoot_root (hne : leaves ≠ []) :
    some (computeMerkleRoot hashPair leaves).1 = root hashPair leaves :=
  merkleComputation_root hne _

theorem computeMerkleRoot_mutated (hashPair : uint256 → uint256 → uint256) (leaves : List uint256) :
    (computeMerkleRoot hashPair leaves).2 = false ↔
      MerkleTree.SiblingsDiffer hashPair leaves := by
  cases leaves with
  | nil => exact iff_of_true rfl (siblingsDiffer_nil hashPair)
  | cons leaf leaves =>
    exact mutated_foldl 0xffffffff entries_init
      (iff_of_true rfl (siblingsDiffer_nil hashPair)) (leaf :: leaves)

end

end Merkle

end Coinyecoin
