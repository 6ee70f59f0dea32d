import Coinyecoin.Arith.CompactWords
import Mathlib.Algebra.BigOperators.Group.List.Basic

/-!
# The work of a chain

`GetBlockProof` counts the hashes a target asks for, `2 ^ 256 / (target + 1)`. The
dividend does not fit `arith_uint256`, so it is computed through the complement of
the target. `AddToBlockIndex` adds the proofs of a chain up in `nChainWork`.
-/

namespace Coinyecoin

open Foundation BaseUint

/-- `operator~`. -/
def BaseUint.complement {WIDTH : ℕ} (a : BaseUint WIDTH) : BaseUint WIDTH :=
  ⟨a.pn.map fun p => ~~~p, (List.length_map _).trans a.length_pn⟩

def getBlockProof (nBits : UInt32) : Except Fault ArithWords :=
  let fNegative := (ArithUint256.setCompact nBits).2.1
  let fOverflow := (ArithUint256.setCompact nBits).2.2
  let bnTarget := setCompact nBits
  if fNegative || fOverflow || bnTarget == zero then .ok zero
  else do
    let quotient ← bnTarget.complement.div (bnTarget.add (ofUInt64 1))
    return quotient.add (ofUInt64 1)

/-- The assignment to `nChainWork` of a new entry on an entry with the work `nChainWork`. -/
def addChainWork (nChainWork : ArithWords) (nBits : UInt32) : Except Fault ArithWords := do
  let proof ← getBlockProof nBits
  return nChainWork.add proof

def chainWork (chain : List UInt32) : Except Fault ArithWords := chain.foldlM addChainWork zero

section

structure ValidTarget (nBits : UInt32) : Prop where
  flags : (ArithUint256.setCompact nBits).2 = (false, false)
  ne_zero : (setCompact nBits).toNat ≠ 0

def workOf (nBits : UInt32) : ℕ := 2 ^ 256 / ((setCompact nBits).toNat + 1)

variable {nBits : UInt32}

theorem setCompact_lt (nBits : UInt32) : (setCompact nBits).toNat + 1 < 2 ^ 256 := by
  have hlt := (setCompact nBits).toNat_lt
  have hne : (setCompact nBits).toNat ≠ 2 ^ 256 - 1 := by
    rw [toNat_setCompact, ArithUint256.setCompact]
    dsimp only
    split_ifs with hsmall
    · have hmantissa : nBits.toNat % 2 ^ 23 / 2 ^ (8 * (3 - nBits.toNat / 2 ^ 24)) < 2 ^ 23 :=
        (Nat.div_le_self _ _).trans_lt (Nat.mod_lt _ (by decide))
      rw [BitVec.toNat_ofNat, Nat.mod_eq_of_lt (hmantissa.trans (by decide))]
      exact (hmantissa.trans (by decide)).ne
    · obtain ⟨shift, hshift⟩ : ∃ shift, 8 * (nBits.toNat / 2 ^ 24 - 3) = shift + 1 :=
        ⟨8 * (nBits.toNat / 2 ^ 24 - 3) - 1, by omega⟩
      have heven : 2 ^ (shift + 1) = 2 * 2 ^ shift := Nat.pow_succ'
      rw [BitVec.toNat_shiftLeft, Nat.shiftLeft_eq, hshift, heven, Nat.mul_left_comm]
      generalize _ * 2 ^ shift = half
      omega
  omega

theorem toNat_complement (a : ArithWords) : a.complement.toNat = 2 ^ 256 - 1 - a.toNat := by
  have h := Limbs.value_map_not a.pn
  rwa [a.length_pn] at h

theorem getBlockProof_eq (h : ValidTarget nBits) :
    ∃ proof, getBlockProof nBits = .ok proof ∧ proof.toNat = workOf nBits := by
  have hlt := setCompact_lt nBits
  have hpos := h.ne_zero
  have hone : (ofUInt64 1 : ArithWords).toNat = 1 := rfl
  have hnonzero : (setCompact nBits == zero) = false := by
    refine beq_eq_false_iff_ne.2 fun heq => hpos ?_
    rw [heq, toNat_zero]
  have hdivisor : ((setCompact nBits).add (ofUInt64 1)).toNat = (setCompact nBits).toNat + 1 := by
    rw [toNat_add, hone]
    exact Nat.mod_eq_of_lt hlt
  obtain ⟨quotient, hquotient, hvalue⟩ :=
    exists_div (a := (setCompact nBits).complement)
      (b := (setCompact nBits).add (ofUInt64 1))
      (by rw [hdivisor]; exact Nat.succ_ne_zero _)
  rw [hdivisor, toNat_complement] at hvalue
  -- the dividend is the complement and one divisor more
  have hwork : workOf nBits = quotient.toNat + 1 := by
    rw [hvalue, workOf, ← Nat.add_div_right _ (Nat.succ_pos _)]
    congr 1
    omega
  have hhalf : workOf nBits ≤ 2 ^ 256 / 2 := Nat.div_le_div_left (by omega) (by decide)
  refine ⟨quotient.add (ofUInt64 1), ?_, ?_⟩
  · rw [getBlockProof, h.flags]
    dsimp only
    rw [hnonzero, if_neg (by decide), hquotient]
    rfl
  · rw [toNat_add, hone, ← hwork]
    exact Nat.mod_eq_of_lt (hhalf.trans_lt (by decide))

theorem one_le_workOf {nBits : UInt32} : 1 ≤ workOf nBits :=
  (Nat.one_le_div_iff (Nat.succ_pos _)).2 (setCompact_lt nBits).le

theorem chainWork_eq {chain : List UInt32} (hvalid : ∀ nBits ∈ chain, ValidTarget nBits)
    {work : ArithWords} (hfits : work.toNat + (chain.map workOf).sum < 2 ^ 256) :
    ∃ total, chain.foldlM addChainWork work = .ok total ∧
      total.toNat = work.toNat + (chain.map workOf).sum := by
  induction chain generalizing work with
  | nil => exact ⟨work, rfl, rfl⟩
  | cons nBits chain ih =>
    rw [List.map_cons, List.sum_cons] at hfits
    obtain ⟨proof, hproof, hvalue⟩ := getBlockProof_eq (hvalid nBits List.mem_cons_self)
    have hsum : (work.add proof).toNat = work.toNat + workOf nBits := by
      rw [toNat_add, hvalue]
      exact Nat.mod_eq_of_lt (show work.toNat + workOf nBits < 2 ^ 256 by omega)
    have hrest : (work.add proof).toNat + (chain.map workOf).sum < 2 ^ 256 := by
      rw [hsum]
      omega
    obtain ⟨total, htotal, hresult⟩ := ih (fun n hn => hvalid n (List.mem_cons_of_mem _ hn)) hrest
    refine ⟨total, ?_, by rw [hresult, hsum, List.map_cons, List.sum_cons, Nat.add_assoc]⟩
    rw [List.foldlM_cons, addChainWork, hproof]
    exact htotal

/-- The proof of a block is the number of hashes its target asks for, and `nChainWork` compares
chains by the sums of these numbers, as long as they fit. -/
theorem chainWork_compares :
    (∀ nBits, ValidTarget nBits →
      (∃ proof, getBlockProof nBits = .ok proof ∧
        proof.toNat = 2 ^ 256 / ((setCompact nBits).toNat + 1) ∧ 1 ≤ proof.toNat) ∧
      ∀ nBits' proof proof', ValidTarget nBits' → getBlockProof nBits = .ok proof →
        getBlockProof nBits' = .ok proof' → (setCompact nBits).toNat ≤ (setCompact nBits').toNat →
        proof'.toNat ≤ proof.toNat) ∧
    ∀ a b : List UInt32, (∀ nBits ∈ a, ValidTarget nBits) → (∀ nBits ∈ b, ValidTarget nBits) →
      (a.map workOf).sum < 2 ^ 256 → (b.map workOf).sum < 2 ^ 256 →
      ∃ workA workB, chainWork a = .ok workA ∧ chainWork b = .ok workB ∧
        workA.compareTo workB = compare (a.map workOf).sum (b.map workOf).sum := by
  refine ⟨fun nBits h => ⟨?_, ?_⟩, fun a b ha hb hfitsA hfitsB => ?_⟩
  · obtain ⟨proof, hproof, hvalue⟩ := getBlockProof_eq h
    exact ⟨proof, hproof, hvalue, hvalue ▸ one_le_workOf⟩
  · intro nBits' proof proof' h' hproof hproof' hle
    obtain ⟨_, hok, hvalue⟩ := getBlockProof_eq h
    obtain ⟨_, hok', hvalue'⟩ := getBlockProof_eq h'
    obtain rfl := Except.ok.inj (hok.symm.trans hproof)
    obtain rfl := Except.ok.inj (hok'.symm.trans hproof')
    rw [hvalue, hvalue']
    exact Nat.div_le_div_left (Nat.succ_le_succ hle) (Nat.succ_pos _)
  · have hstart : ∀ n, (zero : ArithWords).toNat + n = n := fun n => by rw [toNat_zero, Nat.zero_add]
    obtain ⟨workA, hworkA, hsumA⟩ := chainWork_eq ha
      (show (zero : ArithWords).toNat + _ < _ from (hstart _).symm ▸ hfitsA)
    obtain ⟨workB, hworkB, hsumB⟩ := chainWork_eq hb
      (show (zero : ArithWords).toNat + _ < _ from (hstart _).symm ▸ hfitsB)
    refine ⟨workA, workB, hworkA, hworkB, ?_⟩
    rw [compareTo_eq, hsumA, hsumB, hstart, hstart]

theorem validTarget_genesis : ValidTarget 0x1e0ffff0 := ⟨by decide +kernel, by decide +kernel⟩

theorem chainWork_compares_genesis :
    ∃ workA workB, chainWork [0x1e0ffff0, 0x1e0ffff0] = .ok workA ∧
      chainWork [0x1e0ffff0] = .ok workB ∧ workA.compareTo workB =
        compare ([0x1e0ffff0, 0x1e0ffff0].map workOf).sum ([0x1e0ffff0].map workOf).sum :=
  chainWork_compares.2 [0x1e0ffff0, 0x1e0ffff0] [0x1e0ffff0] (by simpa using validTarget_genesis)
    (by simpa using validTarget_genesis)
    (by decide +kernel) (by decide +kernel)

end

end Coinyecoin
