import Coinyecoin.Arith.CompactWords

/-!
# The share target

`ShareTargetForDiff` scales the target of difficulty one by `2 ^ 32` over a
divisor. The product would not fit 256 bits, so quotient and remainder are scaled
apart. The divisor is the difficulty of the client, rounded; how it is computed in
floating point is left out.
-/

namespace Coinyecoin

open Foundation BaseUint

namespace Stratum

def bnDiff1 : ArithWords := BaseUint.setCompact 0x1d00ffff

/-- `ShareTargetForDiff` from the divisor on. -/
def shareTarget (nDivisor : UInt64) : Except Fault ArithWords := do
  let bnDivisor : ArithWords := BaseUint.ofUInt64 nDivisor
  let bnQuot ← bnDiff1.div bnDivisor
  let bnRem := bnDiff1.sub (bnQuot.mul bnDivisor)
  let bnPart ← (bnRem.shiftLeft 32).div bnDivisor
  return (bnQuot.shiftLeft 32).add bnPart

theorem toNat_bnDiff1 : bnDiff1.toNat = 0xffff * 2 ^ 208 := by
  rw [bnDiff1, toNat_setCompact]
  decide

theorem scaled_div (n d k : ℕ) (hd : 0 < d) : n / d * k + n % d * k / d = n * k / d := by
  have hn : n * k = n % d * k + n / d * k * d := by
    conv_lhs => rw [← Nat.mod_add_div n d]
    ring
  rw [hn, Nat.add_mul_div_right _ _ hd, Nat.add_comm]

/-- No operation of the computation wraps. -/
structure NoWrap (nDivisor : UInt64) (bnQuot bnRem bnPart target : ArithWords) : Prop where
  quot : bnDiff1.div (BaseUint.ofUInt64 nDivisor) = .ok bnQuot
  product : (bnQuot.mul (BaseUint.ofUInt64 nDivisor)).toNat = bnQuot.toNat * nDivisor.toNat
  rem : bnRem = bnDiff1.sub (bnQuot.mul (BaseUint.ofUInt64 nDivisor)) ∧
    bnRem.toNat + bnQuot.toNat * nDivisor.toNat = bnDiff1.toNat
  quot_shift : (bnQuot.shiftLeft 32).toNat = bnQuot.toNat * 2 ^ 32
  rem_shift : (bnRem.shiftLeft 32).toNat = bnRem.toNat * 2 ^ 32
  part : (bnRem.shiftLeft 32).div (BaseUint.ofUInt64 nDivisor) = .ok bnPart
  sum : target = (bnQuot.shiftLeft 32).add bnPart ∧
    target.toNat = (bnQuot.shiftLeft 32).toNat + bnPart.toNat

theorem exists_noWrap {nDivisor : UInt64} (h : 1 ≤ nDivisor.toNat) :
    ∃ bnQuot bnRem bnPart target, NoWrap nDivisor bnQuot bnRem bnPart target ∧
      shareTarget nDivisor = .ok target ∧
      target.toNat = bnDiff1.toNat * 2 ^ 32 / nDivisor.toNat := by
  have hd : (ofUInt64 nDivisor : ArithWords).toNat = nDivisor.toNat :=
    toNat_ofUInt64 nDivisor
  have hne : (ofUInt64 nDivisor : ArithWords).toNat ≠ 0 := by omega
  have hlt : nDivisor.toNat < 2 ^ 64 := nDivisor.toNat_lt
  have hdiff := toNat_bnDiff1
  obtain ⟨bnQuot, hquot, hvalue⟩ := exists_div (a := bnDiff1) hne
  rw [hd] at hvalue
  have hle : bnQuot.toNat * nDivisor.toNat ≤ bnDiff1.toNat := by
    rw [hvalue]
    exact Nat.div_mul_le_self _ _
  have hproduct : (bnQuot.mul (ofUInt64 nDivisor)).toNat =
      bnQuot.toNat * nDivisor.toNat := by
    rw [toNat_mul, hd]
    exact Nat.mod_eq_of_lt (by omega)
  have hrem : (bnDiff1.sub (bnQuot.mul (ofUInt64 nDivisor))).toNat =
      bnDiff1.toNat % nDivisor.toNat := by
    rw [toNat_sub (by rw [hproduct]; exact hle), hproduct, hvalue]
    have := Nat.div_add_mod' bnDiff1.toNat nDivisor.toNat
    omega
  have hremLt : bnDiff1.toNat % nDivisor.toNat < nDivisor.toNat := Nat.mod_lt _ h
  have hquotShift : (bnQuot.shiftLeft 32).toNat = bnQuot.toNat * 2 ^ 32 := by
    rw [toNat_shiftLeft]
    refine Nat.mod_eq_of_lt (lt_of_le_of_lt (Nat.mul_le_mul_right _ ?_)
      (show bnDiff1.toNat * 2 ^ 32 < 2 ^ 256 by omega))
    rw [hvalue]
    exact Nat.div_le_self _ _
  have hremShift : ((bnDiff1.sub (bnQuot.mul (ofUInt64 nDivisor))).shiftLeft 32).toNat =
      (bnDiff1.sub (bnQuot.mul (ofUInt64 nDivisor))).toNat * 2 ^ 32 := by
    rw [toNat_shiftLeft]
    exact Nat.mod_eq_of_lt (by omega)
  obtain ⟨bnPart, hpart, hpartValue⟩ := exists_div
    (a := (bnDiff1.sub (bnQuot.mul (ofUInt64 nDivisor))).shiftLeft 32) hne
  rw [hremShift, hrem, hd] at hpartValue
  have hscaled := scaled_div bnDiff1.toNat nDivisor.toNat (2 ^ 32) h
  have hsum : ((bnQuot.shiftLeft 32).add bnPart).toNat =
      (bnQuot.shiftLeft 32).toNat + bnPart.toNat := by
    rw [toNat_add, hquotShift, hpartValue, hvalue, hscaled]
    refine Nat.mod_eq_of_lt (lt_of_le_of_lt (Nat.div_le_self _ _) (by omega))
  refine ⟨bnQuot, _, bnPart, _, ⟨hquot, hproduct, ⟨rfl, ?_⟩, hquotShift, hremShift, hpart,
    ⟨rfl, hsum⟩⟩, ?_, ?_⟩
  · rw [hrem, hvalue]
    exact Nat.mod_add_div' _ _
  · rw [shareTarget, hquot, ok_bind]
    dsimp only
    rw [hpart]
    rfl
  · rw [hsum, hquotShift, hpartValue, hvalue, hscaled]

/-- For every divisor the target is the scaled quotient, computed without a wrap; it is not zero,
and it does not grow with the divisor. -/
theorem shareTarget_exact (nDivisor : UInt64) (h : 1 ≤ nDivisor.toNat) :
    ∃ bnQuot bnRem bnPart target, NoWrap nDivisor bnQuot bnRem bnPart target ∧
      shareTarget nDivisor = .ok target ∧
      target.toNat = bnDiff1.toNat * 2 ^ 32 / nDivisor.toNat ∧ target.toNat ≠ 0 ∧
      ∀ nDivisor' : UInt64, nDivisor.toNat ≤ nDivisor'.toNat →
        ∃ target', shareTarget nDivisor' = .ok target' ∧ target'.toNat ≤ target.toNat := by
  obtain ⟨bnQuot, bnRem, bnPart, target, hexact, hrun, hvalue⟩ := exists_noWrap h
  refine ⟨bnQuot, bnRem, bnPart, target, hexact, hrun, hvalue, ?_, fun nDivisor' hle => ?_⟩
  · have hlt : nDivisor.toNat < 2 ^ 64 := nDivisor.toNat_lt
    have hdiff := toNat_bnDiff1
    have hpos : 0 < target.toNat := by
      rw [hvalue]
      exact Nat.div_pos (by omega) h
    exact hpos.ne'
  · obtain ⟨-, -, -, target', -, hrun', hvalue'⟩ := exists_noWrap (h.trans hle)
    refine ⟨target', hrun', ?_⟩
    rw [hvalue, hvalue']
    exact Nat.div_le_div_left hle h

theorem shareTarget_exact_thousand :
    ∃ bnQuot bnRem bnPart target, NoWrap 1000 bnQuot bnRem bnPart target ∧
      shareTarget 1000 = .ok target ∧
      target.toNat = bnDiff1.toNat * 2 ^ 32 / 1000 ∧ target.toNat ≠ 0 ∧
      ∀ nDivisor' : UInt64, 1000 ≤ nDivisor'.toNat →
        ∃ target', shareTarget nDivisor' = .ok target' ∧ target'.toNat ≤ target.toNat :=
  shareTarget_exact 1000 (by decide)

end Stratum

end Coinyecoin
