import Coinyecoin.Basic.Fault
import Mathlib.Algebra.Order.Ring.Int

/-!
# Amounts

Amounts are 64-bit signed counts of the smallest unit. Sums of amounts are
written over `ℤ`, so that whether one of them leaves the 64-bit range is a
question about the model and not something it hides. Where the source may
compute one that does, `checkedInt64` stands for the computation; code of which
more than one reading is of interest takes an `AmountReading`.
-/

namespace Coinyecoin

variable {n v : ℤ}

def COIN : ℤ := 100000000

def MAX_MONEY : ℤ := 10000000000 * COIN

def moneyRange (nValue : ℤ) : Bool := 0 ≤ nValue && nValue ≤ MAX_MONEY

def FitsInt64 (n : ℤ) : Prop := -2 ^ 63 ≤ n ∧ n < 2 ^ 63

instance (n : ℤ) : Decidable (FitsInt64 n) := inferInstanceAs (Decidable (_ ∧ _))

/-- The result of 64-bit arithmetic, undefined outside the range. -/
def checkedInt64 (n : ℤ) : Except Fault ℤ :=
  if FitsInt64 n then .ok n else .error .signedOverflow

theorem checkedInt64_eq_ok : checkedInt64 n = .ok v ↔ FitsInt64 n ∧ v = n := by
  by_cases h : FitsInt64 n
  · simp [checkedInt64, h, eq_comm]
  · simp [checkedInt64, h]

inductive AmountReading where
  | int64
  | unbounded
deriving DecidableEq, Repr

namespace AmountReading

def value : AmountReading → ℤ → Except Fault ℤ
  | .int64, n => checkedInt64 n
  | .unbounded, n => .ok n

def Has : AmountReading → ℤ → Prop
  | .int64, n => FitsInt64 n
  | .unbounded, _ => True

instance (R : AmountReading) (n : ℤ) : Decidable (R.Has n) :=
  match R with
  | .int64 => inferInstanceAs (Decidable (FitsInt64 n))
  | .unbounded => inferInstanceAs (Decidable True)

variable {R : AmountReading}

theorem value_eq_ok : R.value n = .ok v ↔ R.Has n ∧ v = n := by
  cases R with
  | int64 => exact checkedInt64_eq_ok
  | unbounded => simp [value, Has, eq_comm]

theorem value_of_has (h : R.Has n) : R.value n = .ok n := value_eq_ok.2 ⟨h, rfl⟩

theorem Has.between {a b n : ℤ} (ha : R.Has a) (hb : R.Has b) (han : a ≤ n) (hnb : n ≤ b) :
    R.Has n := by
  cases R with
  | int64 =>
    unfold Has FitsInt64 at ha hb ⊢
    omega
  | unbounded => exact trivial

theorem has_zero (R : AmountReading) : R.Has 0 := by
  cases R with
  | int64 => exact ⟨by decide, by decide⟩
  | unbounded => exact trivial

end AmountReading

end Coinyecoin
