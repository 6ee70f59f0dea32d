import Coinyecoin.Foundation.Computation
import Mathlib.Data.Int.Notation

/-!
# Faults

What the source can run into instead of returning: undefined behaviour, a
failed `assert` or an exception. A function that may do so is modelled in
`Except Fault`, so that "it never faults" is a statement about its value.
-/

namespace Coinyecoin

variable {cond : Prop} {b : ℤ} {n : ℕ}

/-- The ways a modelled function can fail to return. -/
inductive Fault where
  | divisionByZero
  | shiftTooWide
  | indexOutOfRange
  | nullDereference
  | danglingPointer
  | readPastEnd
  | signedOverflow
  | assertFailed (expr : String)
  | thrown (msg : String)
deriving DecidableEq, Repr

/-- How a function with a loop on fuel can stop short. -/
inductive Stop where
  | fault (f : Fault)
  | outOfFuel
deriving DecidableEq, Repr

def orStop {α : Type} (x : Except Fault α) : Except Stop α := x.mapError .fault

theorem mapError_eq_ok {ε ε' α : Type} {x : Except ε α} {f : ε → ε'} {a : α} :
    x.mapError f = .ok a ↔ x = .ok a := by
  cases x with
  | error e => simp [Except.mapError]
  | ok b => simp [Except.mapError]

theorem orStop_eq_ok {α : Type} {x : Except Fault α} {a : α} : orStop x = .ok a ↔ x = .ok a :=
  mapError_eq_ok

def assertThat (cond : Prop) [Decidable cond] (expr : String) : Except Fault Unit :=
  if cond then .ok () else .error (.assertFailed expr)

@[simp] theorem assertThat_of_true [Decidable cond] (h : cond)
    (expr : String) : assertThat cond expr = .ok () := by
  simp [assertThat, h]

theorem assertThat_eq_ok [Decidable cond] {expr : String} {u : Unit} :
    assertThat cond expr = .ok u ↔ cond := by
  by_cases h : cond
  · simp [assertThat, h]
  · simp [assertThat, h]

/-- Integer division of the source: truncating, undefined at zero. -/
def checkedDiv (a b : ℤ) : Except Fault ℤ :=
  if b = 0 then .error .divisionByZero else .ok (a.tdiv b)

/-- Integer remainder of the source: the sign of the dividend, undefined at
zero. -/
def checkedMod (a b : ℤ) : Except Fault ℤ :=
  if b = 0 then .error .divisionByZero else .ok (a.tmod b)

theorem checkedDiv_of_ne_zero (hb : b ≠ 0) (a : ℤ) : checkedDiv a b = .ok (a.tdiv b) := by
  simp [checkedDiv, hb]

theorem checkedMod_of_ne_zero (hb : b ≠ 0) (a : ℤ) : checkedMod a b = .ok (a.tmod b) := by
  simp [checkedMod, hb]

section

variable {α : Type}

def vectorAt (v : List α) (n : ℕ) : Except Fault α :=
  match v[n]? with
  | some a => .ok a
  | none => .error .indexOutOfRange

def vectorSet (v : List α) (n : ℕ) (a : α) : Except Fault (List α) :=
  if n < v.length then .ok (v.set n a) else .error .indexOutOfRange

theorem vectorAt_eq_ok {v : List α} {a : α} : vectorAt v n = .ok a ↔ v[n]? = some a := by
  cases h : v[n]? with
  | none => simp [vectorAt, h]
  | some b => simp [vectorAt, h]

theorem vectorSet_of_lt {v : List α} (h : n < v.length) (a : α) :
    vectorSet v n a = .ok (v.set n a) := by
  simp [vectorSet, h]

end

end Coinyecoin
