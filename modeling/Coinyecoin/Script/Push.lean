import Coinyecoin.Foundation.ByteStream
import Coinyecoin.Primitives.Transaction

/-!
# Script numbers and pushes

`CScriptNum`: reading a number off a stack element, the arithmetic the interpreter does
with it and writing it. A number is 64 bits wide; elements of at most four bytes, or
five for lock times, are read. The pushes are the two `operator<<` of `CScript` that
the coinbase uses.
-/

namespace Coinyecoin

open Foundation

namespace CScript

def OP_1 : UInt8 := 0x51

def OP_PUSHDATA1 : UInt8 := 0x4c

def OP_PUSHDATA2 : UInt8 := 0x4d

def OP_PUSHDATA4 : UInt8 := 0x4e

/-- The bytes of `absvalue` up to its highest one that is not zero. The first
argument bounds their number. -/
def absBytes : ℕ → ℕ → Bytes
  | 0, _ => []
  | fuel + 1, absvalue =>
    if absvalue = 0 then []
    else UInt8.ofNat (absvalue % 256) :: absBytes fuel (absvalue / 256)

/-- The sign is the highest bit of the last byte, in a byte of its own if that
bit is taken. -/
def addSign (neg : Bool) (result : Bytes) : Bytes :=
  match result.getLast? with
  | none => []
  | some back =>
    if back &&& 0x80 ≠ 0 then result ++ [if neg then 0x80 else 0]
    else if neg then result.dropLast ++ [back ||| 0x80]
    else result

def serializeNum (value : Int64) : Bytes :=
  addSign (value.toInt < 0) (absBytes 8 value.toInt.natAbs)

def pushData (b : Bytes) : CScript :=
  if b.length < OP_PUSHDATA1.toNat then leBytes 1 b.length ++ b
  else if b.length ≤ 0xff then OP_PUSHDATA1 :: leBytes 1 b.length ++ b
  else if b.length ≤ 0xffff then OP_PUSHDATA2 :: leBytes 2 b.length ++ b
  else OP_PUSHDATA4 :: leBytes 4 b.length ++ b

def pushInt64 (n : Int64) : CScript :=
  if n = -1 ∨ (1 ≤ n ∧ n ≤ 16) then [UInt8.ofInt (n.toInt + (OP_1.toNat - 1))]
  else if n = 0 then [0]
  else pushData (serializeNum n)

theorem length_absBytes_le_of_lt {fuel k absvalue : ℕ} (h : absvalue < 256 ^ k) :
    (absBytes fuel absvalue).length ≤ k := by
  induction fuel generalizing k absvalue with
  | zero => simp [absBytes]
  | succ fuel ih =>
    rw [absBytes]
    split_ifs with hzero
    · simp
    · cases k with
      | zero => omega
      | succ k =>
        have hdiv : absvalue / 256 < 256 ^ k := by
          rw [pow_succ] at h
          omega
        simpa using ih hdiv

theorem length_addSign_le (neg : Bool) (result : Bytes) :
    (addSign neg result).length ≤ result.length + 1 := by
  unfold addSign
  split
  · simp
  · split_ifs <;> simp

theorem length_serializeNum_le {value : Int64} {k : ℕ} (h : value.toInt.natAbs < 256 ^ k) :
    (serializeNum value).length ≤ k + 1 :=
  (length_addSign_le _ _).trans (Nat.succ_le_succ (length_absBytes_le_of_lt h))

theorem pushData_of_short {b : Bytes} (hb : b.length < 76) :
    pushData b = UInt8.ofNat b.length :: b := by
  have hop : b.length < OP_PUSHDATA1.toNat := hb
  rw [pushData, if_pos hop, leBytes, leBytes, Nat.mod_eq_of_lt (by omega)]
  rfl

theorem length_pushInt64 {n : Int64} (hn : n.toInt.natAbs < 256 ^ 4) :
    1 ≤ (pushInt64 n).length ∧ (pushInt64 n).length ≤ 6 := by
  have hlen := length_serializeNum_le hn
  unfold pushInt64
  split_ifs
  · simp
  · simp
  · rw [pushData_of_short (by omega), List.length_cons]
    omega

end CScript

namespace CScriptNum

def nDefaultMaxNumSize : ℕ := 4

/-- The number is encoded with as few bytes as possible: the last byte has a bit besides the
sign, or is needed since the one before it has its highest bit set. -/
def isMinimal (vch : Bytes) : Bool :=
  match vch.getLast? with
  | none => true
  | some back =>
    back &&& 0x7f ≠ 0 || (vch.length > 1 && (vch.dropLast.getLastD 0) &&& 0x80 ≠ 0)

/-- `set_vch`, for the at most eight bytes that callers let through. -/
def setVch (vch : Bytes) : Int64 :=
  match vch.getLast? with
  | none => 0
  | some back =>
    if back &&& 0x80 ≠ 0 then Int64.ofInt (-(leNat vch - 0x80 * 256 ^ (vch.length - 1)))
    else Int64.ofInt (leNat vch)

def ofVch (vch : Bytes) (fRequireMinimal : Bool) (nMaxNumSize : ℕ) : Except Fault Int64 :=
  if vch.length > nMaxNumSize then .error (.thrown "script number overflow")
  else if fRequireMinimal && !isMinimal vch then
    .error (.thrown "non-minimally encoded script number")
  else .ok (setVch vch)

/-- `getint`: the number, or the end of the range of `int` it is beyond. -/
def getint (n : Int64) : ℤ := max (-2 ^ 31) (min (2 ^ 31 - 1) n.toInt)

def addAssign (n rhs : Int64) : Except Fault Int64 := do
  assertThat (rhs = 0 ∨ (rhs > 0 ∧ n.toInt ≤ 2 ^ 63 - 1 - rhs.toInt) ∨
    (rhs < 0 ∧ n.toInt ≥ -2 ^ 63 - rhs.toInt)) "rhs == 0 || ..."
  .ok (n + rhs)

def subAssign (n rhs : Int64) : Except Fault Int64 := do
  assertThat (rhs = 0 ∨ (rhs > 0 ∧ n.toInt ≥ -2 ^ 63 + rhs.toInt) ∨
    (rhs < 0 ∧ n.toInt ≤ 2 ^ 63 - 1 + rhs.toInt)) "rhs == 0 || ..."
  .ok (n - rhs)

def negate (n : Int64) : Except Fault Int64 := do
  assertThat (n.toInt ≠ -2 ^ 63) "m_value != std::numeric_limits<int64_t>::min()"
  .ok (-n)

def ofBool (b : Bool) : Int64 := if b then 1 else 0

end CScriptNum

end Coinyecoin
