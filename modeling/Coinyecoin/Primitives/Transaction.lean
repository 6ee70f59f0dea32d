import Coinyecoin.Basic.Amount
import Coinyecoin.Consensus.Params

/-!
# Transactions

`COutPoint`, `CTxIn`, `CTxOut` and `CTransaction`. A script is its bytes, and a
hash of a transaction is not part of its record: the source computes it once
and caches it, here it is a function applied where the source reads it.
-/

namespace Coinyecoin

abbrev CScript := List UInt8

namespace CScript

def OP_RETURN : UInt8 := 0x6a

def MAX_SCRIPT_SIZE : ℕ := 10000

def isUnspendable (script : CScript) : Bool :=
  script.head? == some OP_RETURN || MAX_SCRIPT_SIZE < script.length

end CScript

structure COutPoint where
  hash : uint256
  n : UInt32
deriving DecidableEq, Repr

def COutPoint.isNull (out : COutPoint) : Bool := out.hash == 0 && out.n == 0xffffffff

structure CTxIn where
  prevout : COutPoint
  scriptSig : CScript
  nSequence : UInt32
  scriptWitness : List (List UInt8)
deriving DecidableEq, Repr

structure CTxOut where
  nValue : Int64
  scriptPubKey : CScript
deriving DecidableEq, Repr

namespace CTxOut

/-- The value of the default constructor, and what `SetNull` leaves. -/
def null : CTxOut := ⟨-1, []⟩

def isNull (txout : CTxOut) : Bool := txout.nValue == -1

@[simp] theorem isNull_null : null.isNull = true := by decide

end CTxOut

structure CTransaction where
  nVersion : Int32
  vin : List CTxIn
  vout : List CTxOut
  nLockTime : UInt32
deriving DecidableEq, Repr

namespace CTransaction

def isCoinBase (tx : CTransaction) : Bool :=
  match tx.vin with
  | [txin] => txin.prevout.isNull
  | _ => false

def getValueOut (tx : CTransaction) : Except Fault ℤ :=
  tx.vout.foldlM (fun nValueOut txout => do
    let nValueOut := nValueOut + txout.nValue.toInt
    if !moneyRange txout.nValue.toInt || !moneyRange nValueOut then
      throw (.thrown "GetValueOut: value out of range")
    return nValueOut) 0

end CTransaction

end Coinyecoin
