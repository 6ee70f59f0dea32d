import Coinyecoin.Foundation.Restriction
import Coinyecoin.Script.SigOps

/-!
# The script interpreter

`EvalScript` of `script/interpreter.cpp` with all its operations. A stack is a
list with its top first, so that `stacktop(-i)` is the element at `i - 1`. Reads
beyond a stack throw, as `at` and `popstack` do in the source, and what is
thrown is caught by `EvalScript`; operations the source leaves undefined are
faults that are not caught. The hash functions and the signature checker are
parameters. Beside the result, the number of calls of `CheckSig` is kept.

`VerifyWitnessProgram` and `VerifyScript` follow, with the flags of the memory pool and
those of a block.
-/

namespace Coinyecoin

open Foundation

inductive ScriptError
  | UNKNOWN_ERROR | EVAL_FALSE | OP_RETURN
  | SCRIPT_SIZE | PUSH_SIZE | OP_COUNT | STACK_SIZE | SIG_COUNT | PUBKEY_COUNT
  | VERIFY | EQUALVERIFY | CHECKMULTISIGVERIFY | CHECKSIGVERIFY | NUMEQUALVERIFY
  | BAD_OPCODE | DISABLED_OPCODE | INVALID_STACK_OPERATION | INVALID_ALTSTACK_OPERATION
  | UNBALANCED_CONDITIONAL
  | NEGATIVE_LOCKTIME | UNSATISFIED_LOCKTIME
  | SIG_HASHTYPE | SIG_DER | MINIMALDATA | SIG_PUSHONLY | SIG_HIGH_S | SIG_NULLDUMMY
  | PUBKEYTYPE | CLEANSTACK | MINIMALIF | SIG_NULLFAIL
  | DISCOURAGE_UPGRADABLE_NOPS | DISCOURAGE_UPGRADABLE_WITNESS_PROGRAM
  | WITNESS_PROGRAM_WRONG_LENGTH | WITNESS_PROGRAM_WITNESS_EMPTY | WITNESS_PROGRAM_MISMATCH
  | WITNESS_MALLEATED | WITNESS_MALLEATED_P2SH | WITNESS_UNEXPECTED | WITNESS_PUBKEYTYPE
deriving DecidableEq, Repr

def flagBit (n : UInt32) : UInt32 := 1 <<< n

def SCRIPT_VERIFY_P2SH : UInt32 := flagBit 0
def SCRIPT_VERIFY_STRICTENC : UInt32 := flagBit 1
def SCRIPT_VERIFY_DERSIG : UInt32 := flagBit 2
def SCRIPT_VERIFY_LOW_S : UInt32 := flagBit 3
def SCRIPT_VERIFY_NULLDUMMY : UInt32 := flagBit 4
def SCRIPT_VERIFY_SIGPUSHONLY : UInt32 := flagBit 5
def SCRIPT_VERIFY_MINIMALDATA : UInt32 := flagBit 6
def SCRIPT_VERIFY_DISCOURAGE_UPGRADABLE_NOPS : UInt32 := flagBit 7
def SCRIPT_VERIFY_CLEANSTACK : UInt32 := flagBit 8
def SCRIPT_VERIFY_CHECKLOCKTIMEVERIFY : UInt32 := flagBit 9
def SCRIPT_VERIFY_CHECKSEQUENCEVERIFY : UInt32 := flagBit 10
def SCRIPT_VERIFY_WITNESS : UInt32 := flagBit 11
def SCRIPT_VERIFY_DISCOURAGE_UPGRADABLE_WITNESS_PROGRAM : UInt32 := flagBit 12
def SCRIPT_VERIFY_MINIMALIF : UInt32 := flagBit 13
def SCRIPT_VERIFY_NULLFAIL : UInt32 := flagBit 14
def SCRIPT_VERIFY_WITNESS_PUBKEYTYPE : UInt32 := flagBit 15

def Flagged (flags mask : UInt32) : Prop := flags &&& mask ≠ 0

instance (flags mask : UInt32) : Decidable (Flagged flags mask) :=
  inferInstanceAs (Decidable (flags &&& mask ≠ 0))

namespace Script

def MAX_SCRIPT_ELEMENT_SIZE : ℕ := 520
def MAX_OPS_PER_SCRIPT : ℕ := 201
def MAX_SCRIPT_SIZE : ℕ := 10000
def MAX_STACK_SIZE : ℕ := 1000

inductive SigVersion
  | SIGVERSION_BASE | SIGVERSION_WITNESS_V0
deriving DecidableEq, Repr

/-- The hash functions, with the lengths of what they return, and the test of a signature for a
low `S`. -/
structure Crypto where
  hash : HashOp → Bytes → Bytes
  length_hash : ∀ op b, (hash op b).length =
    if op = .OP_RIPEMD160 ∨ op = .OP_SHA1 ∨ op = .OP_HASH160 then 20 else 32
  checkLowS : Bytes → Bool

structure BaseSignatureChecker where
  checkSig : Bytes → Bytes → CScript → SigVersion → Bool
  checkLockTime : Int64 → Bool
  checkSequence : Int64 → Bool

/-- How a script stops: with an error, or with something the source does not report as one. The
last case is that of a loop that was given too few rounds. -/
inductive Halt
  | failed (serror : ScriptError)
  | fault (f : Fault)
  | outOfFuel
deriving DecidableEq, Repr

/-- The state is the number of calls of `CheckSig`. -/
abbrev Eval := Stateful Halt ℕ

def require (p : Prop) [Decidable p] (serror : ScriptError) : Except Halt Unit :=
  if p then .ok () else .error (.failed serror)

def orFault {α : Type} (x : Except Fault α) : Except Halt α := x.mapError .fault

def withFlag (flags mask : UInt32) (check : Except Halt Unit) : Except Halt Unit :=
  if Flagged flags mask then check else .ok ()

def castToBool : Bytes → Bool
  | [] => false
  | [b] => b ≠ 0 && b ≠ 0x80
  | b :: vch => b ≠ 0 || castToBool vch

def isCompressedOrUncompressedPubKey (vchPubKey : Bytes) : Bool :=
  vchPubKey.length ≥ 33 &&
    ((vchPubKey.head? = some 0x04 && vchPubKey.length = 65) ||
      ((vchPubKey.head? = some 0x02 || vchPubKey.head? = some 0x03) && vchPubKey.length = 33))

def isCompressedPubKey (vchPubKey : Bytes) : Bool :=
  vchPubKey.length = 33 && (vchPubKey.head? = some 0x02 || vchPubKey.head? = some 0x03)

/-- The tests of `IsValidSignatureEncoding` on one of the two integers, whose length is at
`start + 1`. -/
def isValidInteger (sig : Bytes) (start len : ℕ) : Except Fault Bool := do
  let tag ← vectorAt sig start
  if tag ≠ 0x02 then .ok false
  else if len = 0 then .ok false
  else do
    let first ← vectorAt sig (start + 2)
    if first &&& 0x80 ≠ 0 then .ok false
    else if len > 1 ∧ first = 0x00 then do
      let second ← vectorAt sig (start + 3)
      .ok (second &&& 0x80 ≠ 0)
    else .ok true

def isValidSignatureEncoding (sig : Bytes) : Except Fault Bool :=
  if sig.length < 9 then .ok false
  else if sig.length > 73 then .ok false
  else do
    let compound ← vectorAt sig 0
    if compound ≠ 0x30 then .ok false
    else do
      let total ← vectorAt sig 1
      if total.toNat ≠ sig.length - 3 then .ok false
      else do
        let lenR ← vectorAt sig 3
        if 5 + lenR.toNat ≥ sig.length then .ok false
        else do
          let lenS ← vectorAt sig (5 + lenR.toNat)
          if lenR.toNat + lenS.toNat + 7 ≠ sig.length then .ok false
          else do
            let validR ← isValidInteger sig 2 lenR.toNat
            if !validR then .ok false else isValidInteger sig (lenR.toNat + 4) lenS.toNat

def isDefinedHashtypeSignature (vchSig : Bytes) : Bool :=
  match vchSig.getLast? with
  | none => false
  | some back => 1 ≤ back &&& ~~~0x80 && back &&& ~~~0x80 ≤ 3

def checkMinimalPush (data : Bytes) (opcode : UInt8) : Bool :=
  match data with
  | [] => opcode = 0
  | [b] =>
    if 1 ≤ b ∧ b ≤ 16 then opcode = 0x51 + (b - 1)
    else if b = 0x81 then opcode = 0x4f
    else opcode = 1
  | _ =>
    if data.length ≤ 75 then opcode.toNat = data.length
    else if data.length ≤ 255 then opcode = CScript.OP_PUSHDATA1
    else if data.length ≤ 65535 then opcode = CScript.OP_PUSHDATA2
    else true

section

variable (crypto : Crypto) (flags : UInt32)

def requireDER (vchSig : Bytes) : Except Halt Unit := do
  let valid ← orFault (isValidSignatureEncoding vchSig)
  require (valid = true) .SIG_DER

def isLowDERSignature (vchSig : Bytes) : Except Halt Unit := do
  requireDER vchSig
  require (crypto.checkLowS vchSig.dropLast = true) .SIG_HIGH_S

def checkSignatureEncoding (vchSig : Bytes) : Except Halt Unit :=
  if vchSig.length = 0 then .ok ()
  else do
    withFlag flags (SCRIPT_VERIFY_DERSIG ||| SCRIPT_VERIFY_LOW_S ||| SCRIPT_VERIFY_STRICTENC)
      (requireDER vchSig)
    withFlag flags SCRIPT_VERIFY_LOW_S (isLowDERSignature crypto vchSig)
    withFlag flags SCRIPT_VERIFY_STRICTENC
      (require (isDefinedHashtypeSignature vchSig = true) .SIG_HASHTYPE)

def checkPubKeyEncoding (sigversion : SigVersion) (vchPubKey : Bytes) : Except Halt Unit := do
  withFlag flags SCRIPT_VERIFY_STRICTENC
    (require (isCompressedOrUncompressedPubKey vchPubKey = true) .PUBKEYTYPE)
  withFlag flags SCRIPT_VERIFY_WITNESS_PUBKEYTYPE
    (require (sigversion = .SIGVERSION_WITNESS_V0 → isCompressedPubKey vchPubKey = true)
      .WITNESS_PUBKEYTYPE)

def scriptNum (vch : Bytes) (nMaxNumSize : ℕ) : Except Halt Int64 :=
  orFault (CScriptNum.ofVch vch (Flagged flags SCRIPT_VERIFY_MINIMALDATA) nMaxNumSize)

end

/-- The top is the first element. -/
abbrev Stack := List Bytes

def vchFalse : Bytes := []
def vchTrue : Bytes := [1]

def boolValue (b : Bool) : Bytes := if b then vchTrue else vchFalse

/-- `stacktop(-i)`. -/
def stacktop (stack : Stack) (i : ℕ) : Except Halt Bytes :=
  match stack[i - 1]? with
  | some vch => .ok vch
  | none => .error (.fault (.thrown "vector::_M_range_check"))

def popstack : Stack → Except Halt Stack
  | [] => .error (.fault (.thrown "popstack(): stack empty"))
  | _ :: stack => .ok stack

/-- `stack.erase(stack.end()-i)`. -/
def eraseTop (stack : Stack) (i : ℕ) : Except Halt Stack :=
  if 1 ≤ i ∧ i ≤ stack.length then .ok (stack.eraseIdx (i - 1))
  else .error (.fault .indexOutOfRange)

/-- `swap(stacktop(-i), stacktop(-j))`. -/
def swapTop (stack : Stack) (i j : ℕ) : Except Halt Stack := do
  let vchI ← stacktop stack i
  let vchJ ← stacktop stack j
  .ok ((stack.set (i - 1) vchJ).set (j - 1) vchI)

/-- `if (stack.size() < n) return set_error(..)`. -/
def requireSize (stack : Stack) (n : ℕ) : Except Halt Unit :=
  require (n ≤ stack.length) .INVALID_STACK_OPERATION

/-- The variables of `EvalScript`. The innermost condition is the first of `vfExec`;
`codehash` is the script from `pbegincodehash` on. -/
structure EvalState where
  stack : Stack
  altstack : Stack
  vfExec : List Bool
  nOpCount : ℕ
  codehash : CScript
deriving DecidableEq, Repr

def EvalState.push (st : EvalState) (vch : Bytes) : EvalState := { st with stack := vch :: st.stack }

section

def execStackOp (op : StackOp) (st : EvalState) : Except Halt EvalState :=
  match op with
  | .OP_TOALTSTACK => do
    requireSize st.stack 1
    let vch ← stacktop st.stack 1
    let stack ← popstack st.stack
    .ok { st with stack, altstack := vch :: st.altstack }
  | .OP_FROMALTSTACK => do
    require (1 ≤ st.altstack.length) .INVALID_ALTSTACK_OPERATION
    let vch ← stacktop st.altstack 1
    let altstack ← popstack st.altstack
    .ok { st with stack := vch :: st.stack, altstack }
  | .OP_2DROP => do
    requireSize st.stack 2
    let stack ← popstack st.stack
    let stack ← popstack stack
    .ok { st with stack }
  | .OP_2DUP => do
    requireSize st.stack 2
    let vch1 ← stacktop st.stack 2
    let vch2 ← stacktop st.stack 1
    .ok ((st.push vch1).push vch2)
  | .OP_3DUP => do
    requireSize st.stack 3
    let vch1 ← stacktop st.stack 3
    let vch2 ← stacktop st.stack 2
    let vch3 ← stacktop st.stack 1
    .ok (((st.push vch1).push vch2).push vch3)
  | .OP_2OVER => do
    requireSize st.stack 4
    let vch1 ← stacktop st.stack 4
    let vch2 ← stacktop st.stack 3
    .ok ((st.push vch1).push vch2)
  | .OP_2ROT => do
    requireSize st.stack 6
    let vch1 ← stacktop st.stack 6
    let vch2 ← stacktop st.stack 5
    let stack ← eraseTop st.stack 6
    let stack ← eraseTop stack 5
    .ok (({ st with stack }.push vch1).push vch2)
  | .OP_2SWAP => do
    requireSize st.stack 4
    let stack ← swapTop st.stack 4 2
    let stack ← swapTop stack 3 1
    .ok { st with stack }
  | .OP_IFDUP => do
    requireSize st.stack 1
    let vch ← stacktop st.stack 1
    .ok (if castToBool vch then st.push vch else st)
  | .OP_DEPTH => .ok (st.push (CScript.serializeNum (Int64.ofNat st.stack.length)))
  | .OP_DROP => do
    requireSize st.stack 1
    let stack ← popstack st.stack
    .ok { st with stack }
  | .OP_DUP => do
    requireSize st.stack 1
    let vch ← stacktop st.stack 1
    .ok (st.push vch)
  | .OP_NIP => do
    requireSize st.stack 2
    let stack ← eraseTop st.stack 2
    .ok { st with stack }
  | .OP_OVER => do
    requireSize st.stack 2
    let vch ← stacktop st.stack 2
    .ok (st.push vch)
  | .OP_ROT => do
    requireSize st.stack 3
    let stack ← swapTop st.stack 3 2
    let stack ← swapTop stack 2 1
    .ok { st with stack }
  | .OP_SWAP => do
    requireSize st.stack 2
    let stack ← swapTop st.stack 2 1
    .ok { st with stack }
  | .OP_TUCK => do
    requireSize st.stack 2
    let vch ← stacktop st.stack 1
    .ok { st with stack := st.stack.take 2 ++ vch :: st.stack.drop 2 }
  | .OP_SIZE => do
    requireSize st.stack 1
    let vch ← stacktop st.stack 1
    .ok (st.push (CScript.serializeNum (Int64.ofNat vch.length)))

def execEqual (verify : Bool) (st : EvalState) : Except Halt EvalState := do
  requireSize st.stack 2
  let vch1 ← stacktop st.stack 2
  let vch2 ← stacktop st.stack 1
  let fEqual := vch1 = vch2
  let stack ← popstack st.stack
  let stack ← popstack stack
  let st := { st with stack }.push (boolValue fEqual)
  if verify then do
    require fEqual .EQUALVERIFY
    let stack ← popstack st.stack
    .ok { st with stack }
  else .ok st

def execVerify (st : EvalState) : Except Halt EvalState := do
  requireSize st.stack 1
  let vch ← stacktop st.stack 1
  require (castToBool vch = true) .VERIFY
  let stack ← popstack st.stack
  .ok { st with stack }

def execElse (st : EvalState) : Except Halt EvalState :=
  match st.vfExec with
  | [] => .error (.failed .UNBALANCED_CONDITIONAL)
  | fValue :: vfExec => .ok { st with vfExec := (!fValue) :: vfExec }

def execEndIf (st : EvalState) : Except Halt EvalState :=
  match st.vfExec with
  | [] => .error (.failed .UNBALANCED_CONDITIONAL)
  | _ :: vfExec => .ok { st with vfExec }

def execHash (crypto : Crypto) (op : HashOp) (st : EvalState) : Except Halt EvalState := do
  requireSize st.stack 1
  let vch ← stacktop st.stack 1
  let stack ← popstack st.stack
  .ok ({ st with stack }.push (crypto.hash op vch))

def unaryValue (op : UnaryOp) (bn : Int64) : Except Fault Int64 :=
  match op with
  | .OP_1ADD => CScriptNum.addAssign bn 1
  | .OP_1SUB => CScriptNum.subAssign bn 1
  | .OP_NEGATE => CScriptNum.negate bn
  | .OP_ABS => if bn < 0 then CScriptNum.negate bn else .ok bn
  | .OP_NOT => .ok (CScriptNum.ofBool (bn = 0))
  | .OP_0NOTEQUAL => .ok (CScriptNum.ofBool (bn ≠ 0))

def binaryValue (op : BinaryOp) (bn1 bn2 : Int64) : Int64 :=
  match op with
  | .OP_ADD => bn1 + bn2
  | .OP_SUB => bn1 - bn2
  | .OP_BOOLAND => CScriptNum.ofBool (bn1 ≠ 0 ∧ bn2 ≠ 0)
  | .OP_BOOLOR => CScriptNum.ofBool (bn1 ≠ 0 ∨ bn2 ≠ 0)
  | .OP_NUMEQUAL => CScriptNum.ofBool (bn1 = bn2)
  | .OP_NUMEQUALVERIFY => CScriptNum.ofBool (bn1 = bn2)
  | .OP_NUMNOTEQUAL => CScriptNum.ofBool (bn1 ≠ bn2)
  | .OP_LESSTHAN => CScriptNum.ofBool (bn1 < bn2)
  | .OP_GREATERTHAN => CScriptNum.ofBool (bn1 > bn2)
  | .OP_LESSTHANOREQUAL => CScriptNum.ofBool (bn1 ≤ bn2)
  | .OP_GREATERTHANOREQUAL => CScriptNum.ofBool (bn1 ≥ bn2)
  | .OP_MIN => if bn1 < bn2 then bn1 else bn2
  | .OP_MAX => if bn1 > bn2 then bn1 else bn2

variable (flags : UInt32)

def execUnary (op : UnaryOp) (st : EvalState) : Except Halt EvalState := do
  requireSize st.stack 1
  let vch ← stacktop st.stack 1
  let bn ← scriptNum flags vch CScriptNum.nDefaultMaxNumSize
  let bn ← orFault (unaryValue op bn)
  let stack ← popstack st.stack
  .ok ({ st with stack }.push (CScript.serializeNum bn))

def finishBinary (op : BinaryOp) (bn : Int64) (st : EvalState) : Except Halt EvalState := do
  let stack ← popstack st.stack
  let stack ← popstack stack
  let st := { st with stack }.push (CScript.serializeNum bn)
  if op = .OP_NUMEQUALVERIFY then do
    let vch ← stacktop st.stack 1
    require (castToBool vch = true) .NUMEQUALVERIFY
    let stack ← popstack st.stack
    .ok { st with stack }
  else .ok st

def execBinary (op : BinaryOp) (st : EvalState) : Except Halt EvalState := do
  requireSize st.stack 2
  let vch1 ← stacktop st.stack 2
  let bn1 ← scriptNum flags vch1 CScriptNum.nDefaultMaxNumSize
  let vch2 ← stacktop st.stack 1
  let bn2 ← scriptNum flags vch2 CScriptNum.nDefaultMaxNumSize
  finishBinary op (binaryValue op bn1 bn2) st

def execWithin (st : EvalState) : Except Halt EvalState := do
  requireSize st.stack 3
  let vch1 ← stacktop st.stack 3
  let bn1 ← scriptNum flags vch1 CScriptNum.nDefaultMaxNumSize
  let vch2 ← stacktop st.stack 2
  let bn2 ← scriptNum flags vch2 CScriptNum.nDefaultMaxNumSize
  let vch3 ← stacktop st.stack 1
  let bn3 ← scriptNum flags vch3 CScriptNum.nDefaultMaxNumSize
  let stack ← popstack st.stack
  let stack ← popstack stack
  let stack ← popstack stack
  .ok ({ st with stack }.push (boolValue (bn2 ≤ bn1 ∧ bn1 < bn3)))

/-- `OP_ROLL` takes the element away, `OP_PICK` leaves it. -/
def takePicked (roll : Bool) (stack : Stack) (i : ℕ) : Except Halt Stack :=
  if roll then eraseTop stack i else .ok stack

def finishPick (roll : Bool) (n : ℤ) (st : EvalState) : Except Halt EvalState := do
  let stack ← popstack st.stack
  require (¬ (n < 0 ∨ n ≥ stack.length)) .INVALID_STACK_OPERATION
  let vch ← stacktop stack (n.toNat + 1)
  let stack ← takePicked roll stack (n.toNat + 1)
  .ok ({ st with stack }.push vch)

def execPick (roll : Bool) (st : EvalState) : Except Halt EvalState := do
  requireSize st.stack 2
  let vch ← stacktop st.stack 1
  let bn ← scriptNum flags vch CScriptNum.nDefaultMaxNumSize
  finishPick roll (CScriptNum.getint bn) st

def execUpgradableNop (st : EvalState) : Except Halt EvalState := do
  withFlag flags SCRIPT_VERIFY_DISCOURAGE_UPGRADABLE_NOPS
    (.error (.failed .DISCOURAGE_UPGRADABLE_NOPS))
  .ok st

/-- An operation that was a no-op before a flag gave it its checks. -/
def execFormerNop (mask : UInt32) (check : Except Halt Unit) (st : EvalState) :
    Except Halt EvalState :=
  if Flagged flags mask then do
    check
    .ok st
  else execUpgradableNop flags st

def lockTimeOperand (st : EvalState) : Except Halt Int64 := do
  requireSize st.stack 1
  let vch ← stacktop st.stack 1
  let n ← scriptNum flags vch 5
  require (¬ n < 0) .NEGATIVE_LOCKTIME
  .ok n

def checkLockTimeVerify (checker : BaseSignatureChecker) (st : EvalState) : Except Halt Unit := do
  let nLockTime ← lockTimeOperand flags st
  require (checker.checkLockTime nLockTime = true) .UNSATISFIED_LOCKTIME

/-- The operand is not compared if it has `SEQUENCE_LOCKTIME_DISABLE_FLAG`. -/
def checkSequenceVerify (checker : BaseSignatureChecker) (st : EvalState) : Except Halt Unit := do
  let nSequence ← lockTimeOperand flags st
  if nSequence &&& 0x80000000 ≠ 0 then .ok ()
  else require (checker.checkSequence nSequence = true) .UNSATISFIED_LOCKTIME

def execIf (sigversion : SigVersion) (negated fExec : Bool) (st : EvalState) :
    Except Halt EvalState :=
  if fExec then do
    require (1 ≤ st.stack.length) .UNBALANCED_CONDITIONAL
    let vch ← stacktop st.stack 1
    withFlag flags SCRIPT_VERIFY_MINIMALIF
      (require (sigversion = .SIGVERSION_WITNESS_V0 → vch = [] ∨ vch = [1]) .MINIMALIF)
    let stack ← popstack st.stack
    .ok { st with stack, vfExec := (castToBool vch != negated) :: st.vfExec }
  else .ok { st with vfExec := false :: st.vfExec }

end

section

variable (crypto : Crypto) (flags : UInt32) (checker : BaseSignatureChecker)
  (sigversion : SigVersion)

def callCheckSig (vchSig vchPubKey : Bytes) (scriptCode : CScript) : Eval Bool := do
  modify (· + 1)
  pure (checker.checkSig vchSig vchPubKey scriptCode sigversion)

/-- A signature is dropped from the script it signs, unless that is a witness script. -/
def dropSig (scriptCode : CScript) (vchSig : Bytes) : CScript :=
  if sigversion = .SIGVERSION_BASE then scriptCode.findAndDelete (CScript.pushData vchSig)
  else scriptCode

def checkEncodings (vchSig vchPubKey : Bytes) : Except Halt Unit := do
  checkSignatureEncoding crypto flags vchSig
  checkPubKeyEncoding flags sigversion vchPubKey

def finishSig (verify fSuccess : Bool) (serror : ScriptError) (st : EvalState) :
    Except Halt EvalState :=
  let st := st.push (boolValue fSuccess)
  if verify then do
    require (fSuccess = true) serror
    let stack ← popstack st.stack
    .ok { st with stack }
  else .ok st

def execCheckSig (verify : Bool) (st : EvalState) : Eval EvalState := do
  requireSize st.stack 2
  let vchSig ← stacktop st.stack 2
  let vchPubKey ← stacktop st.stack 1
  let scriptCode := dropSig sigversion st.codehash vchSig
  checkEncodings crypto flags sigversion vchSig vchPubKey
  let fSuccess ← callCheckSig checker sigversion vchSig vchPubKey scriptCode
  withFlag flags SCRIPT_VERIFY_NULLFAIL
    (require (fSuccess = true ∨ vchSig.length = 0) .SIG_NULLFAIL)
  let stack ← popstack st.stack
  let stack ← popstack stack
  finishSig verify fSuccess .CHECKSIGVERIFY { st with stack }

def dropSigs (stack : Stack) (isig : ℕ) : ℕ → CScript → Except Halt CScript
  | 0, scriptCode => .ok scriptCode
  | n + 1, scriptCode => do
    let scriptCode ← dropSigs stack isig n scriptCode
    let vchSig ← stacktop stack (isig + n)
    .ok (dropSig sigversion scriptCode vchSig)

/-- The loop over keys and signatures. There are never more signatures left than keys. -/
def matchSigs (stack : Stack) (scriptCode : CScript) : ℕ → ℕ → ℕ → ℕ → Eval Bool
  | _, 0, _, _ => pure true
  | 0, _ + 1, _, _ => pure false
  | nKeysCount + 1, nSigsCount + 1, ikey, isig => do
    let vchSig ← stacktop stack isig
    let vchPubKey ← stacktop stack ikey
    checkEncodings crypto flags sigversion vchSig vchPubKey
    let fOk ← callCheckSig checker sigversion vchSig vchPubKey scriptCode
    if fOk then matchSigs stack scriptCode nKeysCount nSigsCount (ikey + 1) (isig + 1)
    else if nSigsCount + 1 > nKeysCount then pure false
    else matchSigs stack scriptCode nKeysCount (nSigsCount + 1) (ikey + 1) isig

/-- The signatures of a failed operation must be empty. They come once `ikey2` is zero. -/
def checkNullFail (fSuccess : Bool) (ikey2 : ℕ) (stack : Stack) : Except Halt Unit :=
  if fSuccess = false ∧ ikey2 = 0 then
    withFlag flags SCRIPT_VERIFY_NULLFAIL do
      let vch ← stacktop stack 1
      require (vch.length = 0) .SIG_NULLFAIL
  else .ok ()

def cleanUp (fSuccess : Bool) : ℕ → ℕ → Stack → Except Halt Stack
  | 0, _, stack => .ok stack
  | n + 1, ikey2, stack => do
    checkNullFail flags fSuccess ikey2 stack
    let stack ← popstack stack
    cleanUp fSuccess n (ikey2 - 1) stack

/-- The arguments of `OP_CHECKMULTISIG`: the numbers of keys and of signatures. -/
def multiSigCounts (st : EvalState) : Except Halt (ℕ × ℕ) := do
  requireSize st.stack 1
  let vch ← stacktop st.stack 1
  let bn ← scriptNum flags vch CScriptNum.nDefaultMaxNumSize
  let nKeysCount := CScriptNum.getint bn
  require (0 ≤ nKeysCount ∧ nKeysCount ≤ CScript.MAX_PUBKEYS_PER_MULTISIG) .PUBKEY_COUNT
  require (st.nOpCount + nKeysCount.toNat ≤ MAX_OPS_PER_SCRIPT) .OP_COUNT
  requireSize st.stack (nKeysCount.toNat + 2)
  let vch ← stacktop st.stack (nKeysCount.toNat + 2)
  let bn ← scriptNum flags vch CScriptNum.nDefaultMaxNumSize
  let nSigsCount := CScriptNum.getint bn
  require (0 ≤ nSigsCount ∧ nSigsCount ≤ nKeysCount) .SIG_COUNT
  requireSize st.stack (nKeysCount.toNat + nSigsCount.toNat + 3)
  .ok (nKeysCount.toNat, nSigsCount.toNat)

def execCheckMultiSig (verify : Bool) (st : EvalState) : Eval EvalState := do
  let counts ← multiSigCounts flags st
  let ikey := 2
  let isig := counts.1 + 3
  let scriptCode ← dropSigs sigversion st.stack isig counts.2 st.codehash
  let fSuccess ← matchSigs crypto flags checker sigversion st.stack scriptCode counts.1 counts.2
    ikey isig
  let stack ← cleanUp flags fSuccess (counts.1 + counts.2 + 2) (counts.1 + 2) st.stack
  requireSize stack 1
  let dummy ← stacktop stack 1
  withFlag flags SCRIPT_VERIFY_NULLDUMMY (require (dummy.length = 0) .SIG_NULLDUMMY)
  let stack ← popstack stack
  finishSig verify fSuccess .CHECKMULTISIGVERIFY
    { st with stack, nOpCount := st.nOpCount + counts.1 }

/-- The `switch`. The script after the operation is `pc`. -/
def execOp (fExec : Bool) (pc : CScript) (st : EvalState) : opcodetype → Eval EvalState
  | .constant n => pure (st.push (CScript.serializeNum n))
  | .OP_NOP => pure st
  | .OP_CHECKLOCKTIMEVERIFY =>
    execFormerNop flags SCRIPT_VERIFY_CHECKLOCKTIMEVERIFY (checkLockTimeVerify flags checker st) st
  | .OP_CHECKSEQUENCEVERIFY =>
    execFormerNop flags SCRIPT_VERIFY_CHECKSEQUENCEVERIFY (checkSequenceVerify flags checker st) st
  | .upgradableNop => execUpgradableNop flags st
  | .OP_IF => execIf flags sigversion false fExec st
  | .OP_NOTIF => execIf flags sigversion true fExec st
  | .OP_ELSE => execElse st
  | .OP_ENDIF => execEndIf st
  | .OP_VERIFY => execVerify st
  | .OP_RETURN => throw (.failed .OP_RETURN)
  | .stack op => execStackOp op st
  | .OP_PICK => execPick flags false st
  | .OP_ROLL => execPick flags true st
  | .equal verify => execEqual verify st
  | .unary op => execUnary flags op st
  | .binary op => execBinary flags op st
  | .OP_WITHIN => execWithin flags st
  | .hash op => execHash crypto op st
  | .OP_CODESEPARATOR => pure { st with codehash := pc }
  | .checkSig verify => execCheckSig crypto flags checker sigversion verify st
  | .checkMultiSig verify => execCheckMultiSig crypto flags checker sigversion verify st
  | .other => throw (.failed .BAD_OPCODE)

def execPush (opcode : UInt8) (vchPushValue : Bytes) (st : EvalState) : Except Halt EvalState := do
  withFlag flags SCRIPT_VERIFY_MINIMALDATA
    (require (checkMinimalPush vchPushValue opcode = true) .MINIMALDATA)
  .ok (st.push vchPushValue)

def countOp (opcode : UInt8) (vchPushValue : Bytes) (st : EvalState) : Except Halt EvalState := do
  require (vchPushValue.length ≤ MAX_SCRIPT_ELEMENT_SIZE) .PUSH_SIZE
  let nOpCount := if opcode > CScript.OP_16 then st.nOpCount + 1 else st.nOpCount
  require (opcode > CScript.OP_16 → nOpCount ≤ MAX_OPS_PER_SCRIPT) .OP_COUNT
  require (isDisabled opcode = false) .DISABLED_OPCODE
  .ok { st with nOpCount }

/-- A push, or an operation of the `switch`; in a branch that is not executed only the operations
from `OP_IF` to `OP_ENDIF`. -/
def dispatch (opcode : UInt8) (vchPushValue : Bytes) (pc : CScript) (st : EvalState) :
    Eval EvalState :=
  let fExec := st.vfExec.all id
  if fExec ∧ opcode ≤ CScript.OP_PUSHDATA4 then liftM (execPush flags opcode vchPushValue st)
  else if fExec ∨ (0x63 ≤ opcode ∧ opcode ≤ 0x68) then
    execOp crypto flags checker sigversion fExec pc st (opcodetype.ofByte opcode)
  else pure st

def evalOp (opcode : UInt8) (vchPushValue : Bytes) (pc : CScript) (st : EvalState) :
    Eval EvalState := do
  let st ← countOp opcode vchPushValue st
  let st ← dispatch crypto flags checker sigversion opcode vchPushValue pc st
  require (st.stack.length + st.altstack.length ≤ MAX_STACK_SIZE) .STACK_SIZE
  pure st

/-- The loop over the script. The first argument bounds its rounds; every operation takes a
byte. -/
def evalLoop : ℕ → CScript → EvalState → Eval EvalState
  | 0, pc, st => if pc = [] then pure st else throw .outOfFuel
  | fuel + 1, pc, st =>
    if pc = [] then pure st
    else
      match CScript.getOpValue pc with
      | none => throw (.failed .BAD_OPCODE)
      | some (opcode, vchPushValue, pc) => do
        let st ← evalOp crypto flags checker sigversion opcode vchPushValue pc st
        evalLoop fuel pc st

/-- The handler of `EvalScript`: whatever was thrown becomes an error. -/
def caught : Halt → Halt
  | .fault (.thrown _) => .failed .UNKNOWN_ERROR
  | halt => halt

def evalScript (stack : Stack) (script : CScript) : Eval Stack := do
  require (script.length ≤ MAX_SCRIPT_SIZE) .SCRIPT_SIZE
  let st ← ExceptT.adapt caught
    (evalLoop crypto flags checker sigversion script.length script ⟨stack, [], [], 0, script⟩)
  require (st.vfExec = []) .UNBALANCED_CONDITIONAL
  pure st.stack

/-- `if (!CastToBool(stack.back())) return set_error(.., SCRIPT_ERR_EVAL_FALSE)`. -/
def requireTrue (stack : Stack) : Except Halt Unit :=
  require (stack.head?.any castToBool = true) .EVAL_FALSE

/-- `OP_DUP OP_HASH160 program OP_EQUALVERIFY OP_CHECKSIG`. -/
def payToPubkeyHash (program : Bytes) : CScript :=
  [0x76, 0xa9] ++ CScript.pushData program ++ [0x88, 0xac]

/-- The script of a witness program of version 0 and the stack it starts with. -/
def witnessScript (witness : List Bytes) (program : Bytes) : Except Halt (CScript × Stack) :=
  if program.length = 32 then
    match witness.getLast? with
    | none => .error (.failed .WITNESS_PROGRAM_WITNESS_EMPTY)
    | some scriptPubKey => do
      require (crypto.hash .OP_SHA256 scriptPubKey = program) .WITNESS_PROGRAM_MISMATCH
      .ok (scriptPubKey, witness.dropLast.reverse)
  else if program.length = 20 then do
    require (witness.length = 2) .WITNESS_PROGRAM_MISMATCH
    .ok (payToPubkeyHash program, witness.reverse)
  else .error (.failed .WITNESS_PROGRAM_WRONG_LENGTH)

/-- `VerifyWitnessProgram`. The last element of the witness is the top of its stack. -/
def verifyWitnessProgram (witness : List Bytes) (witversion : ℕ) (program : Bytes) : Eval Unit :=
  if witversion = 0 then do
    let start ← witnessScript crypto witness program
    require (∀ vch ∈ start.2, vch.length ≤ MAX_SCRIPT_ELEMENT_SIZE) .PUSH_SIZE
    let stack ← evalScript crypto flags checker .SIGVERSION_WITNESS_V0 start.2 start.1
    require (stack.length = 1) .EVAL_FALSE
    requireTrue stack
  else
    withFlag flags SCRIPT_VERIFY_DISCOURAGE_UPGRADABLE_WITNESS_PROGRAM
      (.error (.failed .DISCOURAGE_UPGRADABLE_WITNESS_PROGRAM))

/-- `stack.resize(1)`, which keeps the bottom. -/
def resizeOne (stack : Stack) : Stack := [stack.getLastD []]

/-- The verification of a script that may be a witness program: whether it was one, and the stack
after it. `malleated` says that the input script is not the one required for it. -/
def verifyWitness (script : CScript) (witness : List Bytes) (malleated : Bool)
    (serror : ScriptError) (stack : Stack) : Eval (Bool × Stack) :=
  if Flagged flags SCRIPT_VERIFY_WITNESS then
    match script.isWitnessProgram with
    | none => pure (false, stack)
    | some (witnessversion, witnessprogram) => do
      require (malleated = false) serror
      verifyWitnessProgram crypto flags checker witness witnessversion witnessprogram
      pure (true, resizeOne stack)
  else pure (false, stack)

/-- The additional validation of a script hash: whether the redeem script was a witness program,
and the stack after it. The stack is the one after the input script. -/
def verifyScriptHash (scriptSig : CScript) (witness : List Bytes) (stack : Stack) :
    Eval (Bool × Stack) := do
  require (scriptSig.isPushOnly = true) .SIG_PUSHONLY
  orFault (assertThat (stack ≠ []) "!stack.empty()")
  let pubKey2 ← stacktop stack 1
  let stack ← popstack stack
  let stack ← evalScript crypto flags checker .SIGVERSION_BASE stack pubKey2
  requireTrue stack
  verifyWitness crypto flags checker pubKey2 witness (scriptSig ≠ CScript.pushData pubKey2)
    .WITNESS_MALLEATED_P2SH stack

def finishVerify (hadWitness : Bool) (witness : List Bytes) (stack : Stack) : Except Halt Unit := do
  withFlag flags SCRIPT_VERIFY_CLEANSTACK do
    orFault (assertThat (Flagged flags SCRIPT_VERIFY_P2SH) "(flags & SCRIPT_VERIFY_P2SH) != 0")
    orFault (assertThat (Flagged flags SCRIPT_VERIFY_WITNESS)
      "(flags & SCRIPT_VERIFY_WITNESS) != 0")
    require (stack.length = 1) .CLEANSTACK
  withFlag flags SCRIPT_VERIFY_WITNESS do
    orFault (assertThat (Flagged flags SCRIPT_VERIFY_P2SH) "(flags & SCRIPT_VERIFY_P2SH) != 0")
    require (hadWitness = true ∨ witness = []) .WITNESS_UNEXPECTED

/-- The additional validation where it applies; `stackCopy` is the stack after the input script. -/
def verifyIfScriptHash (scriptSig scriptPubKey : CScript) (witness : List Bytes)
    (stackCopy stack : Stack) : Eval (Bool × Stack) :=
  if Flagged flags SCRIPT_VERIFY_P2SH ∧ scriptPubKey.isPayToScriptHash = true then
    verifyScriptHash crypto flags checker scriptSig witness stackCopy
  else pure (false, stack)

def verifyPrograms (scriptSig scriptPubKey : CScript) (witness : List Bytes)
    (stackCopy stack : Stack) : Eval Unit := do
  let bare ← verifyWitness crypto flags checker scriptPubKey witness (scriptSig ≠ [])
    .WITNESS_MALLEATED stack
  let last ← verifyIfScriptHash crypto flags checker scriptSig scriptPubKey witness stackCopy bare.2
  finishVerify flags (bare.1 || last.1) witness last.2

/-- `VerifyScript`. A missing witness is an empty one. -/
def verifyScript (scriptSig scriptPubKey : CScript) (witness : List Bytes) : Eval Unit := do
  withFlag flags SCRIPT_VERIFY_SIGPUSHONLY (require (scriptSig.isPushOnly = true) .SIG_PUSHONLY)
  let stackCopy ← evalScript crypto flags checker .SIGVERSION_BASE [] scriptSig
  let stack ← evalScript crypto flags checker .SIGVERSION_BASE stackCopy scriptPubKey
  requireTrue stack
  verifyPrograms crypto flags checker scriptSig scriptPubKey witness stackCopy stack

def Verifies (scriptSig scriptPubKey : CScript) (witness : List Bytes) : Prop :=
  ((verifyScript crypto flags checker scriptSig scriptPubKey witness).run.run 0).1 = .ok ()

structure CScriptCheck where
  scriptSig : CScript
  scriptPubKey : CScript
  witness : List Bytes
  checker : BaseSignatureChecker

def InputsVerify (inputs : List CScriptCheck) : Prop :=
  ∀ check ∈ inputs,
    Verifies crypto flags check.checker check.scriptSig check.scriptPubKey check.witness

end

def MANDATORY_SCRIPT_VERIFY_FLAGS : UInt32 := SCRIPT_VERIFY_P2SH

def STANDARD_SCRIPT_VERIFY_FLAGS : UInt32 :=
  MANDATORY_SCRIPT_VERIFY_FLAGS ||| SCRIPT_VERIFY_DERSIG ||| SCRIPT_VERIFY_STRICTENC |||
    SCRIPT_VERIFY_MINIMALDATA ||| SCRIPT_VERIFY_NULLDUMMY |||
    SCRIPT_VERIFY_DISCOURAGE_UPGRADABLE_NOPS ||| SCRIPT_VERIFY_CLEANSTACK |||
    SCRIPT_VERIFY_MINIMALIF ||| SCRIPT_VERIFY_NULLFAIL ||| SCRIPT_VERIFY_CHECKLOCKTIMEVERIFY |||
    SCRIPT_VERIFY_CHECKSEQUENCEVERIFY ||| SCRIPT_VERIFY_LOW_S ||| SCRIPT_VERIFY_WITNESS |||
    SCRIPT_VERIFY_DISCOURAGE_UPGRADABLE_WITNESS_PROGRAM ||| SCRIPT_VERIFY_WITNESS_PUBKEYTYPE

/-- The flags of `ConnectBlock`, by which rules are in force for the block: those of BIP 66 and
BIP 65, the deployment of `CHECKSEQUENCEVERIFY` and witnesses. -/
def blockScriptFlags (fDerSig fLockTime fSequence fWitness : Bool) : UInt32 :=
  let flags := SCRIPT_VERIFY_P2SH
  let flags := if fDerSig then flags ||| SCRIPT_VERIFY_DERSIG else flags
  let flags := if fLockTime then flags ||| SCRIPT_VERIFY_CHECKLOCKTIMEVERIFY else flags
  let flags := if fSequence then flags ||| SCRIPT_VERIFY_CHECKSEQUENCEVERIFY else flags
  if fWitness then flags ||| SCRIPT_VERIFY_WITNESS ||| SCRIPT_VERIFY_NULLDUMMY else flags

end Script

end Coinyecoin
