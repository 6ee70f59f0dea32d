import Coinyecoin.Script.Push
import Mathlib.Algebra.BigOperators.Group.List.Basic
import Mathlib.Algebra.Order.Ring.Nat

/-!
# Operations of a script

`CScript::GetOp`, `CScript::GetSigOpCount` and `GetLegacySigOpCount`. A script is
counted up to the first operation that cannot be read. Scripts that only push
count nothing.

Then come the operations the interpreter knows by their bytes, and the tests on whole
scripts that the verification makes.
-/

namespace Coinyecoin

open Foundation

namespace CScript

def OP_16 : UInt8 := 0x60

def OP_CHECKSIG : UInt8 := 0xac

def OP_CHECKSIGVERIFY : UInt8 := 0xad

def OP_CHECKMULTISIG : UInt8 := 0xae

def OP_CHECKMULTISIGVERIFY : UInt8 := 0xaf

def OP_INVALIDOPCODE : UInt8 := 0xff

def MAX_PUBKEYS_PER_MULTISIG : ℕ := 20

def sizeWidth (opcode : UInt8) : ℕ :=
  if opcode = OP_PUSHDATA1 then 1
  else if opcode = OP_PUSHDATA2 then 2
  else if opcode = OP_PUSHDATA4 then 4
  else 0

/-- `GetOp`: the next operation, its operand and the script after it; `none` where the source
returns false. -/
def getOpValue : CScript → Option (UInt8 × Bytes × CScript)
  | [] => none
  | opcode :: pc =>
    if opcode ≤ OP_PUSHDATA4 then
      if pc.length < sizeWidth opcode then none
      else
        let nSize :=
          if opcode < OP_PUSHDATA1 then opcode.toNat else leNat (pc.take (sizeWidth opcode))
        let pc := pc.drop (sizeWidth opcode)
        if pc.length < nSize then none else some (opcode, pc.take nSize, pc.drop nSize)
    else some (opcode, [], pc)

def getOp (pc : CScript) : Option (UInt8 × CScript) :=
  (getOpValue pc).map fun op => (op.1, op.2.2)

def opSigOps (fAccurate : Bool) (lastOpcode opcode : UInt8) : ℕ :=
  if opcode = OP_CHECKSIG ∨ opcode = OP_CHECKSIGVERIFY then 1
  else if opcode = OP_CHECKMULTISIG ∨ opcode = OP_CHECKMULTISIGVERIFY then
    if fAccurate ∧ OP_1 ≤ lastOpcode ∧ lastOpcode ≤ OP_16 then lastOpcode.toNat - (OP_1.toNat - 1)
    else MAX_PUBKEYS_PER_MULTISIG
  else 0

def sigOpsLoop (fAccurate : Bool) : ℕ → UInt8 → CScript → ℕ
  | 0, _, _ => 0
  | fuel + 1, lastOpcode, pc =>
    match getOp pc with
    | none => 0
    | some (opcode, pc) =>
      opSigOps fAccurate lastOpcode opcode + sigOpsLoop fAccurate fuel opcode pc

/-- `GetSigOpCount(fAccurate)`. Every operation takes a byte. -/
def getSigOpCount (script : CScript) (fAccurate : Bool) : ℕ :=
  sigOpsLoop fAccurate script.length OP_INVALIDOPCODE script

def IsPush (push : CScript) : Prop :=
  ∃ opcode ≤ OP_16, ∀ script, getOp (push ++ script) = some (opcode, script)

theorem isPush_pushData {b : Bytes} (hb : b.length < 76) : IsPush (pushData b) := by
  have hop : ∀ n < 76, UInt8.ofNat n < OP_PUSHDATA1 ∧ UInt8.ofNat n ≤ OP_PUSHDATA4 ∧
      UInt8.ofNat n ≤ OP_16 ∧ sizeWidth (UInt8.ofNat n) = 0 := by
    decide
  obtain ⟨hlt, hpush, hle, hwidth⟩ := hop b.length hb
  have hnat : (UInt8.ofNat b.length).toNat = b.length := by
    rw [UInt8.toNat_ofNat']
    omega
  refine ⟨UInt8.ofNat b.length, hle, fun script => ?_⟩
  rw [pushData_of_short hb, List.cons_append, getOp, getOpValue, if_pos hpush, hwidth,
    if_neg (Nat.not_lt_zero _)]
  dsimp only
  rw [if_pos hlt, List.drop_zero, hnat, if_neg (by simp), Option.map_some, List.drop_left]

theorem isPush_pushInt64 {n : Int64} (hn : n.toInt.natAbs < 256 ^ 4) : IsPush (pushInt64 n) := by
  have hlen := length_serializeNum_le hn
  unfold pushInt64
  split_ifs with hsmall hzero
  · have hop : ∀ k < 18, ¬ UInt8.ofInt ((k : ℕ) - 1 + (OP_1.toNat - 1)) ≤ OP_PUSHDATA4 ∧
        UInt8.ofInt ((k : ℕ) - 1 + (OP_1.toNat - 1)) ≤ OP_16 := by
      decide
    have hrange : -1 ≤ n.toInt ∧ n.toInt ≤ 16 := by
      rcases hsmall with rfl | ⟨hge, hle⟩
      · decide
      · rw [Int64.le_iff_toInt_le] at hge hle
        exact ⟨le_trans (by decide) hge, hle⟩
    obtain ⟨hpush, hle⟩ := hop (n.toInt + 1).toNat (by omega)
    have hk : (((n.toInt + 1).toNat : ℕ) : ℤ) - 1 = n.toInt := by omega
    rw [hk] at hpush hle
    exact ⟨_, hle, fun script => congrArg (Option.map _) (if_neg hpush)⟩
  · exact ⟨0, by decide, fun script => rfl⟩
  · exact isPush_pushData (by omega)

theorem opSigOps_push {fAccurate : Bool} {lastOpcode : UInt8} {opcode : UInt8}
    (h : opcode ≤ OP_16) : opSigOps fAccurate lastOpcode opcode = 0 := by
  have hne : ∀ op : UInt8, ¬ op ≤ OP_16 → opcode ≠ op := fun op hop heq => hop (heq ▸ h)
  rw [opSigOps, if_neg, if_neg]
  · exact not_or.2 ⟨hne _ (by decide), hne _ (by decide)⟩
  · exact not_or.2 ⟨hne _ (by decide), hne _ (by decide)⟩

theorem sigOpsLoop_push {push : CScript} (h : IsPush push) (script : CScript) (fAccurate : Bool)
    (hscript : ∀ fuel lastOpcode, sigOpsLoop fAccurate fuel lastOpcode script = 0)
    (fuel : ℕ) (lastOpcode : UInt8) : sigOpsLoop fAccurate fuel lastOpcode (push ++ script) = 0 := by
  obtain ⟨opcode, hle, hget⟩ := h
  cases fuel with
  | zero => rfl
  | succ fuel => simp [sigOpsLoop, hget, opSigOps_push hle, hscript]

theorem getSigOpCount_pushes {push push' : CScript} (h : IsPush push) (h' : IsPush push')
    (fAccurate : Bool) : getSigOpCount (push ++ push') fAccurate = 0 := by
  have hnil (fuel : ℕ) (lastOpcode : UInt8) : sigOpsLoop fAccurate fuel lastOpcode [] = 0 := by
    cases fuel <;> rfl
  have hlast := sigOpsLoop_push h' [] fAccurate hnil
  rw [List.append_nil] at hlast
  exact sigOpsLoop_push h push' fAccurate hlast _ _

end CScript

def CTransaction.getLegacySigOpCount (tx : CTransaction) : ℕ :=
  (tx.vin.map fun txin => CScript.getSigOpCount txin.scriptSig false).sum +
    (tx.vout.map fun txout => CScript.getSigOpCount txout.scriptPubKey false).sum

/-- Operations that move elements of the stacks without looking at them, apart from `OP_IFDUP`. -/
inductive StackOp
  | OP_TOALTSTACK | OP_FROMALTSTACK | OP_2DROP | OP_2DUP | OP_3DUP | OP_2OVER | OP_2ROT
  | OP_2SWAP | OP_IFDUP | OP_DEPTH | OP_DROP | OP_DUP | OP_NIP | OP_OVER | OP_ROT | OP_SWAP
  | OP_TUCK | OP_SIZE
deriving DecidableEq, Repr

inductive UnaryOp
  | OP_1ADD | OP_1SUB | OP_NEGATE | OP_ABS | OP_NOT | OP_0NOTEQUAL
deriving DecidableEq, Repr

inductive BinaryOp
  | OP_ADD | OP_SUB | OP_BOOLAND | OP_BOOLOR | OP_NUMEQUAL | OP_NUMEQUALVERIFY | OP_NUMNOTEQUAL
  | OP_LESSTHAN | OP_GREATERTHAN | OP_LESSTHANOREQUAL | OP_GREATERTHANOREQUAL | OP_MIN | OP_MAX
deriving DecidableEq, Repr

inductive HashOp
  | OP_RIPEMD160 | OP_SHA1 | OP_SHA256 | OP_HASH160 | OP_HASH256
deriving DecidableEq, Repr

/-- The cases of the interpreter's `switch`. The argument of `constant` is the number pushed, that
of `equal`, `checkSig` and `checkMultiSig` says whether the result is verified at once; `other`
is the default case. -/
inductive opcodetype
  | constant (n : Int64)
  | OP_NOP | OP_CHECKLOCKTIMEVERIFY | OP_CHECKSEQUENCEVERIFY | upgradableNop
  | OP_IF | OP_NOTIF | OP_ELSE | OP_ENDIF | OP_VERIFY | OP_RETURN
  | stack (op : StackOp)
  | OP_PICK | OP_ROLL
  | equal (verify : Bool)
  | unary (op : UnaryOp)
  | binary (op : BinaryOp)
  | OP_WITHIN
  | hash (op : HashOp)
  | OP_CODESEPARATOR
  | checkSig (verify : Bool)
  | checkMultiSig (verify : Bool)
  | other
deriving DecidableEq, Repr

namespace opcodetype

def ofControl : UInt8 → opcodetype
  | 0x61 => OP_NOP
  | 0x63 => OP_IF
  | 0x64 => OP_NOTIF
  | 0x67 => OP_ELSE
  | 0x68 => OP_ENDIF
  | 0x69 => OP_VERIFY
  | 0x6a => OP_RETURN
  | _ => other

def ofStack : UInt8 → opcodetype
  | 0x6b => stack .OP_TOALTSTACK
  | 0x6c => stack .OP_FROMALTSTACK
  | 0x6d => stack .OP_2DROP
  | 0x6e => stack .OP_2DUP
  | 0x6f => stack .OP_3DUP
  | 0x70 => stack .OP_2OVER
  | 0x71 => stack .OP_2ROT
  | 0x72 => stack .OP_2SWAP
  | 0x73 => stack .OP_IFDUP
  | 0x74 => stack .OP_DEPTH
  | 0x75 => stack .OP_DROP
  | 0x76 => stack .OP_DUP
  | 0x77 => stack .OP_NIP
  | 0x78 => stack .OP_OVER
  | 0x79 => OP_PICK
  | 0x7a => OP_ROLL
  | 0x7b => stack .OP_ROT
  | 0x7c => stack .OP_SWAP
  | 0x7d => stack .OP_TUCK
  | 0x82 => stack .OP_SIZE
  | 0x87 => equal false
  | 0x88 => equal true
  | _ => other

def ofNumeric : UInt8 → opcodetype
  | 0x8b => unary .OP_1ADD
  | 0x8c => unary .OP_1SUB
  | 0x8f => unary .OP_NEGATE
  | 0x90 => unary .OP_ABS
  | 0x91 => unary .OP_NOT
  | 0x92 => unary .OP_0NOTEQUAL
  | 0x93 => binary .OP_ADD
  | 0x94 => binary .OP_SUB
  | 0x9a => binary .OP_BOOLAND
  | 0x9b => binary .OP_BOOLOR
  | 0x9c => binary .OP_NUMEQUAL
  | 0x9d => binary .OP_NUMEQUALVERIFY
  | 0x9e => binary .OP_NUMNOTEQUAL
  | 0x9f => binary .OP_LESSTHAN
  | 0xa0 => binary .OP_GREATERTHAN
  | 0xa1 => binary .OP_LESSTHANOREQUAL
  | 0xa2 => binary .OP_GREATERTHANOREQUAL
  | 0xa3 => binary .OP_MIN
  | 0xa4 => binary .OP_MAX
  | 0xa5 => OP_WITHIN
  | _ => other

def ofCrypto : UInt8 → opcodetype
  | 0xa6 => hash .OP_RIPEMD160
  | 0xa7 => hash .OP_SHA1
  | 0xa8 => hash .OP_SHA256
  | 0xa9 => hash .OP_HASH160
  | 0xaa => hash .OP_HASH256
  | 0xab => OP_CODESEPARATOR
  | 0xac => checkSig false
  | 0xad => checkSig true
  | 0xae => checkMultiSig false
  | 0xaf => checkMultiSig true
  | 0xb0 => upgradableNop
  | 0xb1 => OP_CHECKLOCKTIMEVERIFY
  | 0xb2 => OP_CHECKSEQUENCEVERIFY
  | opcode => if 0xb3 ≤ opcode ∧ opcode ≤ 0xb9 then upgradableNop else other

def ofByte (opcode : UInt8) : opcodetype :=
  if opcode = 0x4f then constant (-1)
  else if 0x51 ≤ opcode ∧ opcode ≤ 0x60 then constant (Int64.ofNat (opcode.toNat - 0x50))
  else if opcode < 0x61 then other
  else if opcode < 0x6b then ofControl opcode
  else if opcode < 0x8b then ofStack opcode
  else if opcode < 0xa6 then ofNumeric opcode
  else ofCrypto opcode

end opcodetype

/-- `OP_CAT` to `OP_RIGHT`, `OP_INVERT` to `OP_XOR`, `OP_2MUL`, `OP_2DIV` and `OP_MUL` to
`OP_RSHIFT`. -/
def isDisabled (opcode : UInt8) : Bool :=
  (0x7e ≤ opcode ∧ opcode ≤ 0x81) ∨ (0x83 ≤ opcode ∧ opcode ≤ 0x86) ∨
    opcode = 0x8d ∨ opcode = 0x8e ∨ (0x95 ≤ opcode ∧ opcode ≤ 0x99)

namespace CScript

/-- The loop of `IsPushOnly`; the first argument bounds its rounds. -/
def isPushOnlyLoop : ℕ → CScript → Bool
  | 0, pc => pc.isEmpty
  | fuel + 1, pc =>
    if pc.isEmpty then true
    else
      match getOp pc with
      | none => false
      | some (opcode, pc) => if opcode > OP_16 then false else isPushOnlyLoop fuel pc

def isPushOnly (script : CScript) : Bool := isPushOnlyLoop script.length script

def isPayToScriptHash (script : CScript) : Bool :=
  script.length = 23 ∧ script[0]? = some 0xa9 ∧ script[1]? = some 0x14 ∧ script[22]? = some 0x87

/-- `IsWitnessProgram`: the version and the program. -/
def isWitnessProgram (script : CScript) : Option (ℕ × Bytes) :=
  match script with
  | version :: size :: program =>
    if script.length < 4 ∨ script.length > 42 then none
    else if version ≠ 0 ∧ (version < OP_1 ∨ version > OP_16) then none
    else if size.toNat + 2 = script.length then
      some (if version = 0 then 0 else version.toNat - (OP_1.toNat - 1), program)
    else none
  | _ => none

def skipCopies (b : CScript) : ℕ → CScript → CScript
  | 0, pc => pc
  | fuel + 1, pc => if b.isPrefixOf pc then skipCopies b fuel (pc.drop b.length) else pc

/-- The loop of `FindAndDelete`: copies of `b` that start where an operation does are left out.
The first argument bounds its rounds. -/
def findAndDeleteLoop (b : CScript) : ℕ → CScript → CScript
  | 0, pc => pc
  | fuel + 1, pc =>
    let pc := skipCopies b pc.length pc
    match getOp pc with
    | none => pc
    | some (_, next) => pc.take (pc.length - next.length) ++ findAndDeleteLoop b fuel next

def findAndDelete (script b : CScript) : CScript :=
  if b.isEmpty then script else findAndDeleteLoop b (script.length + 1) script

end CScript

end Coinyecoin
