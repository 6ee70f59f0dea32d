import Coinyecoin.Mempool.Entry
import Coinyecoin.Policy.RelayFee
import Coinyecoin.Foundation.SetLoops
import Coinyecoin.Validation.Contextual
import Coinyecoin.Wallet.SelectCoins

/-!
# Creating a transaction

`CreateTransaction` starts with no fee and builds a draft: the outputs of the
recipients, some of which may pay the fee, the selected coins and the change. If the
draft asks for more fee than it has, it is taken from the change or the next draft is
built with that fee. The keys, the signatures, the fee functions and the random choices
are arguments.
-/

namespace Coinyecoin

open Foundation

structure CRecipient where
  scriptPubKey : CScript
  nAmount : ℤ
  fSubtractFeeFromAmount : Bool
deriving DecidableEq, Repr

/-- How `CreateTransaction` can end other than with a transaction. -/
inductive CreateStop where
  | failed (strFailReason : String)
  | fault (f : Fault)
deriving DecidableEq, Repr

def MIN_FINAL_CHANGE : ℤ := MIN_CHANGE.tdiv 2

def MAX_FREE_TRANSACTION_CREATE_SIZE : ℕ := 0

abbrev SignatureData := CScript × List (List UInt8)

/-- What `CreateTransaction` asks of the wallet, its options and the pool. What can differ from pass
to pass has the number of the pass as an argument. -/
structure CreateEnv where
  view : CoinView
  options : SelectOptions
  choices : ℕ → ℕ → SelectionChoices
  getDepthInMainChain : COutPoint → ℤ
  setOrder : SetOrder COutPoint
  dustRelayFee : CFeeRate
  minRelayTxFee : CFeeRate
  getMinimumFee : List DraftOut → ℕ → Except Fault ℤ
  scriptChange : ℕ → Option CScript
  randomPosition : ℕ → (n : ℕ) → Fin (n + 1)
  dummySignature : COutPoint → Option SignatureData
  produceSignature : List CTxIn → List DraftOut → ℕ → Option SignatureData
  fSendFreeTransactions : Bool
  enoughPriority : Finset COutPoint → List DraftOut → ℕ → Bool
  withinChainLimits : List CTxIn → List DraftOut → Bool
  fWalletRbf : Bool
  nHeight : ℤ
  lockTimeBack : Option (Fin 100)

/-- A draft of the transaction, as one pass leaves it when its fee is looked at. No position stands
for `nChangePosInOut = -1`. -/
structure Draft where
  setCoins : Finset COutPoint
  vin : List CTxIn
  vout : List DraftOut
  nChangePos : Option ℕ
  nFeeRet : ℤ
deriving DecidableEq

/-- What a pass ends with: the outputs and the fee, or the fee to try next. -/
inductive PassEnd where
  | done (vout : List DraftOut) (nFeeRet : ℤ)
  | again (nFeeRet : ℤ)

/-- What the loop ends with: the last draft, its size for the fee, and the final outputs and fee. -/
structure Finished where
  draft : Draft
  nBytes : ℕ
  vout : List DraftOut
  nFeeRet : ℤ
deriving DecidableEq

/-- The transaction, and the end of the loop it comes from. -/
structure Created where
  finished : Finished
  vin : List CTxIn
  nLockTime : ℕ
deriving DecidableEq

namespace CreateTransaction

def orAbort {α : Type} (x : Except Fault α) : Except CreateStop α := x.mapError .fault

def fail {α : Type} (strFailReason : String) : Except CreateStop α := .error (.failed strFailReason)

section

variable (R : AmountReading) (env : CreateEnv) (coinControl : Option CCoinControl)
  (vecSend : List CRecipient)

def amount (n : ℤ) : Except CreateStop ℤ := orAbort (R.value n)

/-- The sum of the amounts and the number of recipients that pay the fee. -/
def sumRecipients : List CRecipient → ℤ → ℕ → Except CreateStop (ℤ × ℕ)
  | [], nValue, nSubtract => .ok (nValue, nSubtract)
  | recipient :: recipients, nValue, nSubtract =>
    if nValue < 0 ∨ recipient.nAmount < 0 then fail "Transaction amounts must not be negative"
    else do
      let nValue ← amount R (nValue + recipient.nAmount)
      sumRecipients recipients nValue
        (nSubtract + if recipient.fSubtractFeeFromAmount then 1 else 0)

/-- The height as an unsigned number, or sometimes one a little further back. -/
def chooseLockTime : ℕ :=
  match env.lockTimeBack with
  | none => (env.nHeight % 4294967296).toNat
  | some back => (max 0 (env.nHeight - back.val)).toNat

def lockTime : Except Fault ℕ := do
  assertThat (chooseLockTime env ≤ env.nHeight % 4294967296)
    "txNew.nLockTime <= (unsigned int)chainActive.Height()"
  assertThat (chooseLockTime env < LOCKTIME_THRESHOLD) "txNew.nLockTime < LOCKTIME_THRESHOLD"
  return chooseLockTime env

def dustThresholdOf (script : CScript) : Except CreateStop ℤ :=
  orAbort (getDustThreshold R env.dustRelayFee script)

/-- The first recipient that pays has what does not divide by their number subtracted too. -/
def subtractRemainder (nFeeRet : ℤ) (nSubtract : ℕ) (fFirst : Bool) (nValue : ℤ) :
    Except CreateStop ℤ :=
  if fFirst then amount R (nValue - nFeeRet.tmod nSubtract) else .ok nValue

def deductFee (nFeeRet : ℤ) (nSubtract : ℕ) (fFirst : Bool) (recipient : CRecipient) :
    Except CreateStop ℤ :=
  if recipient.fSubtractFeeFromAmount then do
    let nValue ← amount R (recipient.nAmount - nFeeRet.tdiv nSubtract)
    subtractRemainder R nFeeRet nSubtract fFirst nValue
  else .ok recipient.nAmount

def dustReason (nFeeRet : ℤ) (recipient : CRecipient) (nValue : ℤ) : String :=
  if recipient.fSubtractFeeFromAmount ∧ nFeeRet > 0 then
    if nValue < 0 then "The transaction amount is too small to pay the fee"
    else "The transaction amount is too small to send after the fee has been deducted"
  else "Transaction amount too small"

def payRecipients (nFeeRet : ℤ) (nSubtract : ℕ) :
    Bool → List CRecipient → Except CreateStop (List DraftOut)
  | _, [] => .ok []
  | fFirst, recipient :: recipients => do
    let nValue ← deductFee R nFeeRet nSubtract fFirst recipient
    let nThreshold ← dustThresholdOf R env recipient.scriptPubKey
    if nValue < nThreshold then fail (dustReason nFeeRet recipient nValue)
    else do
      let vout ← payRecipients nFeeRet nSubtract
        (fFirst && !recipient.fSubtractFeeFromAmount) recipients
      return ⟨nValue, recipient.scriptPubKey⟩ :: vout

def valueToSelect (nValue nFeeRet : ℤ) (nSubtract : ℕ) : Except CreateStop ℤ :=
  if nSubtract = 0 then amount R (nValue + nFeeRet) else .ok nValue

/-- The first recipient that pays the fee pays for raising the change too. -/
def deductDust (nDust : ℤ) :
    List CRecipient → List DraftOut → Except CreateStop (List DraftOut)
  | recipient :: recipients, txout :: vout =>
    if recipient.fSubtractFeeFromAmount then do
      let nValue ← amount R (txout.nValue - nDust)
      let nThreshold ← dustThresholdOf R env txout.scriptPubKey
      if nValue < nThreshold then
        fail "The transaction amount is too small to send after the fee has been deducted"
      else return ⟨nValue, txout.scriptPubKey⟩ :: vout
    else do
      let rest ← deductDust nDust recipients vout
      return txout :: rest
  | _, vout => .ok vout

/-- Change that is dust is raised if recipients pay the fee. -/
def raiseChange (nSubtract : ℕ) (nChange nThreshold : ℤ) (vout : List DraftOut) :
    Except CreateStop (ℤ × List DraftOut) :=
  if nSubtract > 0 ∧ nChange < nThreshold then do
    let nDust ← amount R (nThreshold - nChange)
    let nValue ← amount R (nChange + nDust)
    let vout ← deductDust R env nDust vecSend vout
    return (nValue, vout)
  else .ok (nChange, vout)

/-- The position of the change among the outputs. The one asked for is an `int` and compared as an
unsigned number. -/
def changePosition (nPass : ℕ) (nChangePosRequest : ℤ) (nSize : ℕ) : Except CreateStop ℕ :=
  if nChangePosRequest = -1 then .ok (env.randomPosition nPass nSize)
  else if nChangePosRequest % 4294967296 > nSize then fail "Change index out of range"
  else if nChangePosRequest < 0 then .error (.fault .indexOutOfRange)
  else .ok (nChangePosRequest % 4294967296).toNat

/-- The change is put among the outputs, or added to the fee if it is dust. -/
def placeChange (nPass : ℕ) (nChangePosRequest nFeeRet nChange nThreshold : ℤ)
    (script : CScript) (raised : ℤ × List DraftOut) :
    Except CreateStop (List DraftOut × Option ℕ × ℤ) :=
  if raised.1 < nThreshold then do
    let nFeeRet ← amount R (nFeeRet + nChange)
    return (raised.2, none, nFeeRet)
  else do
    let nChangePos ← changePosition env nPass nChangePosRequest raised.2.length
    return (raised.2.insertIdx nChangePos ⟨raised.1, script⟩, some nChangePos, nFeeRet)

/-- The outputs with the change, its position and the fee. -/
def addChange (nPass : ℕ) (nChangePosRequest : ℤ) (nSubtract : ℕ) (nFeeRet nChange : ℤ)
    (vout : List DraftOut) : Except CreateStop (List DraftOut × Option ℕ × ℤ) :=
  if nChange > 0 then
    match env.scriptChange nPass with
    | none => fail "Keypool ran out, please call keypoolrefill first"
    | some script => do
      let nThreshold ← dustThresholdOf R env script
      let raised ← raiseChange R env vecSend nSubtract nChange nThreshold vout
      placeChange R env nPass nChangePosRequest nFeeRet nChange nThreshold script raised
  else .ok (vout, none, nFeeRet)

def inputOf (coin : COutPoint) : CTxIn :=
  ⟨coin, [], 0xffffffff - (if env.fWalletRbf then 2 else 1), []⟩

/-- A selection that did not succeed ends the loop. -/
def requireFunds (sel : Selection) : Except CreateStop Unit :=
  if sel.res then .ok () else fail "Insufficient funds"

/-- One pass, up to where its size is computed. -/
def buildDraft (vAvailableCoins : List COutput) (nChangePosRequest nValue : ℤ) (nSubtract nPass : ℕ)
    (nFeeRet : ℤ) : Except CreateStop Draft := do
  let nValueToSelect ← valueToSelect R nValue nFeeRet nSubtract
  let vout ← payRecipients R env nFeeRet nSubtract true vecSend
  let sel ← orAbort (CoinSelection.selectCoins R env.view env.options (env.choices nPass)
    vAvailableCoins nValueToSelect coinControl)
  requireFunds sel
  orAbort (assertThat (∀ coin ∈ sel.setCoinsRet, 0 ≤ env.getDepthInMainChain coin) "age >= 0")
  let nChange ← amount R (sel.nValueRet - nValueToSelect)
  let change ← addChange R env vecSend nPass nChangePosRequest nSubtract nFeeRet nChange vout
  return {
    setCoins := sel.setCoinsRet
    vin := (env.setOrder.elems sel.setCoinsRet).map (inputOf env)
    vout := change.1
    nChangePos := change.2.1
    nFeeRet := change.2.2 }

def signInputs (signature : ℕ → CTxIn → Option SignatureData) :
    ℕ → List CTxIn → Option (List CTxIn)
  | _, [] => some []
  | nIn, txin :: vin => do
    let sigdata ← signature nIn txin
    let rest ← signInputs signature (nIn + 1) vin
    return { txin with scriptSig := sigdata.1, scriptWitness := sigdata.2 } :: rest

/-- The weight, which the values of the outputs do not change. -/
def draftWeight (vin : List CTxIn) (vout : List DraftOut) : ℕ :=
  getTransactionWeight ⟨1, vin, vout.map fun txout => ⟨0, txout.scriptPubKey⟩, 0⟩

/-- `unsigned int nBytes`, the virtual size. -/
def draftSize (draft : Draft) : Except CreateStop ℕ :=
  match signInputs (fun _ txin => env.dummySignature txin.prevout) 0 draft.vin with
  | none => fail "Signing transaction failed"
  | some vin => .ok ((draftWeight vin draft.vout + 3) / 4 % 2 ^ 32)

/-- The fee that coin control asks for in place of a fee. -/
def controlFee (nFeeNeeded : ℤ) (nBytes : ℕ) : Option CCoinControl → Except Fault ℤ
  | none => .ok nFeeNeeded
  | some coinControl =>
    if coinControl.fOverrideFeeRate then coinControl.nFeeRate.feeFor R nBytes
    else if nFeeNeeded > 0 ∧ coinControl.nMinimumTotalFee > nFeeNeeded then
      .ok coinControl.nMinimumTotalFee
    else .ok nFeeNeeded

def changeBy (delta : ℤ) (vout : List DraftOut) (nChangePos : ℕ) :
    Except CreateStop (List DraftOut) := do
  let txout ← orAbort (vectorAt vout nChangePos)
  let nValue ← amount R (txout.nValue + delta)
  return vout.set nChangePos ⟨nValue, txout.scriptPubKey⟩

/-- The fee is enough; what there is too much of it goes back to the change. -/
def giveBack (nSubtract : ℕ) (draft : Draft) (nFeeNeeded : ℤ) : Except CreateStop PassEnd :=
  match draft.nChangePos with
  | none => .ok (.done draft.vout draft.nFeeRet)
  | some nChangePos =>
    if draft.nFeeRet > nFeeNeeded ∧ nSubtract = 0 then do
      let extraFeePaid ← amount R (draft.nFeeRet - nFeeNeeded)
      let vout ← changeBy R extraFeePaid draft.vout nChangePos
      let nFeeRet ← amount R (draft.nFeeRet - extraFeePaid)
      return .done vout nFeeRet
    else .ok (.done draft.vout draft.nFeeRet)

/-- The missing fee is taken from the change if enough of it remains. -/
def takeFromChange (nSubtract : ℕ) (draft : Draft) (nFeeNeeded : ℤ) : Except CreateStop PassEnd :=
  match draft.nChangePos with
  | none => .ok (.again nFeeNeeded)
  | some nChangePos =>
    if nSubtract = 0 then do
      let additionalFeeNeeded ← amount R (nFeeNeeded - draft.nFeeRet)
      let txout ← orAbort (vectorAt draft.vout nChangePos)
      let nLeast ← amount R (MIN_FINAL_CHANGE + additionalFeeNeeded)
      if txout.nValue ≥ nLeast then do
        let vout ← changeBy R (-additionalFeeNeeded) draft.vout nChangePos
        let nFeeRet ← amount R (draft.nFeeRet + additionalFeeNeeded)
        return .done vout nFeeRet
      else return .again nFeeNeeded
    else .ok (.again nFeeNeeded)

/-- The fee of a draft that is not free is compared with what it asks for. -/
def settleFee (nSubtract : ℕ) (draft : Draft) (nBytes : ℕ) : Except CreateStop PassEnd := do
  let nMinimum ← orAbort (env.getMinimumFee draft.vout nBytes)
  let nFeeNeeded ← orAbort (controlFee R nMinimum nBytes coinControl)
  let nRelayFee ← orAbort (env.minRelayTxFee.feeFor R nBytes)
  if nFeeNeeded < nRelayFee then fail "Transaction too large for fee policy"
  else if draft.nFeeRet ≥ nFeeNeeded then giveBack R nSubtract draft nFeeNeeded
  else takeFromChange R nSubtract draft nFeeNeeded

def isFree (draft : Draft) (nBytes : ℕ) : Bool :=
  env.fSendFreeTransactions && nBytes ≤ MAX_FREE_TRANSACTION_CREATE_SIZE &&
    env.enoughPriority draft.setCoins draft.vout nBytes

def endPass (nSubtract : ℕ) (draft : Draft) (nBytes : ℕ) : Except CreateStop PassEnd :=
  if isFree env draft nBytes then .ok (.done draft.vout draft.nFeeRet)
  else settleFee R env coinControl nSubtract draft nBytes

/-- The loop over the fee. It returns nothing if it runs out of fuel. -/
def feeLoop (vAvailableCoins : List COutput) (nChangePosRequest nValue : ℤ) (nSubtract : ℕ) :
    ℕ → ℕ → ℤ → Except CreateStop (Option Finished)
  | 0, _, _ => .ok none
  | fuel + 1, nPass, nFeeRet => do
    let draft ← buildDraft R env coinControl vecSend vAvailableCoins nChangePosRequest nValue
      nSubtract nPass nFeeRet
    let nBytes ← draftSize env draft
    match ← endPass R env coinControl nSubtract draft nBytes with
    | .done vout nFeeRet => return some ⟨draft, nBytes, vout, nFeeRet⟩
    | .again nFeeRet =>
      feeLoop vAvailableCoins nChangePosRequest nValue nSubtract fuel (nPass + 1) nFeeRet

def signFinal (sign : Bool) (finished : Finished) : Except CreateStop (List CTxIn) :=
  if sign then
    match signInputs (fun nIn _ => env.produceSignature finished.draft.vin finished.vout nIn) 0
      finished.draft.vin with
    | none => fail "Signing transaction failed"
    | some vin => .ok vin
  else .ok finished.draft.vin

def checkFinal (vin : List CTxIn) (vout : List DraftOut) : Except CreateStop Unit :=
  if draftWeight vin vout ≥ MAX_STANDARD_TX_WEIGHT then fail "Transaction too large"
  else if env.options.fRejectLongChains ∧ env.withinChainLimits vin vout = false then
    fail "Transaction has too long of a mempool chain"
  else .ok ()

def finish (sign : Bool) (nLockTime : ℕ) : Option Finished → Except CreateStop (Option Created)
  | none => .ok none
  | some finished => do
    let vin ← signFinal env sign finished
    checkFinal env vin finished.vout
    return some ⟨finished, vin, nLockTime⟩

def createTransaction (vAvailableCoins : List COutput) (nChangePosRequest : ℤ) (sign : Bool)
    (fuel : ℕ) : Except CreateStop (Option Created) := do
  let sums ← sumRecipients R vecSend 0 0
  if vecSend.isEmpty then fail "Transaction must have at least one recipient"
  else do
    let nLockTime ← orAbort (lockTime env)
    let finished ← feeLoop R env coinControl vecSend vAvailableCoins nChangePosRequest sums.1 sums.2
      fuel 0 0
    finish env sign nLockTime finished

end

end CreateTransaction

end Coinyecoin
