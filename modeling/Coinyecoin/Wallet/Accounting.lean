import Coinyecoin.Mempool.Pool
import Coinyecoin.Wallet.CreateTransaction
import Mathlib.Data.Prod.Lex

/-!
# Creating a transaction accounts for every coin

Every draft is the payments to the recipients with the change among them, and its
outputs and its fee are worth the selected coins. What the end of a pass moves between
the change and the fee keeps that. Each new draft has more fee than the last, and
there is a bound: the coins if nobody else pays it, and otherwise what the first
recipient that pays can lose without its output becoming dust.
-/

namespace Coinyecoin

namespace CreateTransaction

open Foundation List CoinSelection

variable {nValue : ℤ} {change : DraftOut}

def totalOut (vout : List DraftOut) : ℤ := (vout.map DraftOut.nValue).sum

def totalAmount (vecSend : List CRecipient) : ℤ := (vecSend.map CRecipient.nAmount).sum

def payers (vecSend : List CRecipient) : ℕ := vecSend.countP CRecipient.fSubtractFeeFromAmount

/-- The output goes to the recipient, with exactly its amount if it does not pay the fee. -/
def PaidBy (recipient : CRecipient) (txout : DraftOut) : Prop :=
  txout.scriptPubKey = recipient.scriptPubKey ∧
    (recipient.fSubtractFeeFromAmount = false → txout.nValue = recipient.nAmount)

/-- The outputs are the payments with the change, if there is one, at its position. -/
def WithChange (payments : List DraftOut) : Option ℕ → List DraftOut → Prop
  | none, vout => vout = payments
  | some nChangePos, vout =>
    nChangePos ≤ payments.length ∧ ∃ change, vout = payments.insertIdx nChangePos change

def NotDust (R : AmountReading) (dustRelayFee : CFeeRate) (txout : DraftOut) : Prop :=
  ∃ t, getDustThreshold R dustRelayFee txout.scriptPubKey = .ok t ∧ t ≤ txout.nValue

section

variable {α : Type} {a : α} {n : ℕ}

theorem orAbort_eq_ok {x : Except Fault α} : orAbort x = .ok a ↔ x = .ok a := mapError_eq_ok

variable {R : AmountReading}

theorem amount_eq_ok {n v : ℤ} : amount R n = .ok v ↔ R.Has n ∧ v = n :=
  orAbort_eq_ok.trans AmountReading.value_eq_ok

theorem amount_bind_eq_ok {n : ℤ} {f : ℤ → Except CreateStop α} :
    amount R n >>= f = .ok a ↔ R.Has n ∧ f n = .ok a := by
  rw [bind_eq_ok]
  constructor
  · rintro ⟨v, hv, h⟩
    obtain ⟨hhas, rfl⟩ := amount_eq_ok.1 hv
    exact ⟨hhas, h⟩
  · rintro ⟨hhas, h⟩
    exact ⟨n, amount_eq_ok.2 ⟨hhas, rfl⟩, h⟩

theorem fail_ne_ok {reason : String} : fail reason ≠ .ok a := by
  simp [fail]

theorem totalOut_cons (txout : DraftOut) (vout : List DraftOut) :
    totalOut (txout :: vout) = txout.nValue + totalOut vout := by
  simp [totalOut]

theorem totalOut_insertIdx {vout : List DraftOut} (h : n ≤ vout.length)
    (txout : DraftOut) : totalOut (vout.insertIdx n txout) = txout.nValue + totalOut vout := by
  rw [← totalOut_cons]
  exact ((perm_insertIdx txout vout h).map _).sum_eq

variable (recipient : CRecipient) (vecSend : List CRecipient)

theorem totalAmount_cons :
    totalAmount (recipient :: vecSend) = recipient.nAmount + totalAmount vecSend := by
  simp [totalAmount]

theorem payers_cons :
    payers (recipient :: vecSend) =
      payers vecSend + if recipient.fSubtractFeeFromAmount then 1 else 0 := by
  simp [payers, countP_cons]

theorem set_insertIdx_self {l : List α} (h : n ≤ l.length) (a b : α) :
    (l.insertIdx n a).set n b = l.insertIdx n b := by
  induction l generalizing n with
  | nil =>
    obtain rfl : n = 0 := Nat.le_zero.1 h
    rfl
  | cons c l ih =>
    cases n with
    | zero => rfl
    | succ n => simp [ih (Nat.le_of_succ_le_succ h)]

end

section

variable {R : AmountReading} {env : CreateEnv} {vecSend : List CRecipient} {nSubtract : ℕ}
  {vout : List DraftOut} {fFirst : Bool} {nFeeRet : ℤ}

theorem sumRecipients_eq_ok {sums : ℤ × ℕ}
    (h : sumRecipients R vecSend nValue nSubtract = .ok sums) :
    sums = (nValue + totalAmount vecSend, nSubtract + payers vecSend) ∧
      ∀ recipient ∈ vecSend, 0 ≤ recipient.nAmount := by
  induction vecSend generalizing nValue nSubtract with
  | nil =>
    obtain rfl := Except.ok.inj h
    simp [totalAmount, payers]
  | cons recipient vecSend ih =>
    rw [sumRecipients] at h
    by_cases hneg : nValue < 0 ∨ recipient.nAmount < 0
    · rw [if_pos hneg] at h
      exact absurd h fail_ne_ok
    · rw [if_neg hneg] at h
      obtain ⟨-, h⟩ := amount_bind_eq_ok.1 h
      obtain ⟨hsums, hrest⟩ := ih h
      refine ⟨?_, forall_mem_cons.2 ⟨by omega, hrest⟩⟩
      rw [hsums, totalAmount_cons, payers_cons, add_assoc, add_assoc, add_comm (payers vecSend)]

theorem totalAmount_nonneg (h : ∀ recipient ∈ vecSend, 0 ≤ recipient.nAmount) :
    0 ≤ totalAmount vecSend := by
  refine sum_nonneg fun n hn => ?_
  obtain ⟨recipient, hmem, rfl⟩ := mem_map.1 hn
  exact h recipient hmem

def share (nFeeRet : ℤ) (nSubtract : ℕ) (fFirst : Bool) (recipient : CRecipient) : ℤ :=
  if recipient.fSubtractFeeFromAmount then
    nFeeRet.tdiv nSubtract + if fFirst then nFeeRet.tmod nSubtract else 0
  else 0

theorem deductFee_eq_ok {nFeeRet v : ℤ} {recipient : CRecipient}
    (h : deductFee R nFeeRet nSubtract fFirst recipient = .ok v) :
    v = recipient.nAmount - share nFeeRet nSubtract fFirst recipient := by
  unfold deductFee at h
  unfold share
  split_ifs at h ⊢ with hpays hfirst
  · obtain ⟨-, h⟩ := amount_bind_eq_ok.1 h
    rw [subtractRemainder, if_pos hfirst] at h
    obtain ⟨-, rfl⟩ := amount_eq_ok.1 h
    omega
  · obtain ⟨-, h⟩ := amount_bind_eq_ok.1 h
    rw [subtractRemainder, if_neg hfirst] at h
    have := Except.ok.inj h
    omega
  · have := Except.ok.inj h
    omega

/-- The shares of the fee added up: equal parts, and the remainder once. -/
def shares (nFeeRet : ℤ) (nSubtract : ℕ) (fFirst : Bool) (vecSend : List CRecipient) : ℤ :=
  payers vecSend * nFeeRet.tdiv nSubtract +
    if fFirst = true ∧ 0 < payers vecSend then nFeeRet.tmod nSubtract else 0

theorem shares_cons (nFeeRet : ℤ) (nSubtract : ℕ) (fFirst : Bool) (recipient : CRecipient)
    (vecSend : List CRecipient) :
    shares nFeeRet nSubtract fFirst (recipient :: vecSend) =
      share nFeeRet nSubtract fFirst recipient +
        shares nFeeRet nSubtract (fFirst && !recipient.fSubtractFeeFromAmount) vecSend := by
  unfold shares share
  rw [payers_cons]
  cases recipient.fSubtractFeeFromAmount with
  | false => simp
  | true =>
    cases fFirst with
    | false => simp; ring
    | true => simp; ring

theorem shares_payers (nFeeRet : ℤ) (vecSend : List CRecipient) :
    shares nFeeRet (payers vecSend) true vecSend = if payers vecSend = 0 then 0 else nFeeRet := by
  unfold shares
  split_ifs with hany hzero hzero
  · omega
  · exact Int.mul_tdiv_add_tmod nFeeRet (payers vecSend)
  · simp [hzero]
  · exact absurd ⟨rfl, Nat.pos_of_ne_zero hzero⟩ hany

theorem payRecipients_eq_ok (h : payRecipients R env nFeeRet nSubtract fFirst vecSend = .ok vout) :
    List.Forall₂ PaidBy vecSend vout ∧ (∀ txout ∈ vout, NotDust R env.dustRelayFee txout) ∧
      totalOut vout = totalAmount vecSend - shares nFeeRet nSubtract fFirst vecSend := by
  induction vecSend generalizing fFirst vout with
  | nil =>
    obtain rfl := Except.ok.inj h
    simp [totalOut, totalAmount, shares, payers]
  | cons recipient vecSend ih =>
    obtain ⟨nValue, hvalue, h⟩ := bind_eq_ok.1 h
    obtain ⟨nThreshold, hthreshold, h⟩ := bind_eq_ok.1 h
    split_ifs at h with hdust
    · exact absurd h fail_ne_ok
    · obtain ⟨rest, hrest, h⟩ := bind_eq_ok.1 h
      obtain rfl := Except.ok.inj h
      obtain ⟨hpaid, hnotDust, htotal⟩ := ih hrest
      have hdeducted := deductFee_eq_ok hvalue
      refine ⟨.cons ⟨rfl, fun hnot => ?_⟩ hpaid, forall_mem_cons.2 ⟨?_, hnotDust⟩, ?_⟩
      · simp [hdeducted, share, hnot]
      · exact ⟨nThreshold, orAbort_eq_ok.1 hthreshold, not_lt.1 hdust⟩
      · rw [totalOut_cons, htotal, totalAmount_cons, shares_cons]
        change nValue + _ = _
        omega

theorem first_pays (h : payRecipients R env nFeeRet nSubtract true vecSend = .ok vout)
    (hany : 0 < payers vecSend) :
    ∃ recipient ∈ vecSend, nFeeRet.tdiv nSubtract + nFeeRet.tmod nSubtract ≤
      recipient.nAmount - dustThreshold env.dustRelayFee recipient.scriptPubKey := by
  induction vecSend generalizing vout with
  | nil => exact absurd hany (by simp [payers])
  | cons recipient vecSend ih =>
    obtain ⟨nValue, hvalue, h⟩ := bind_eq_ok.1 h
    obtain ⟨nThreshold, hthreshold, h⟩ := bind_eq_ok.1 h
    split_ifs at h with hdust
    · exact absurd h fail_ne_ok
    · obtain ⟨rest, hrest, h⟩ := bind_eq_ok.1 h
      have hdeducted := deductFee_eq_ok hvalue
      have hexact := getDustThreshold_eq_ok (orAbort_eq_ok.1 hthreshold)
      cases hpays : recipient.fSubtractFeeFromAmount with
      | true =>
        refine ⟨recipient, mem_cons_self, ?_⟩
        rw [share, if_pos hpays, if_pos rfl] at hdeducted
        omega
      | false =>
        rw [hpays] at hrest
        rw [payers_cons, hpays] at hany
        obtain ⟨other, hmem, hle⟩ := ih hrest (by simpa using hany)
        exact ⟨other, mem_cons_of_mem _ hmem, hle⟩

end

section

variable {R : AmountReading} {env : CreateEnv} {vecSend : List CRecipient}
  {placed : List DraftOut × Option ℕ × ℤ} {vout : List DraftOut} {raised : ℤ × List DraftOut}
  {nPass : ℕ}

theorem deductDust_eq_ok {nDust : ℤ} {vout vout' : List DraftOut}
    (h : deductDust R env nDust vecSend vout = .ok vout') (hpaid : List.Forall₂ PaidBy vecSend vout)
    (hnotDust : ∀ txout ∈ vout, NotDust R env.dustRelayFee txout) (hany : 0 < payers vecSend) :
    List.Forall₂ PaidBy vecSend vout' ∧ (∀ txout ∈ vout', NotDust R env.dustRelayFee txout) ∧
      totalOut vout' = totalOut vout - nDust := by
  induction hpaid generalizing vout' with
  | nil => exact absurd hany (by simp [payers])
  | @cons recipient txout vecSend vout hfirst hpaid ih =>
    obtain ⟨hdust, hnotDust⟩ := forall_mem_cons.1 hnotDust
    rw [deductDust] at h
    cases hpays : recipient.fSubtractFeeFromAmount with
    | true =>
      rw [if_pos hpays] at h
      obtain ⟨-, h⟩ := amount_bind_eq_ok.1 h
      obtain ⟨nThreshold, hthreshold, h⟩ := bind_eq_ok.1 h
      split_ifs at h with hlow
      · exact absurd h fail_ne_ok
      · obtain rfl := Except.ok.inj h
        refine ⟨.cons ⟨hfirst.1, fun hnot => ?_⟩ hpaid,
          forall_mem_cons.2 ⟨?_, hnotDust⟩, ?_⟩
        · exact absurd hnot (by simp [hpays])
        · exact ⟨nThreshold, orAbort_eq_ok.1 hthreshold, not_lt.1 hlow⟩
        · rw [totalOut_cons, totalOut_cons]
          change txout.nValue - nDust + _ = _
          omega
    | false =>
      rw [if_neg (by simp [hpays])] at h
      obtain ⟨rest, hrest, h⟩ := bind_eq_ok.1 h
      obtain rfl := Except.ok.inj h
      rw [payers_cons, hpays] at hany
      obtain ⟨hpaid', hnotDust', htotal⟩ := ih hrest hnotDust (by simpa using hany)
      refine ⟨.cons hfirst hpaid', forall_mem_cons.2 ⟨hdust, hnotDust'⟩, ?_⟩
      rw [totalOut_cons, totalOut_cons, htotal]
      omega

/-- Payments and change that are worth a sum together. -/
structure Parts (R : AmountReading) (env : CreateEnv) (vecSend : List CRecipient) (nTotal : ℤ)
    (nChange : ℤ) (payments : List DraftOut) : Prop where
  paid : List.Forall₂ PaidBy vecSend payments
  notDust : ∀ txout ∈ payments, NotDust R env.dustRelayFee txout
  total : nChange + totalOut payments = nTotal

theorem raiseChange_eq_ok {nTotal nChange nThreshold : ℤ}
    (hparts : Parts R env vecSend nTotal nChange vout)
    (h : raiseChange R env vecSend (payers vecSend) nChange nThreshold vout = .ok raised) :
    Parts R env vecSend nTotal raised.1 raised.2 ∧
      (raised.1 = nThreshold ∨ raised = (nChange, vout)) := by
  unfold raiseChange at h
  split_ifs at h with hraise
  · obtain ⟨-, hrest⟩ := amount_bind_eq_ok.1 h
    obtain ⟨-, hlast⟩ := amount_bind_eq_ok.1 hrest
    obtain ⟨vout', hvout, hraised⟩ := bind_eq_ok.1 hlast
    obtain rfl := Except.ok.inj hraised
    obtain ⟨hpaid, hnotDust, htotal⟩ :=
      deductDust_eq_ok hvout hparts.paid hparts.notDust hraise.1
    have hsum := hparts.total
    exact ⟨⟨hpaid, hnotDust, by dsimp only; omega⟩, .inl (by dsimp only; omega)⟩
  · obtain rfl := Except.ok.inj h
    exact ⟨hparts, .inr rfl⟩

theorem changePosition_le {nPass nSize pos : ℕ} {nChangePosRequest : ℤ}
    (h : changePosition env nPass nChangePosRequest nSize = .ok pos) : pos ≤ nSize := by
  unfold changePosition at h
  split_ifs at h with hrandom hrange hneg
  · obtain rfl := Except.ok.inj h
    exact Nat.le_of_lt_succ (env.randomPosition nPass nSize).isLt
  · exact absurd h fail_ne_ok
  · obtain rfl := Except.ok.inj h
    omega

theorem insertIdx_notDust {payments : List DraftOut} {pos : ℕ}
    (hnotDust : ∀ txout ∈ payments, NotDust R env.dustRelayFee txout)
    (hchange : NotDust R env.dustRelayFee change) :
    ∀ txout ∈ payments.insertIdx pos change, NotDust R env.dustRelayFee txout := by
  intro txout hmem
  rcases eq_or_mem_of_mem_insertIdx hmem with rfl | hold
  · exact hchange
  · exact hnotDust txout hold

/-- The outputs, the position of the change and the fee, all worth the payments, the change and the
fee before. -/
structure Placed (R : AmountReading) (env : CreateEnv) (vecSend : List CRecipient) (nTotal nFeeRet : ℤ)
    (placed : List DraftOut × Option ℕ × ℤ) : Prop where
  withChange : ∃ payments, List.Forall₂ PaidBy vecSend payments ∧
    WithChange payments placed.2.1 placed.1
  notDust : ∀ txout ∈ placed.1, NotDust R env.dustRelayFee txout
  total : totalOut placed.1 + placed.2.2 = nTotal + nFeeRet
  fee : nFeeRet ≤ placed.2.2

theorem placeChange_eq_ok {nChangePosRequest nTotal nFeeRet nChange nThreshold : ℤ}
    {script : CScript} (hpos : 0 < nChange)
    (hthreshold : getDustThreshold R env.dustRelayFee script = .ok nThreshold)
    (hparts : Parts R env vecSend nTotal raised.1 raised.2)
    (hraised : raised.1 = nThreshold ∨ raised = (nChange, vout))
    (h : placeChange R env nPass nChangePosRequest nFeeRet nChange nThreshold script raised =
      .ok placed) : Placed R env vecSend nTotal nFeeRet placed := by
  have hsum := hparts.total
  unfold placeChange at h
  split_ifs at h with hdust
  · obtain ⟨-, hplaced⟩ := amount_bind_eq_ok.1 h
    obtain rfl := Except.ok.inj hplaced
    -- dust that is left was not raised
    obtain rfl : raised = (nChange, vout) := hraised.resolve_left (by omega)
    dsimp only at hsum
    exact ⟨⟨vout, hparts.paid, rfl⟩, hparts.notDust, by dsimp only; omega, by dsimp only; omega⟩
  · obtain ⟨pos, hposition, hplaced⟩ := bind_eq_ok.1 h
    obtain rfl := Except.ok.inj hplaced
    have hle := changePosition_le hposition
    refine ⟨⟨raised.2, hparts.paid, hle, _, rfl⟩,
      insertIdx_notDust hparts.notDust ⟨nThreshold, hthreshold, not_lt.1 hdust⟩, ?_, le_rfl⟩
    rw [totalOut_insertIdx hle]
    exact congrArg (· + nFeeRet) hsum

theorem addChange_eq_ok {nChangePosRequest nFeeRet nChange : ℤ} {nTotal : ℤ}
    (hparts : Parts R env vecSend nTotal nChange vout) (hnonneg : 0 ≤ nChange)
    (h : addChange R env vecSend nPass nChangePosRequest (payers vecSend) nFeeRet nChange vout =
      .ok placed) : Placed R env vecSend nTotal nFeeRet placed := by
  have hsum := hparts.total
  unfold addChange at h
  split_ifs at h with hpos
  · cases hscript : env.scriptChange nPass with
    | none =>
      rw [hscript] at h
      exact absurd h fail_ne_ok
    | some script =>
      rw [hscript] at h
      obtain ⟨nThreshold, hthreshold, hrest⟩ := bind_eq_ok.1 h
      obtain ⟨raised, hraise, hplace⟩ := bind_eq_ok.1 hrest
      obtain ⟨hparts', hraised⟩ := raiseChange_eq_ok hparts hraise
      exact placeChange_eq_ok hpos (orAbort_eq_ok.1 hthreshold) hparts' hraised hplace
  · obtain rfl := Except.ok.inj h
    exact ⟨⟨vout, hparts.paid, rfl⟩, hparts.notDust, by dsimp only; omega, le_rfl⟩

end

section

variable {R : AmountReading} {env : CreateEnv} {coinControl : Option CCoinControl}
  {vecSend : List CRecipient} {vAvailableCoins : List COutput} {nChangePosRequest : ℤ}

/-- A draft whose outputs and fee are worth its coins. -/
structure SoundDraft (R : AmountReading) (env : CreateEnv) (vecSend : List CRecipient)
    (draft : Draft) : Prop where
  withChange : ∃ payments, List.Forall₂ PaidBy vecSend payments ∧
    WithChange payments draft.nChangePos draft.vout
  notDust : ∀ txout ∈ draft.vout, NotDust R env.dustRelayFee txout
  total : totalOut draft.vout + draft.nFeeRet = ∑ coin ∈ draft.setCoins, env.view.nValue coin
  inputs : draft.vin.map CTxIn.prevout = env.setOrder.elems draft.setCoins

def allCoins (env : CreateEnv) (coinControl : Option CCoinControl)
    (vAvailableCoins : List COutput) : List ValuedCoin :=
  vAvailableCoins.map (CoinSelection.valued env.view) ++
    (CoinSelection.presetInputs coinControl).map fun o => (env.view.nValue o, o)

theorem valueToSelect_eq_ok {nValue nFeeRet v : ℤ} {nSubtract : ℕ}
    (h : valueToSelect R nValue nFeeRet nSubtract = .ok v) :
    v = nValue + if nSubtract = 0 then nFeeRet else 0 := by
  unfold valueToSelect at h
  split_ifs at h ⊢ with hzero
  · exact (amount_eq_ok.1 h).2
  · rw [add_zero]
    exact (Except.ok.inj h).symm

/-- One pass: its draft is sound, has at least the fee it was built with, and that fee was paid by
the coins or by the recipients. -/
theorem buildDraft_eq_ok (havailable : CoinSelection.Available env.view vAvailableCoins) {nPass : ℕ}
    {nFeeRet : ℤ} {draft : Draft}
    (h : buildDraft R env coinControl vecSend vAvailableCoins nChangePosRequest (totalAmount vecSend)
      (payers vecSend) nPass nFeeRet = .ok draft) :
    SoundDraft R env vecSend draft ∧ nFeeRet ≤ draft.nFeeRet ∧
      ((payers vecSend = 0 ∧ draft.setCoins ⊆
          coinSet (allCoins env coinControl vAvailableCoins) ∧
          totalAmount vecSend + nFeeRet ≤ ∑ coin ∈ draft.setCoins, env.view.nValue coin) ∨
        (0 < payers vecSend ∧ ∃ recipient ∈ vecSend,
          nFeeRet.tdiv (payers vecSend) + nFeeRet.tmod (payers vecSend) ≤
            recipient.nAmount - dustThreshold env.dustRelayFee recipient.scriptPubKey)) := by
  obtain ⟨nValueToSelect, hselect, h1⟩ := bind_eq_ok.1 h
  obtain ⟨vout, hvout, h2⟩ := bind_eq_ok.1 h1
  obtain ⟨sel, hsel, h3⟩ := bind_eq_ok.1 h2
  obtain ⟨u, hfunds, h4⟩ := bind_eq_ok.1 h3
  obtain ⟨u', -, h5⟩ := bind_eq_ok.1 h4
  obtain ⟨-, h6⟩ := amount_bind_eq_ok.1 h5
  obtain ⟨placed, hplaced, h7⟩ := bind_eq_ok.1 h6
  obtain rfl := Except.ok.inj h7
  have hres : sel.res = true := by
    unfold requireFunds at hfunds
    split_ifs at hfunds with hres
    · exact hres
    · exact absurd hfunds fail_ne_ok
  obtain ⟨hsub, hsum, hreach⟩ :=
    selectCoins_accounts havailable (orAbort_eq_ok.1 hsel) hres
  have htarget := valueToSelect_eq_ok hselect
  obtain ⟨hpaid, hnotDust, htotal⟩ := payRecipients_eq_ok hvout
  rw [shares_payers] at htotal
  have hparts : Parts R env vecSend (sel.nValueRet - nFeeRet) (sel.nValueRet - nValueToSelect)
      vout := by
    refine ⟨hpaid, hnotDust, ?_⟩
    rw [htotal, htarget]
    split_ifs <;> omega
  obtain ⟨hwith, hnotDust', htotal', hfee⟩ := addChange_eq_ok hparts (by omega) hplaced
  refine ⟨⟨hwith, hnotDust', ?_, ?_⟩, hfee, ?_⟩
  · change _ = ∑ coin ∈ sel.setCoinsRet, _
    rw [htotal', hsum]
    omega
  · rw [map_map]
    exact map_id _
  · rcases Nat.eq_zero_or_pos (payers vecSend) with hzero | hany
    · refine .inl ⟨hzero, hsub, ?_⟩
      change _ ≤ ∑ coin ∈ sel.setCoinsRet, _
      rw [if_pos hzero] at htarget
      omega
    · exact .inr ⟨hany, first_pays hvout hany⟩

variable {draft : Draft} {nBytes nSubtract : ℕ} {e : PassEnd} {nChangePos : ℕ} {nFeeNeeded : ℤ}

/-- The fee that outputs of a size ask for, which covers the relay fee for the size. -/
structure FeeNeeded (R : AmountReading) (env : CreateEnv) (coinControl : Option CCoinControl)
    (vout : List DraftOut) (nBytes : ℕ) (nFeeNeeded : ℤ) : Prop where
  minimum : ∃ nMinimum, env.getMinimumFee vout nBytes = .ok nMinimum ∧
    controlFee R nMinimum nBytes coinControl = .ok nFeeNeeded
  relay : ∃ nRelayFee, env.minRelayTxFee.feeFor R nBytes = .ok nRelayFee ∧ nRelayFee ≤ nFeeNeeded

/-- What can become of a draft when its fee is compared with the one it needs. -/
inductive Settles (draft : Draft) (nFeeNeeded : ℤ) : PassEnd → Prop
  | enough (h : nFeeNeeded ≤ draft.nFeeRet) : Settles draft nFeeNeeded (.done draft.vout draft.nFeeRet)
  | moved {nChangePos : ℕ} {change : DraftOut} (hpos : draft.nChangePos = some nChangePos)
      (hchange : draft.vout[nChangePos]? = some change)
      (hkeeps : nFeeNeeded < draft.nFeeRet ∨
        MIN_FINAL_CHANGE ≤ change.nValue + (draft.nFeeRet - nFeeNeeded)) :
      Settles draft nFeeNeeded (.done (draft.vout.set nChangePos
        ⟨change.nValue + (draft.nFeeRet - nFeeNeeded), change.scriptPubKey⟩) nFeeNeeded)
  | again (h : draft.nFeeRet < nFeeNeeded) : Settles draft nFeeNeeded (.again nFeeNeeded)

theorem changeBy_eq_ok {delta : ℤ} {vout vout' : List DraftOut}
    (h : changeBy R delta vout nChangePos = .ok vout') :
    ∃ change, vout[nChangePos]? = some change ∧
      vout' = vout.set nChangePos ⟨change.nValue + delta, change.scriptPubKey⟩ := by
  obtain ⟨change, hchange, hrest⟩ := bind_eq_ok.1 h
  obtain ⟨-, hset⟩ := amount_bind_eq_ok.1 hrest
  exact ⟨change, vectorAt_eq_ok.1 (orAbort_eq_ok.1 hchange), (Except.ok.inj hset).symm⟩

theorem giveBack_settles
    (hle : nFeeNeeded ≤ draft.nFeeRet) (h : giveBack R nSubtract draft nFeeNeeded = .ok e) :
    Settles draft nFeeNeeded e := by
  unfold giveBack at h
  cases hpos : draft.nChangePos with
  | none =>
    rw [hpos] at h
    obtain rfl := Except.ok.inj h
    exact .enough hle
  | some nChangePos =>
    rw [hpos] at h
    dsimp only at h
    split_ifs at h with hmore
    · obtain ⟨-, h1⟩ := amount_bind_eq_ok.1 h
      obtain ⟨vout, hvout, h2⟩ := bind_eq_ok.1 h1
      obtain ⟨-, h3⟩ := amount_bind_eq_ok.1 h2
      obtain rfl := Except.ok.inj h3
      obtain ⟨change, hchange, rfl⟩ := changeBy_eq_ok hvout
      rw [sub_sub_cancel]
      exact .moved hpos hchange (.inl hmore.1)
    · obtain rfl := Except.ok.inj h
      exact .enough hle

theorem takeFromChange_settles (hlt : draft.nFeeRet < nFeeNeeded)
    (h : takeFromChange R nSubtract draft nFeeNeeded = .ok e) : Settles draft nFeeNeeded e := by
  unfold takeFromChange at h
  cases hpos : draft.nChangePos with
  | none =>
    rw [hpos] at h
    obtain rfl := Except.ok.inj h
    exact .again hlt
  | some nChangePos =>
    rw [hpos] at h
    dsimp only at h
    split_ifs at h with hzero
    · obtain ⟨-, h1⟩ := amount_bind_eq_ok.1 h
      obtain ⟨change, hchange, h2⟩ := bind_eq_ok.1 h1
      obtain ⟨-, h3⟩ := amount_bind_eq_ok.1 h2
      split_ifs at h3 with henough
      · obtain ⟨vout, hvout, h4⟩ := bind_eq_ok.1 h3
        obtain ⟨-, h5⟩ := amount_bind_eq_ok.1 h4
        obtain rfl := Except.ok.inj h5
        obtain ⟨change', hchange', rfl⟩ := changeBy_eq_ok hvout
        obtain rfl : change = change' :=
          Option.some.inj ((vectorAt_eq_ok.1 (orAbort_eq_ok.1 hchange)).symm.trans hchange')
        rw [neg_sub, add_sub_cancel]
        exact .moved hpos hchange' (.inr (by omega))
      · obtain rfl := Except.ok.inj h3
        exact .again hlt
    · obtain rfl := Except.ok.inj h
      exact .again hlt

theorem endPass_eq_ok (h : endPass R env coinControl nSubtract draft nBytes = .ok e) :
    (isFree env draft nBytes = true ∧ e = .done draft.vout draft.nFeeRet) ∨
      ∃ nFeeNeeded, FeeNeeded R env coinControl draft.vout nBytes nFeeNeeded ∧
        Settles draft nFeeNeeded e := by
  unfold endPass at h
  split_ifs at h with hfree
  · exact .inl ⟨hfree, (Except.ok.inj h).symm⟩
  · obtain ⟨nMinimum, hminimum, h1⟩ := bind_eq_ok.1 h
    obtain ⟨nFeeNeeded, hneeded, h2⟩ := bind_eq_ok.1 h1
    obtain ⟨nRelayFee, hrelay, h3⟩ := bind_eq_ok.1 h2
    by_cases hlow : nFeeNeeded < nRelayFee
    · rw [if_pos hlow] at h3
      exact absurd h3 fail_ne_ok
    · rw [if_neg hlow] at h3
      refine .inr ⟨nFeeNeeded, ⟨⟨nMinimum, orAbort_eq_ok.1 hminimum, orAbort_eq_ok.1 hneeded⟩,
        nRelayFee, orAbort_eq_ok.1 hrelay, not_lt.1 hlow⟩, ?_⟩
      split_ifs at h3 with henough
      · exact giveBack_settles henough h3
      · exact takeFromChange_settles (not_le.1 henough) h3

theorem withChange_set {payments vout : List DraftOut}
    (h : WithChange payments (some nChangePos) vout) (hchange : vout[nChangePos]? = some change) :
    WithChange payments (some nChangePos) (vout.set nChangePos ⟨nValue, change.scriptPubKey⟩) ∧
      totalOut (vout.set nChangePos ⟨nValue, change.scriptPubKey⟩) =
        totalOut vout + (nValue - change.nValue) := by
  obtain ⟨hle, change', rfl⟩ := h
  have hsame : change' = change := by
    rw [getElem?_insertIdx_self, if_pos hle] at hchange
    exact Option.some.inj hchange
  rw [set_insertIdx_self hle]
  refine ⟨⟨hle, _, rfl⟩, ?_⟩
  rw [totalOut_insertIdx hle, totalOut_insertIdx hle, hsame]
  change nValue + _ = _
  omega

end

section

variable {R : AmountReading} {env : CreateEnv} {coinControl : Option CCoinControl}
  {vecSend : List CRecipient} {vAvailableCoins : List COutput} {nChangePosRequest : ℤ} {nFeeRet : ℤ}
  {fuel nPass : ℕ}

theorem feeLoop_eq_some (havailable : CoinSelection.Available env.view vAvailableCoins)
    (hnonneg : 0 ≤ nFeeRet) {finished : Finished}
    (h : feeLoop R env coinControl vecSend vAvailableCoins nChangePosRequest (totalAmount vecSend)
      (payers vecSend) fuel nPass nFeeRet = .ok (some finished)) :
    SoundDraft R env vecSend finished.draft ∧ 0 ≤ finished.draft.nFeeRet ∧
      draftSize env finished.draft = .ok finished.nBytes ∧
      endPass R env coinControl (payers vecSend) finished.draft finished.nBytes =
        .ok (.done finished.vout finished.nFeeRet) := by
  induction fuel generalizing nPass nFeeRet with
  | zero => cases Except.ok.inj h
  | succ fuel ih =>
    obtain ⟨draft, hdraft, h1⟩ := bind_eq_ok.1 h
    obtain ⟨nBytes, hsize, h2⟩ := bind_eq_ok.1 h1
    obtain ⟨e, hend, h3⟩ := bind_eq_ok.1 h2
    obtain ⟨hsound, hfee, -⟩ := buildDraft_eq_ok havailable hdraft
    cases e with
    | done vout nFee =>
      obtain rfl := Option.some.inj (Except.ok.inj h3)
      exact ⟨hsound, hnonneg.trans hfee, hsize, hend⟩
    | again nFee =>
      refine ih ?_ h3
      rcases endPass_eq_ok hend with ⟨-, hdone⟩ | ⟨nFeeNeeded, -, hsettles⟩
      · cases hdone
      · cases hsettles with
        | again hless => omega

/-- No draft is built with more fee than this. -/
def feeBound (env : CreateEnv) (coinControl : Option CCoinControl) (vecSend : List CRecipient)
    (vAvailableCoins : List COutput) : ℤ :=
  (∑ coin ∈ CoinSelection.coinSet (allCoins env coinControl vAvailableCoins),
      |env.view.nValue coin|) +
    payers vecSend * (vecSend.map fun recipient =>
      |recipient.nAmount - dustThreshold env.dustRelayFee recipient.scriptPubKey|).sum

section

variable (havailable : CoinSelection.Available env.view vAvailableCoins)
include havailable

theorem le_feeBound {nPass : ℕ} {draft : Draft} (hnonneg : 0 ≤ nFeeRet)
    (hamounts : ∀ recipient ∈ vecSend, 0 ≤ recipient.nAmount)
    (h : buildDraft R env coinControl vecSend vAvailableCoins nChangePosRequest (totalAmount vecSend)
      (payers vecSend) nPass nFeeRet = .ok draft) :
    nFeeRet ≤ feeBound env coinControl vecSend vAvailableCoins := by
  have hcoins : 0 ≤ ∑ coin ∈ coinSet (allCoins env coinControl vAvailableCoins),
      |env.view.nValue coin| := Finset.sum_nonneg fun coin _ => abs_nonneg _
  have hlosses : ∀ n ∈ vecSend.map fun recipient =>
      |recipient.nAmount - dustThreshold env.dustRelayFee recipient.scriptPubKey|, 0 ≤ n := by
    intro n hn
    obtain ⟨recipient, -, rfl⟩ := mem_map.1 hn
    exact abs_nonneg _
  have hloss := mul_nonneg (Int.natCast_nonneg (payers vecSend)) (sum_nonneg hlosses)
  unfold feeBound
  obtain ⟨-, -, ⟨-, hsub, hpaid⟩ | ⟨hany, recipient, hmem, hpaid⟩⟩ := buildDraft_eq_ok havailable h
  · -- the coins pay
    have hle : ∑ coin ∈ draft.setCoins, env.view.nValue coin ≤
        ∑ coin ∈ coinSet (allCoins env coinControl vAvailableCoins),
          |env.view.nValue coin| :=
      (Finset.sum_le_sum fun coin _ => le_abs_self _).trans
        (Finset.sum_le_sum_of_subset_of_nonneg hsub fun coin _ _ => abs_nonneg _)
    have := totalAmount_nonneg hamounts
    omega
  · -- the first recipient that pays loses at least its part of the fee
    have hsingle := single_le_sum hlosses _ (mem_map_of_mem hmem)
    have hsplit := Int.mul_tdiv_add_tmod nFeeRet (payers vecSend)
    have hrest := Int.tmod_nonneg (payers vecSend : ℤ) hnonneg
    have hpart : nFeeRet.tdiv (payers vecSend) + nFeeRet.tmod (payers vecSend) ≤
        (vecSend.map fun recipient =>
          |recipient.nAmount - dustThreshold env.dustRelayFee recipient.scriptPubKey|).sum :=
      hpaid.trans ((le_abs_self _).trans hsingle)
    have hmul := mul_le_mul_of_nonneg_left hpart (Int.natCast_nonneg (payers vecSend))
    have hone : nFeeRet.tmod (payers vecSend) ≤ payers vecSend * nFeeRet.tmod (payers vecSend) :=
      le_mul_of_one_le_left hrest (by omega)
    rw [mul_add] at hmul
    omega

theorem feeLoop_ne_none (hamounts : ∀ recipient ∈ vecSend, 0 ≤ recipient.nAmount)
    (hnonneg : 0 ≤ nFeeRet) (hfuel : 1 ≤ fuel)
    (hbound : feeBound env coinControl vecSend vAvailableCoins + 2 ≤ nFeeRet + fuel) :
    feeLoop R env coinControl vecSend vAvailableCoins nChangePosRequest (totalAmount vecSend)
      (payers vecSend) fuel nPass nFeeRet ≠ .ok none := by
  induction fuel generalizing nPass nFeeRet with
  | zero => omega
  | succ fuel ih =>
    intro h
    obtain ⟨draft, hdraft, h1⟩ := bind_eq_ok.1 h
    obtain ⟨nBytes, -, h2⟩ := bind_eq_ok.1 h1
    obtain ⟨e, hend, h3⟩ := bind_eq_ok.1 h2
    have hle := le_feeBound havailable hnonneg hamounts hdraft
    obtain ⟨-, hfee, -⟩ := buildDraft_eq_ok havailable hdraft
    cases e with
    | done vout nFee => cases Except.ok.inj h3
    | again nFee =>
      rcases endPass_eq_ok hend with ⟨-, hdone⟩ | ⟨nFeeNeeded, -, hsettles⟩
      · cases hdone
      · cases hsettles with
        | again hless =>
          exact ih (by omega) (by push_cast at hbound; omega)
            (by push_cast at hbound; omega) h3

end

end

section

variable {R : AmountReading} {env : CreateEnv} {coinControl : Option CCoinControl}
  {vecSend : List CRecipient} {vAvailableCoins : List COutput} {nChangePosRequest : ℤ} {sign : Bool}
  {finished : Finished} {vin : List CTxIn} {fuel : ℕ}

theorem signInputs_prevout {signature : ℕ → CTxIn → Option SignatureData} {nIn : ℕ}
    {vin vin' : List CTxIn} (h : signInputs signature nIn vin = some vin') :
    vin'.map CTxIn.prevout = vin.map CTxIn.prevout := by
  induction vin generalizing nIn vin' with
  | nil =>
    obtain rfl := Option.some.inj h
    rfl
  | cons txin vin ih =>
    obtain ⟨sigdata, -, h1⟩ := Option.bind_eq_some_iff.1 h
    obtain ⟨rest, hrest, h2⟩ := Option.bind_eq_some_iff.1 h1
    obtain rfl := Option.some.inj h2
    exact congrArg (txin.prevout :: ·) (ih hrest)

theorem signFinal_prevout (h : signFinal env sign finished = .ok vin) :
    vin.map CTxIn.prevout = finished.draft.vin.map CTxIn.prevout := by
  unfold signFinal at h
  split_ifs at h
  · cases hsigned : signInputs (fun nIn _ => env.produceSignature finished.draft.vin finished.vout
      nIn) 0 finished.draft.vin with
    | none =>
      rw [hsigned] at h
      exact absurd h fail_ne_ok
    | some signed =>
      rw [hsigned] at h
      obtain rfl := Except.ok.inj h
      exact signInputs_prevout hsigned
  · obtain rfl := Except.ok.inj h
    rfl

theorem createTransaction_eq_ok {result : Option Created}
    (h : createTransaction R env coinControl vecSend vAvailableCoins nChangePosRequest sign fuel =
      .ok result) :
    feeLoop R env coinControl vecSend vAvailableCoins nChangePosRequest (totalAmount vecSend)
        (payers vecSend) fuel 0 0 = .ok (result.map Created.finished) ∧
      (∀ recipient ∈ vecSend, 0 ≤ recipient.nAmount) ∧ ∀ created ∈ result,
        created.vin.map CTxIn.prevout = created.finished.draft.vin.map CTxIn.prevout := by
  obtain ⟨sums, hsums, h1⟩ := bind_eq_ok.1 h
  obtain ⟨rfl, hamounts⟩ := sumRecipients_eq_ok hsums
  split_ifs at h1
  · exact absurd h1 fail_ne_ok
  · obtain ⟨nLockTime, -, h2⟩ := bind_eq_ok.1 h1
    obtain ⟨finished, hloop, h3⟩ := bind_eq_ok.1 h2
    rw [zero_add, zero_add] at hloop
    cases finished with
    | none =>
      obtain rfl := Except.ok.inj h3
      exact ⟨hloop, hamounts, by simp⟩
    | some finished =>
      obtain ⟨vin, hsigned, h4⟩ := bind_eq_ok.1 h3
      obtain ⟨u, -, h5⟩ := bind_eq_ok.1 h4
      obtain rfl := Except.ok.inj h5
      refine ⟨hloop, hamounts, fun created hmem => ?_⟩
      obtain rfl := Option.some.inj hmem
      exact signFinal_prevout hsigned

def totalIn (env : CreateEnv) (vin : List CTxIn) : ℤ :=
  (vin.map fun txin => env.view.nValue txin.prevout).sum

theorem totalIn_eq_sum {coins : Finset COutPoint}
    (h : vin.map CTxIn.prevout = env.setOrder.elems coins) :
    totalIn env vin = ∑ coin ∈ coins, env.view.nValue coin := by
  have hset : (env.setOrder.elems coins).toFinset = coins := by
    ext coin
    rw [mem_toFinset, env.setOrder.mem_elems]
  conv_rhs => rw [← hset]
  rw [sum_toFinset _ (env.setOrder.nodup coins), ← h, map_map]
  rfl

/-- The selected coins are worth the outputs and the fee, the outputs are the payments and the
change, and the fee is not negative. -/
structure Accounts (env : CreateEnv) (vecSend : List CRecipient) (created : Created) : Prop where
  total : totalIn env created.vin = totalOut created.finished.vout + created.finished.nFeeRet
  withChange : ∃ payments, List.Forall₂ PaidBy vecSend payments ∧
    WithChange payments created.finished.draft.nChangePos created.finished.vout
  fee : 0 ≤ created.finished.nFeeRet

theorem controlFee_nonneg {nFee nFeeNeeded : ℤ} {nBytes : ℕ} (hfee : 0 ≤ nFee)
    (hrate : ∀ control, coinControl = some control → control.fOverrideFeeRate = true →
      0 ≤ control.nFeeRate.nSatoshisPerK)
    (h : controlFee R nFee nBytes coinControl = .ok nFeeNeeded) : 0 ≤ nFeeNeeded := by
  cases coinControl with
  | none =>
    obtain rfl := Except.ok.inj h
    exact hfee
  | some control =>
    rw [controlFee] at h
    split_ifs at h with hoverride hminimum
    · obtain ⟨-, rfl⟩ := CFeeRate.feeFor_eq_ok h
      exact mul_nonneg (hrate control rfl hoverride) (Int.natCast_nonneg _)
    · obtain rfl := Except.ok.inj h
      omega
    · obtain rfl := Except.ok.inj h
      exact hfee

theorem SoundDraft.settled (hsound : SoundDraft R env vecSend finished.draft)
    (hend : endPass R env coinControl (payers vecSend) finished.draft finished.nBytes =
      .ok (.done finished.vout finished.nFeeRet)) :
    totalOut finished.vout + finished.nFeeRet =
        ∑ coin ∈ finished.draft.setCoins, env.view.nValue coin ∧
      (∃ payments, List.Forall₂ PaidBy vecSend payments ∧
        WithChange payments finished.draft.nChangePos finished.vout) ∧
      (finished.nFeeRet = finished.draft.nFeeRet ∨ FeeNeeded R env coinControl finished.draft.vout
        finished.nBytes finished.nFeeRet) := by
  obtain ⟨payments, hpaid, hwith⟩ := hsound.withChange
  have htotal := hsound.total
  rcases endPass_eq_ok hend with ⟨-, hdone⟩ | ⟨nFeeNeeded, hneeded, hsettles⟩
  · injection hdone with hvout hfee
    exact ⟨by rw [hvout, hfee, htotal], ⟨payments, hpaid, hvout ▸ hwith⟩, .inl hfee⟩
  · generalize hresult : PassEnd.done finished.vout finished.nFeeRet = e at hsettles
    cases hsettles with
    | enough _ =>
      injection hresult with hvout hfee
      exact ⟨by rw [hvout, hfee, htotal], ⟨payments, hpaid, hvout ▸ hwith⟩, .inl hfee⟩
    | moved hpos hchange _ =>
      injection hresult with hvout hfee
      rw [hpos] at hwith
      obtain ⟨hwith', hsum⟩ := withChange_set hwith hchange
      refine ⟨?_, ⟨payments, hpaid, ?_⟩, .inr (hfee ▸ hneeded)⟩
      · rw [hvout, hsum, hfee]
        omega
      · rw [hvout, hpos]
        exact hwith'
    | again _ => cases hresult

/-- With amounts that have no bound, for any recipients, available coins, random choices and any
fees that are not negative, the loop ends, and a transaction accounts for every coin. -/
theorem createTransaction_accounts (env : CreateEnv) (coinControl : Option CCoinControl)
    (vecSend : List CRecipient) (vAvailableCoins : List COutput) (nChangePosRequest : ℤ)
    (sign : Bool) (havailable : CoinSelection.Available env.view vAvailableCoins)
    (hfee : ∀ vout nBytes nFee, env.getMinimumFee vout nBytes = .ok nFee → 0 ≤ nFee)
    (hrate : ∀ control, coinControl = some control → control.fOverrideFeeRate = true →
      0 ≤ control.nFeeRate.nSatoshisPerK) :
    (∃ enough, ∀ fuel, enough ≤ fuel →
      createTransaction .unbounded env coinControl vecSend vAvailableCoins nChangePosRequest sign
        fuel ≠ .ok none) ∧
    ∀ fuel created,
      createTransaction .unbounded env coinControl vecSend vAvailableCoins nChangePosRequest sign
        fuel = .ok (some created) → Accounts env vecSend created := by
  constructor
  · refine ⟨(feeBound env coinControl vecSend vAvailableCoins + 2).toNat + 1, ?_⟩
    intro fuel hfuel hrun
    obtain ⟨hloop, hamounts, -⟩ := createTransaction_eq_ok hrun
    exact feeLoop_ne_none havailable hamounts le_rfl (by omega) (by omega) hloop
  · intro fuel created hrun
    obtain ⟨hloop, -, hinputs⟩ := createTransaction_eq_ok hrun
    replace hinputs := hinputs created rfl
    obtain ⟨hsound, hnonneg, -, hend⟩ := feeLoop_eq_some havailable le_rfl hloop
    obtain ⟨htotal, hwith, hlast⟩ := hsound.settled hend
    refine ⟨?_, hwith, ?_⟩
    · rw [totalIn_eq_sum (hinputs.trans hsound.inputs), htotal]
    · rcases hlast with hsame | hneeded
      · exact hsame ▸ hnonneg
      · obtain ⟨nMinimum, hminimum, hcontrol⟩ := hneeded.minimum
        exact controlFee_nonneg (hfee _ _ _ hminimum) hrate hcontrol

end

def outpointKey (outpoint : COutPoint) : List ℕ ×ₗ ℕ :=
  toLex (hashKey outpoint.hash, outpoint.n.toNat)

def outpointLe (a b : COutPoint) : Prop := outpointKey a ≤ outpointKey b

instance : DecidableRel outpointLe :=
  fun a b => inferInstanceAs (Decidable (outpointKey a ≤ outpointKey b))

instance : IsTrans COutPoint outpointLe := ⟨fun _ _ _ hab hbc => le_trans hab hbc⟩

instance : Std.Total outpointLe := ⟨fun a b => le_total (outpointKey a) (outpointKey b)⟩

instance : Std.Antisymm outpointLe where
  antisymm a b hab hba := by
    have hkey : outpointKey a = outpointKey b := le_antisymm hab hba
    obtain ⟨hhash, hn⟩ := Prod.ext_iff.1 (toLex_inj.1 hkey)
    obtain ⟨ahash, an⟩ := a
    obtain ⟨bhash, bn⟩ := b
    obtain rfl := hashKey_injective hhash
    obtain rfl := UInt32.toNat_inj.1 hn
    rfl

def byOutpoint : SetOrder COutPoint where
  elems s := s.sort outpointLe
  nodup s := Finset.sort_nodup s outpointLe
  mem_elems _ _ := Finset.mem_sort outpointLe

/-- A wallet whose outputs all have one value, with fees of a coin for a thousand bytes. -/
def sampleEnv (nValue : ℤ) (fits : FitsInt64 nValue) : CreateEnv where
  view := CoinSelection.uniformView nValue fits
  options := ⟨25, false, true⟩
  choices _ _ := CoinSelection.listOrder true
  getDepthInMainChain _ := 6
  setOrder := byOutpoint
  dustRelayFee := ⟨1000⟩
  minRelayTxFee := ⟨COIN⟩
  getMinimumFee _ nBytes := CFeeRate.feeFor .unbounded ⟨COIN⟩ nBytes
  scriptChange _ := some (List.replicate 25 1)
  randomPosition _ _ := 0
  dummySignature _ := some (List.replicate 107 0, [])
  produceSignature _ _ _ := none
  fSendFreeTransactions := false
  enoughPriority _ _ _ := false
  withinChainLimits _ _ := true
  fWalletRbf := false
  nHeight := 1000
  lockTimeBack := none

theorem sampleEnv_fee_nonneg {nValue nFee : ℤ} {fits : FitsInt64 nValue} {vout : List DraftOut}
    {nBytes : ℕ} (h : (sampleEnv nValue fits).getMinimumFee vout nBytes = .ok nFee) : 0 ≤ nFee := by
  have hfee : CFeeRate.feeFor .unbounded ⟨COIN⟩ nBytes = .ok nFee := h
  obtain ⟨-, rfl⟩ := CFeeRate.feeFor_eq_ok hfee
  exact mul_nonneg coin_pos.le (Int.natCast_nonneg _)

def twoCoins : CRecipient := ⟨List.replicate 25 2, 200000000, false⟩

theorem tenCoins_fits : FitsInt64 (10 * COIN) := by decide

theorem createTransaction_accounts_twoCoins :
    ∃ created, createTransaction .unbounded (sampleEnv (10 * COIN) tenCoins_fits) none [twoCoins]
        (firstOutputs 1) (-1) false 1 = .ok (some created) ∧
      Accounts (sampleEnv (10 * COIN) tenCoins_fits) [twoCoins] created := by
  obtain ⟨created, hcreated⟩ := Option.isSome_iff_exists.1
    (show (createTransaction .unbounded (sampleEnv (10 * COIN) tenCoins_fits) none [twoCoins]
      (firstOutputs 1) (-1) false 1).toOption.join.isSome by decide +kernel)
  have hrun := eq_ok_of_toOption (Option.join_eq_some_iff.1 hcreated)
  exact ⟨created, hrun, (createTransaction_accounts (sampleEnv (10 * COIN) tenCoins_fits) none
    [twoCoins] (firstOutputs 1) (-1) false ⟨by decide, fun _ _ => mul_pos (by decide) coin_pos⟩
    (fun _ _ _ h => sampleEnv_fee_nonneg h) (fun _ h => by cases h)).2 1 created hrun⟩

end CreateTransaction

end Coinyecoin
