import Coinyecoin.Validation.Connected
import Coinyecoin.Validation.Guarded

/-!
# What the transactions of a block spend and pay

`ConnectBlock` adds up amounts that it reads through the coins view. Here they
are stated over what the view shows: `FlatMap.unspent` is the unspent output at
an outpoint, and `FlatMap.inputValue` the value a list of inputs spends. Reads
do not change it, so the sum behind the fee of a transaction and the sum that
`CheckTxInputs` compares with its outputs are the same number.
-/

namespace Coinyecoin

open Foundation List

def FlatMap.unspent (coins : FlatMap) (out : COutPoint) : Option CTxOut :=
  (coins out.hash).bind fun c => c.output out.n.toNat

def valueOf (txout : Option CTxOut) : ℤ := (txout.map fun t => t.nValue.toInt).getD 0

def FlatMap.inputValue (coins : FlatMap) (vin : List CTxIn) : ℤ :=
  (vin.map fun txin => valueOf (coins.unspent txin.prevout)).sum

def CTransaction.outputValue (tx : CTransaction) : ℤ :=
  (tx.vout.map fun txout => txout.nValue.toInt).sum

theorem moneyRange_iff {n : ℤ} : moneyRange n = true ↔ 0 ≤ n ∧ n ≤ MAX_MONEY := by
  rw [moneyRange, Bool.and_eq_true, decide_eq_true_eq, decide_eq_true_eq]

def addOutput (nValueOut : ℤ) (txout : CTxOut) : Except Fault ℤ :=
  if !moneyRange txout.nValue.toInt || !moneyRange (nValueOut + txout.nValue.toInt) then
    .error (.thrown "GetValueOut: value out of range")
  else
    .ok (nValueOut + txout.nValue.toInt)

theorem getValueOut_eq_foldlM (tx : CTransaction) :
    tx.getValueOut = tx.vout.foldlM addOutput 0 := rfl

variable {tx : CTransaction} {vout : List CTxOut} {start nValueOut : ℤ} {u : Unit}

theorem foldlM_addOutput (h : vout.foldlM addOutput start = .ok nValueOut) :
    nValueOut = start + (vout.map fun txout => txout.nValue.toInt).sum := by
  induction vout generalizing start with
  | nil =>
    cases h
    rw [map_nil, sum_nil, add_zero]
  | cons txout vout ih =>
    rw [foldlM_cons, bind_eq_ok] at h
    obtain ⟨n, hfirst, hrest⟩ := h
    unfold addOutput at hfirst
    split_ifs at hfirst
    cases hfirst
    rw [ih hrest, map_cons, sum_cons, add_assoc]

theorem getValueOut_eq (h : tx.getValueOut = .ok nValueOut) : nValueOut = tx.outputValue := by
  rw [getValueOut_eq_foldlM] at h
  rw [foldlM_addOutput h, zero_add]
  rfl

theorem foldlM_addOutput_of_checkOutputValues (h : checkOutputValues start vout = .ok u) :
    ∃ nValueOut, vout.foldlM addOutput start = .ok nValueOut := by
  induction vout generalizing start with
  | nil => exact ⟨start, rfl⟩
  | cons txout vout ih =>
    simp only [checkOutputValues, dos, bind_eq_ok, rejectIf_eq_ok, exists_const,
      decide_eq_false_iff_not, Bool.not_eq_false'] at h
    obtain ⟨hneg, hlarge, hsum, hrest⟩ := h
    have hvalue : moneyRange txout.nValue.toInt = true := moneyRange_iff.2 ⟨by omega, by omega⟩
    have hfirst : addOutput start txout = .ok (start + txout.nValue.toInt) := by
      rw [addOutput, hvalue, hsum]
      rfl
    rw [foldlM_cons, hfirst, ok_bind]
    exact ih hrest

theorem getValueOut_of_checkBlock {env : CheckEnv} {block : CBlock}
    {fCheckPOW fCheckMerkleRoot : Bool}
    (h : checkBlock env block fCheckPOW fCheckMerkleRoot = .ok u) :
    ∀ tx ∈ block.vtx, tx.getValueOut = .ok tx.outputValue := by
  intro tx htx
  obtain ⟨-, -, -, -, htxs, -⟩ := checkBlock_eq_ok.1 h
  have hv := htxs tx htx
  simp only [checkTransaction, bind_eq_ok] at hv
  obtain ⟨-, -, -, -, -, -, _, hvalues, -⟩ := hv
  obtain ⟨nValueOut, hrun⟩ := foldlM_addOutput_of_checkOutputValues hvalues
  rw [← getValueOut_eq_foldlM] at hrun
  rw [hrun, getValueOut_eq hrun]

theorem outputValue_range (h : tx.getValueOut = .ok tx.outputValue) :
    0 ≤ tx.outputValue ∧ tx.outputValue ≤ MAX_MONEY := by
  rw [getValueOut_eq_foldlM] at h
  refine moneyRange_iff.1 (foldlM_keeps (P := fun n => moneyRange n = true) ?_ rfl h)
  intro n txout n' _ _ hstep
  unfold addOutput at hstep
  split_ifs at hstep with hrange
  cases hstep
  simp only [Bool.or_eq_true, Bool.not_eq_true', not_or, Bool.not_eq_false] at hrange
  exact hrange.2

namespace ViewStack

variable {B : CCoinsView} {Q : uint256 → ℕ → CTxOut → Prop} {s s' : ViewStack B} {vin : List CTxIn}
  {env : ConnectEnv}

theorem bind_output_liveOption (coins : Option CCoins) (n : ℕ) :
    ((CacheSlot.liveOption CCoins.isPruned coins).bind fun c => c.output n) =
      coins.bind fun c => c.output n := by
  cases coins with
  | none => rfl
  | some c =>
    cases hpruned : c.isPruned with
    | true =>
      change ((CCoins.live c).bind fun c => c.output n) = c.output n
      rw [CCoins.live, CacheSlot.live_of_null hpruned, CCoins.output_eq_none_of_isPruned hpruned]
      rfl
    | false =>
      change ((CCoins.live c).bind fun c => c.output n) = c.output n
      rw [CCoins.live, CacheSlot.live_of_not_null hpruned]
      rfl

theorem bind_output_accessCoins {s : ViewStack B} (h : s.Guarded Q) (out : COutPoint) :
    ((s.accessCoins out.hash).1.bind fun c => c.output out.n.toNat) = s.view.unspent out := by
  rw [FlatMap.unspent, ← (accessCoins_guarded h out.hash).1, bind_output_liveOption]

theorem report_eq_view_of_guarded {s : ViewStack B} (h : s.Guarded Q) : s.report = s.view :=
  funext fun txid => (accessCoins_guarded h txid).1

variable {vout : List CTxOut} {tx : CTransaction}

theorem getOutputs_unspent (h : s.Guarded Q) (hrun : s.getOutputs vin = .ok (vout, s')) :
    vin.map (fun txin => s.view.unspent txin.prevout) = vout.map some := by
  induction vin generalizing s vout with
  | nil =>
    cases hrun
    rfl
  | cons txin vin ih =>
    simp only [getOutputs, bind_eq_ok] at hrun
    obtain ⟨⟨txout, s₁⟩, hfirst, ⟨vout', s₂⟩, hrest, heq⟩ := hrun
    cases heq
    obtain ⟨hview, hguarded⟩ := (getOutputFor_reads hfirst).guarded h
    have hout : s.view.unspent txin.prevout = some txout := by
      unfold getOutputFor at hfirst
      dsimp only at hfirst
      rw [bind_output_accessCoins h] at hfirst
      split at hfirst
      · rename_i heq
        cases hfirst
        exact heq
      · cases hfirst
    have hothers := ih hguarded hrest
    rw [hview] at hothers
    rw [map_cons, map_cons, hout, hothers]

theorem getOutputs_of_unspent {s : ViewStack B} (h : s.Guarded Q)
    (hvin : ∀ txin ∈ vin, ∃ txout, s.view.unspent txin.prevout = some txout) :
    ∃ vout s', s.getOutputs vin = .ok (vout, s') := by
  induction vin generalizing s with
  | nil => exact ⟨[], s, rfl⟩
  | cons txin vin ih =>
    obtain ⟨⟨txout, hout⟩, hothers⟩ := forall_mem_cons.1 hvin
    obtain ⟨-, hview, hguarded⟩ := accessCoins_guarded h txin.prevout.hash
    rw [← hview] at hothers
    obtain ⟨vout, s', hrest⟩ := ih hguarded hothers
    have hfirst : s.getOutputFor txin = .ok (txout, (s.accessCoins txin.prevout.hash).2) := by
      unfold getOutputFor
      dsimp only
      rw [bind_output_accessCoins h, hout]
    refine ⟨txout :: vout, s', ?_⟩
    rw [getOutputs, hfirst, ok_bind]
    dsimp only
    rw [hrest]
    rfl

theorem inputValue_of_getOutputs (h : s.Guarded Q) (hrun : s.getOutputs vin = .ok (vout, s')) :
    (vout.map fun txout => txout.nValue.toInt).sum = s.view.inputValue vin := by
  have hmap := congrArg (List.map valueOf) (getOutputs_unspent h hrun)
  rw [map_map, map_map] at hmap
  exact congrArg List.sum hmap.symm

theorem haveAll_unspent {s : ViewStack B} (h : s.Guarded Q) (hrun : (s.haveAll vin).1 = true) :
    ∀ txin ∈ vin, ∃ txout, s.view.unspent txin.prevout = some txout := by
  induction vin generalizing s with
  | nil => exact fun _ hmem => nomatch hmem
  | cons txin vin ih =>
    obtain ⟨-, hview, hguarded⟩ := accessCoins_guarded h txin.prevout.hash
    rw [haveAll] at hrun
    split_ifs at hrun with havail
    refine forall_mem_cons.2 ⟨?_, ?_⟩
    · rw [← bind_output_accessCoins h]
      obtain ⟨coins, hcoins, havail⟩ := (Option.any_eq_true _ _).1 havail
      rw [hcoins]
      exact CCoins.isAvailable_iff.1 havail
    · rw [← hview]
      exact ih hguarded hrun

theorem sumInputs_eq {nSpendHeight nValueIn n : ℤ} (h : s.Guarded Q)
    (hunspent : ∀ txin ∈ vin, ∃ txout, s.view.unspent txin.prevout = some txout)
    (hrun : sumInputs env nSpendHeight s nValueIn vin = .ok (n, s')) :
    n = nValueIn + s.view.inputValue vin := by
  induction vin generalizing s nValueIn with
  | nil =>
    cases hrun
    simp [FlatMap.inputValue]
  | cons txin vin ih =>
    obtain ⟨⟨txout, hout⟩, hothers⟩ := forall_mem_cons.1 hunspent
    obtain ⟨-, hview, hguarded⟩ := accessCoins_guarded h txin.prevout.hash
    have haccess := bind_output_accessCoins h txin.prevout
    rw [hout] at haccess
    obtain ⟨coins, hcoins, houtput⟩ := Option.bind_eq_some_iff.1 haccess
    rw [sumInputs] at hrun
    dsimp only at hrun
    rw [hcoins] at hrun
    simp only [bind_eq_ok] at hrun
    obtain ⟨-, -, hrun⟩ := hrun
    rw [(SparseList.present_eq_some_iff.1 houtput).1] at hrun
    simp only [bind_eq_ok] at hrun
    obtain ⟨-, -, hrest⟩ := hrun
    have hsum := ih hguarded (by rw [hview]; exact hothers) hrest
    rw [hview] at hsum
    rw [hsum, FlatMap.inputValue, FlatMap.inputValue, map_cons, sum_cons, hout, add_assoc]
    rfl

theorem checkTxInputs_spec {nSpendHeight : ℤ} (h : s.Guarded Q) (htx : tx.isCoinBase = false)
    (hrun : checkTxInputs env tx s nSpendHeight = .ok s') :
    (∀ txin ∈ tx.vin, ∃ txout, s.view.unspent txin.prevout = some txout) ∧
      tx.outputValue ≤ s.view.inputValue tx.vin := by
  simp only [checkTxInputs, dos, bind_eq_ok, rejectIf_eq_ok, exists_const, orFault_eq_ok] at hrun
  obtain ⟨hfound, ⟨n, s₁⟩, hsum, nValueOut, hout, hle, -⟩ := hrun
  obtain ⟨hview, hguarded⟩ := (haveInputs_reads s tx).guarded h
  have hunspent : ∀ txin ∈ tx.vin, ∃ txout, s.view.unspent txin.prevout = some txout := by
    rw [haveInputs, htx] at hfound
    exact haveAll_unspent h (by simpa using hfound)
  have hn := sumInputs_eq hguarded (by rw [hview]; exact hunspent) hsum
  rw [hview, zero_add] at hn
  rw [← getValueOut_eq hout, ← hn]
  refine ⟨hunspent, ?_⟩
  simpa using hle

theorem checkInputs_spec {fScriptChecks pass : Bool} (h : s.Guarded Q) (htx : tx.isCoinBase = false)
    (hrun : s.checkInputs env tx fScriptChecks = .ok (pass, s')) :
    (∀ txin ∈ tx.vin, ∃ txout, s.view.unspent txin.prevout = some txout) ∧
      tx.outputValue ≤ s.view.inputValue tx.vin := by
  have hcheck : ∃ n s₁ s₂, s.getSpendHeight env = .ok (n, s₁) ∧
      checkTxInputs env tx s₁ n = .ok s₂ := by
    rw [checkInputs, htx] at hrun
    simp only [Bool.false_eq_true, if_false, bind_eq_ok, orFault_eq_ok] at hrun
    obtain ⟨⟨n, s₁⟩, hheight, s₂, htx, -⟩ := hrun
    exact ⟨n, s₁, s₂, hheight, htx⟩
  obtain ⟨n, s₁, s₂, hheight, hcheck⟩ := hcheck
  obtain ⟨hview, hguarded⟩ := (getSpendHeight_reads hheight).guarded h
  rw [← hview]
  exact checkTxInputs_spec hguarded htx hcheck

end ViewStack

section

variable {B : CCoinsView} {env : ConnectEnv} {Q : uint256 → ℕ → CTxOut → Prop} {tx : CTransaction}

theorem reachFee_unspent {st : ConnectState B} {s : ViewStack B} (h : st.view.Guarded Q)
    (htx : tx.isCoinBase = false) (hreach : reachFee env tx st = .ok s) :
    ∀ txin ∈ tx.vin, ∃ txout, st.view.view.unspent txin.prevout = some txout := by
  simp only [reachFee, bind_eq_ok] at hreach
  obtain ⟨s₁, hspends, -⟩ := hreach
  rw [checkSpends, htx] at hspends
  simp only [Bool.false_eq_true, if_false, dos, bind_eq_ok, rejectIf_eq_ok, exists_const] at hspends
  obtain ⟨hfound, -⟩ := hspends
  rw [ViewStack.haveInputs, htx] at hfound
  exact ViewStack.haveAll_unspent h (by simpa using hfound)

theorem connectFee_eq {s s' : ViewStack B} {nTxFee : ℤ} (h : s.Guarded Q)
    (htx : tx.isCoinBase = false) (hrun : connectFee tx s = .ok (nTxFee, s')) :
    nTxFee = s.view.inputValue tx.vin - tx.outputValue := by
  rw [connectFee, htx] at hrun
  simp only [Bool.false_eq_true, if_false, bind_eq_ok] at hrun
  obtain ⟨⟨nValueIn, s₁⟩, hin, nValueOut, hout, heq⟩ := hrun
  cases heq
  rw [ViewStack.getValueIn, htx] at hin
  simp only [Bool.false_eq_true, if_false, bind_eq_ok] at hin
  obtain ⟨⟨vout, s₂⟩, houts, heq⟩ := hin
  cases heq
  rw [ViewStack.inputValue_of_getOutputs h houts, getValueOut_eq hout]

theorem connectTx_fees {opts : ConnectOptions} {nHeight : Int32} {i : ℕ}
    {st st' : ConnectState B} (h : st.view.Guarded Q)
    (hrun : connectTx env opts nHeight i tx st = .ok st') :
    (tx.isCoinBase = true → st'.nFees = st.nFees) ∧
      (tx.isCoinBase = false →
        (∀ txin ∈ tx.vin, ∃ txout, st.view.view.unspent txin.prevout = some txout) ∧
        tx.outputValue ≤ st.view.view.inputValue tx.vin ∧
        st'.nFees = st.nFees + (st.view.view.inputValue tx.vin - tx.outputValue)) := by
  obtain ⟨s₁, s₂, s₃, nTxFee, pass, txundo, hreach, hfee, hinputs, -, hfees, -⟩ :=
    connectTx_inv hrun
  refine ⟨fun htx => ?_, fun htx => ?_⟩
  · rw [connectFee, htx] at hfee
    cases hfee
    rw [hfees, add_zero]
  · obtain ⟨hview₁, hguarded₁⟩ := (reachFee_reads hreach).guarded h
    obtain ⟨hview₂, hguarded₂⟩ := (connectFee_reads hfee).guarded hguarded₁
    obtain ⟨hunspent, hle⟩ := ViewStack.checkInputs_spec hguarded₂ htx hinputs
    have hvalue := connectFee_eq hguarded₁ htx hfee
    rw [hview₂, hview₁] at hunspent hle
    rw [hview₁] at hvalue
    exact ⟨hunspent, hle, by rw [hfees, hvalue]⟩

end

end Coinyecoin
