import Coinyecoin.Validation.Supply

/-!
# The amounts that ConnectBlock computes

`GetValueIn`, the running `nFees` and `blockReward` are 64-bit sums, and only
`CheckInputs`, which comes later, checks a range. `connectAmounts` lists what
these computations give, as integers, up to where the block is rejected or the
loop ends. Amounts that are in `MoneyRange` are at most `10 ^ 18` each, so ten of
them leave the 64-bit range: the sums fit exactly where the outputs that are
spent, and the fees, are worth less than that.
-/

namespace Coinyecoin

open Foundation List ViewStack

/-- `nResult` of `GetValueIn` after each round of its loop. -/
def sumsIn (nResult : ℤ) : List CTxOut → List ℤ
  | [] => []
  | txout :: vout => (nResult + txout.nValue.toInt) :: sumsIn (nResult + txout.nValue.toInt) vout

/-- The amounts of `nFees += view.GetValueIn(tx) - tx.GetValueOut()`. -/
def feeAmounts {B : CCoinsView} (tx : CTransaction) (nFees : ℤ) (view : ViewStack B) : List ℤ :=
  if tx.isCoinBase then []
  else
    match view.getOutputs tx.vin, tx.getValueOut with
    | .error _, _ => []
    | .ok (vout, _), .error _ => sumsIn 0 vout
    | .ok (vout, _), .ok nValueOut =>
      let nTxFee := (vout.map fun txout => txout.nValue.toInt).sum - nValueOut
      sumsIn 0 vout ++ [nTxFee, nFees + nTxFee]

section

variable {B : CCoinsView} (env : ConnectEnv) (opts : ConnectOptions)

/-- The amounts of one round of the loop, if it comes to the fee. -/
def txAmounts (tx : CTransaction) (st : ConnectState B) : List ℤ :=
  match reachFee env tx st with
  | .error _ => []
  | .ok view => feeAmounts tx st.nFees view

/-- The amounts of the loop of `ConnectBlock`, until a check fails. -/
def loopAmounts (nHeight : Int32) (i : ℕ) : List CTransaction → ConnectState B → List ℤ
  | [], _ => []
  | tx :: vtx, st =>
    txAmounts env tx st ++
      match connectTx env opts nHeight i tx st with
      | .error _ => []
      | .ok st => loopAmounts nHeight (i + 1) vtx st

def startLoop (view : ViewStack B) : ConnectState B := ⟨view, 0, 0, true, []⟩

/-- `blockReward`, if the block comes to it. -/
def rewardAmounts (block : CBlock) (pindex : BlockPosition) (view : ViewStack B) : List ℤ :=
  match connectTxs env opts pindex.nHeight 0 block.vtx (startLoop view), blockSubsidy env pindex with
  | .ok st, .ok nSubsidy => [st.nFees + nSubsidy]
  | _, _ => []

/-- The amounts that `ConnectBlock` computes from its loop on. -/
def connectAmounts (block : CBlock) (pindex : BlockPosition) (view : ViewStack B) : List ℤ :=
  loopAmounts env opts pindex.nHeight 0 block.vtx (startLoop view) ++
    rewardAmounts env opts block pindex view

/-- The loop comes to the fee of `tx`, which follows the transactions `pre`. -/
def ComesTo (nHeight : Int32) (i : ℕ) (st : ConnectState B) (pre : List CTransaction)
    (tx : CTransaction) : Prop :=
  ∃ st' view, connectTxs env opts nHeight i pre st = .ok st' ∧ reachFee env tx st' = .ok view

end

namespace FlatMap

variable (env : ConnectEnv) (nHeight : Int32)

/-- What the transaction spends more than it creates; nothing for a coinbase. -/
def fee (coins : FlatMap) (tx : CTransaction) : ℤ :=
  if tx.isCoinBase then 0 else coins.inputValue tx.vin - tx.outputValue

def connectAll (coins : FlatMap) (vtx : List CTransaction) : FlatMap :=
  vtx.foldl (connect env nHeight) coins

/-- The fees of transactions that are connected one after the other. -/
def fees (coins : FlatMap) : List CTransaction → ℤ
  | [] => 0
  | tx :: vtx => coins.fee tx + fees (coins.connect env nHeight tx) vtx

/-- After the transactions `pre`, the outputs that `tx` spends are worth less than `2 ^ 63`, and so
are all fees with its own. -/
def Fits (coins : FlatMap) (pre : List CTransaction) (tx : CTransaction) : Prop :=
  tx.isCoinBase = false → (coins.connectAll env nHeight pre).inputValue tx.vin < 2 ^ 63 ∧
    coins.fees env nHeight (pre ++ [tx]) < 2 ^ 63

end FlatMap

def CCoins.InRange (coins : CCoins) : Prop :=
  coins.Outputs fun _ txout => moneyRange txout.nValue.toInt = true

theorem CCoins.inRange_fromTx {tx : CTransaction} (h : tx.Checked) (nHeight : Int32) :
    (CCoins.fromTx tx nHeight).InRange := by
  intro n txout hout
  exact moneyRange_iff.2 (h.values txout (mem_of_getElem? (CCoins.output_fromTx hout)))

/-- What any reader of the view can come to see is in range. -/
abbrev ViewStack.InRange {B : CCoinsView} (s : ViewStack B) : Prop :=
  s.Guarded fun _ _ txout => moneyRange txout.nValue.toInt = true

section

variable {B : CCoinsView} {env : ConnectEnv} {opts : ConnectOptions}

/-- `FlatMap.Fits` in the state before the fee of the transaction. -/
def TxFits (tx : CTransaction) (st : ConnectState B) : Prop :=
  tx.isCoinBase = false →
    FlatMap.inputValue st.view.report tx.vin < 2 ^ 63 ∧
      st.nFees + (FlatMap.inputValue st.view.report tx.vin - tx.outputValue) < 2 ^ 63

/-- What holds of the variables of the loop before every round. -/
structure ConnectState.Sound (st : ConnectState B) : Prop where
  view : st.view.InRange
  nFees : 0 ≤ st.nFees

variable {nHeight : Int32} {i : ℕ} {tx : CTransaction} {st st' : ConnectState B}
  {vtx : List CTransaction} {view : ViewStack B} {pindex : BlockPosition}

theorem connectTx_sound
    (h : st.Sound) (htx : tx.Checked) (hrun : connectTx env opts nHeight i tx st = .ok st') :
    st'.Sound := by
  obtain ⟨hcoinbase, hspends⟩ := connectTx_fees h.view hrun
  obtain ⟨s₁, txundo, hreads, hupdate, -⟩ := connectTx_spec hrun
  refine ⟨updateCoins_guarded (hreads.guarded h.view).2
    (CCoins.inRange_fromTx htx nHeight) hupdate, ?_⟩
  have hfees := h.nFees
  cases hcb : tx.isCoinBase with
  | true =>
    rw [hcoinbase hcb]
    exact hfees
  | false =>
    obtain ⟨-, hle, heq⟩ := hspends hcb
    omega

theorem connectTxs_sound (h : st.Sound) (hvtx : ∀ tx ∈ vtx, tx.Checked)
    (hrun : connectTxs env opts nHeight i vtx st = .ok st') : st'.Sound := by
  induction vtx generalizing i st with
  | nil =>
    cases hrun
    exact h
  | cons tx vtx ih =>
    rw [connectTxs, bind_eq_ok] at hrun
    obtain ⟨st₁, hfirst, hrest⟩ := hrun
    obtain ⟨htx, hothers⟩ := forall_mem_cons.1 hvtx
    exact ih (connectTx_sound h htx hfirst) hothers hrest

theorem sumsIn_fit_iff {vout : List CTxOut} (hvout : ∀ txout ∈ vout, 0 ≤ txout.nValue.toInt)
    {nResult : ℤ} (hstart : 0 ≤ nResult) (hfits : nResult < 2 ^ 63) :
    (∀ n ∈ sumsIn nResult vout, FitsInt64 n) ↔
      nResult + (vout.map fun txout => txout.nValue.toInt).sum < 2 ^ 63 := by
  induction vout generalizing nResult with
  | nil => simpa [sumsIn] using hfits
  | cons txout vout ih =>
    obtain ⟨htxout, hothers⟩ := forall_mem_cons.1 hvout
    have hsum : 0 ≤ (vout.map fun txout => txout.nValue.toInt).sum := by
      refine sum_nonneg fun n hn => ?_
      obtain ⟨t, ht, rfl⟩ := mem_map.1 hn
      exact hothers t ht
    rw [sumsIn, forall_mem_cons, map_cons, sum_cons, ← add_assoc, FitsInt64]
    by_cases hnext : nResult + txout.nValue.toInt < 2 ^ 63
    · rw [ih hothers (by omega) hnext]
      exact ⟨fun h => h.2, fun h => ⟨⟨by omega, hnext⟩, h⟩⟩
    · exact ⟨fun h => absurd h.1.2 hnext, fun h => absurd h (by omega)⟩

theorem feeAmounts_fit_iff {nFees : ℤ}
    (h : view.InRange) (hfees : 0 ≤ nFees) (htx : tx.isCoinBase = false)
    (hvin : ∀ txin ∈ tx.vin, ∃ txout, view.view.unspent txin.prevout = some txout)
    (hvalue : tx.getValueOut = .ok tx.outputValue) :
    (∀ n ∈ feeAmounts tx nFees view, FitsInt64 n) ↔
      view.view.inputValue tx.vin < 2 ^ 63 ∧
        nFees + (view.view.inputValue tx.vin - tx.outputValue) < 2 ^ 63 := by
  obtain ⟨vout, s', hout⟩ := getOutputs_of_unspent h hvin
  obtain ⟨hpos, hmax⟩ := outputValue_range hvalue
  have hunspent := getOutputs_unspent h hout
  have hnonneg : ∀ txout ∈ vout, 0 ≤ txout.nValue.toInt := by
    intro txout htxout
    have hmem : some txout ∈ vout.map some := mem_map_of_mem htxout
    rw [← hunspent] at hmem
    obtain ⟨txin, -, heq⟩ := mem_map.1 hmem
    obtain ⟨coins, hcoins, houtput⟩ := Option.bind_eq_some_iff.1 heq
    exact (moneyRange_iff.1 (h.view hcoins _ _ houtput)).1
  have hsum := inputValue_of_getOutputs h hout
  have hin : 0 ≤ view.view.inputValue tx.vin := by
    rw [← hsum]
    refine sum_nonneg fun n hn => ?_
    obtain ⟨txout, htxout, rfl⟩ := mem_map.1 hn
    exact hnonneg txout htxout
  have hsums := sumsIn_fit_iff hnonneg (Int.le_refl 0) (by decide)
  rw [zero_add, hsum] at hsums
  have hmoney : MAX_MONEY < 2 ^ 63 := by decide
  simp only [feeAmounts, htx, hout, hvalue, hsum, Bool.false_eq_true, if_false,
    forall_mem_append, hsums, forall_mem_cons]
  constructor
  · rintro ⟨hlt, -, ⟨-, htotal⟩, -⟩
    exact ⟨hlt, htotal⟩
  · rintro ⟨hlt, htotal⟩
    exact ⟨hlt, And.intro (by omega) (by omega), And.intro (by omega) htotal,
      (fun _ hmem => nomatch hmem)⟩

theorem txAmounts_fit_iff (h : st.Sound) (hvalue : tx.getValueOut = .ok tx.outputValue) :
    (∀ n ∈ txAmounts env tx st, FitsInt64 n) ↔ ∀ view, reachFee env tx st = .ok view →
      TxFits tx st := by
  cases hreach : reachFee env tx st with
  | error f =>
    rw [txAmounts, hreach]
    exact ⟨(fun _ _ hview => nomatch hview), fun _ _ hmem => nomatch hmem⟩
  | ok view =>
    obtain ⟨hview, hguarded⟩ :=
      (reachFee_reads hreach).guarded h.view
    have hfits : (∀ n ∈ txAmounts env tx st, FitsInt64 n) ↔ TxFits tx st := by
      rw [txAmounts, hreach, TxFits, report_eq_view_of_guarded h.view]
      cases hcb : tx.isCoinBase with
      | true => simp [feeAmounts, hcb]
      | false =>
        have hvin := reachFee_unspent h.view hcb hreach
        rw [← hview] at hvin ⊢
        rw [forall_prop_of_true rfl]
        exact feeAmounts_fit_iff hguarded h.nFees hcb hvin hvalue
    rw [hfits]
    exact ⟨fun hfit _ _ => hfit, fun hfit => hfit view rfl⟩

theorem loopAmounts_fit_iff (h : st.Sound) (hvtx : ∀ tx ∈ vtx, tx.Checked)
    (hvalue : ∀ tx ∈ vtx, tx.getValueOut = .ok tx.outputValue) :
    (∀ n ∈ loopAmounts env opts nHeight i vtx st, FitsInt64 n) ↔
      ∀ pre tx post st' view, vtx = pre ++ tx :: post →
        connectTxs env opts nHeight i pre st = .ok st' → reachFee env tx st' = .ok view →
          TxFits tx st' := by
  induction vtx generalizing i st with
  | nil =>
    refine ⟨fun _ pre tx post _ _ heq => ?_, fun _ _ hmem => absurd hmem not_mem_nil⟩
    exact absurd heq.symm (append_ne_nil_of_right_ne_nil pre (cons_ne_nil tx post))
  | cons tx vtx ih =>
    obtain ⟨htx, hothers⟩ := forall_mem_cons.1 hvtx
    obtain ⟨hvalue, hvalues⟩ := forall_mem_cons.1 hvalue
    rw [loopAmounts, forall_mem_append, txAmounts_fit_iff h hvalue]
    constructor
    · rintro ⟨hfirst, hrest⟩ pre tx' post st' view' heq hrun hreach
      cases pre with
      | nil =>
        cases heq
        cases hrun
        exact hfirst view' hreach
      | cons tx₀ pre =>
        cases heq
        rw [connectTxs, bind_eq_ok] at hrun
        obtain ⟨st₁, hone, hrun⟩ := hrun
        rw [hone] at hrest
        exact (ih (connectTx_sound h htx hone) hothers hvalues).1 hrest pre tx' post st' view'
          rfl hrun hreach
    · intro hfits
      refine ⟨fun view hreach => hfits [] tx vtx st view rfl rfl hreach, ?_⟩
      cases hone : connectTx env opts nHeight i tx st with
      | error f => exact fun _ hmem => absurd hmem not_mem_nil
      | ok st₁ =>
        refine (ih (connectTx_sound h htx hone) hothers hvalues).2 ?_
        intro pre tx' post st' view' heq hrun hreach
        refine hfits (tx :: pre) tx' post st' view' (by rw [heq, cons_append]) ?_ hreach
        rw [connectTxs, hone, ok_bind]
        exact hrun

theorem blockSubsidy_nonneg {nSubsidy : ℤ}
    (h : blockSubsidy env pindex = .ok nSubsidy) : 0 ≤ nSubsidy := by
  have hshift : ∀ {count n : ℤ}, Consensus.shiftAmountRight (666666 * COIN) count = .ok n →
      0 ≤ n := by
    intro count n hrun
    unfold Consensus.shiftAmountRight at hrun
    split_ifs at hrun
    cases hrun
    exact Int.ediv_nonneg (by decide) (Int.pow_nonneg (by decide))
  rw [blockSubsidy, Consensus.getCoinyecoinBlockSubsidy, bind_eq_ok] at h
  obtain ⟨halvings, -, hrun⟩ := h
  split_ifs at hrun <;> exact hshift hrun

theorem rewardAmounts_fit_iff {block : CBlock}
    (h : (startLoop view).Sound) (hblock : block.Checked) :
    (∀ n ∈ rewardAmounts env opts block pindex view, FitsInt64 n) ↔
      ∀ st nSubsidy, connectTxs env opts pindex.nHeight 0 block.vtx (startLoop view) = .ok st →
        blockSubsidy env pindex = .ok nSubsidy → st.nFees + nSubsidy < 2 ^ 63 := by
  unfold rewardAmounts
  cases hloop : connectTxs env opts pindex.nHeight 0 block.vtx (startLoop view) with
  | error f => simp
  | ok st =>
    cases hsubsidy : blockSubsidy env pindex with
    | error f => simp
    | ok nSubsidy =>
      have hfees := (connectTxs_sound h hblock.transactions hloop).nFees
      have hpos := blockSubsidy_nonneg hsubsidy
      simp only [mem_singleton, forall_eq]
      constructor
      · rintro ⟨-, hlt⟩ _ _ ⟨⟩ ⟨⟩
        exact hlt
      · intro hlt
        exact And.intro (by omega) (hlt st nSubsidy rfl rfl)

theorem fees_append (coins : FlatMap) (pre : List CTransaction) (tx : CTransaction) :
    coins.fees env nHeight (pre ++ [tx]) =
      coins.fees env nHeight pre + (coins.connectAll env nHeight pre).fee tx := by
  induction pre generalizing coins with
  | nil => simp [FlatMap.fees, FlatMap.connectAll]
  | cons tx₀ pre ih =>
    rw [cons_append, FlatMap.fees, FlatMap.fees, ih, add_assoc]
    rfl

/-- What the loop leaves is what connecting the transactions to the coins gives. -/
theorem connectTxs_view (hs : st.view.Coherent)
    (hmasked : ∀ tx ∈ vtx, st.view.Masked (env.getHash tx))
    (hrun : connectTxs env opts nHeight i vtx st = .ok st') :
    st'.view.Coherent ∧ st'.view.view = st.view.view.connectAll env nHeight vtx ∧
      st'.nFees = st.nFees + st.view.view.fees env nHeight vtx := by
  induction vtx generalizing i st with
  | nil =>
    cases hrun
    exact ⟨hs, rfl, (add_zero _).symm⟩
  | cons tx vtx ih =>
    rw [connectTxs, bind_eq_ok] at hrun
    obtain ⟨st₁, hfirst, hrest⟩ := hrun
    obtain ⟨hmask, hmasks⟩ := forall_mem_cons.1 hmasked
    obtain ⟨hs₁, hview₁, -, hmasked₁⟩ := connectTx_view hs hmask hfirst
    have hguarded : st.view.Guarded fun _ _ _ => True := hs.guarded fun _ _ _ _ _ _ => trivial
    have hfee : st₁.nFees = st.nFees + st.view.view.fee tx := by
      obtain ⟨hcoinbase, hspends⟩ := connectTx_fees hguarded hfirst
      cases hcb : tx.isCoinBase with
      | true => simp [FlatMap.fee, hcb, hcoinbase hcb]
      | false => simp [FlatMap.fee, hcb, (hspends hcb).2.2]
    obtain ⟨hs', hview, hfees⟩ := ih hs₁ (fun tx' htx' => hmasked₁ _ (hmasks tx' htx')) hrest
    rw [hview₁] at hview hfees
    refine ⟨hs', hview, ?_⟩
    rw [hfees, hfee, FlatMap.fees, add_assoc]

theorem txFits_iff {pre : List CTransaction} (hs : view.Coherent)
    (hmasked : ∀ tx ∈ pre, view.Masked (env.getHash tx))
    (hrun : connectTxs env opts nHeight 0 pre (startLoop view) = .ok st) :
    TxFits tx st ↔ view.view.Fits env nHeight pre tx := by
  obtain ⟨hcoherent, hview, hfees⟩ := connectTxs_view hs hmasked hrun
  rw [TxFits, FlatMap.Fits, funext (report_eq_view hcoherent), hview, fees_append, hfees]
  refine imp_congr_right fun hcb => ?_
  change _ ∧ 0 + _ + _ < _ ↔ _
  rw [zero_add, FlatMap.fee, hcb]
  rfl

end

def ViewStack.OutputsInRange {B : CCoinsView} (s : ViewStack B) : Prop :=
  ∀ txid coins, s.report txid = some coins → coins.InRange

/-- For every view with outputs in `MoneyRange` and every block that comes to the
loop of `ConnectBlock` and overwrites no coins, the amounts stay in the 64-bit range exactly
when, in the coins of the view with the block's own, the values that are spent and the fees do. -/
theorem connectAmounts_fit_iff {B : CCoinsView} (env : ConnectEnv) (opts : ConnectOptions)
    (block : CBlock) (pindex : BlockPosition) (s view : ViewStack B) (hs : s.Coherent)
    (hrange : s.OutputsInRange) (hreach : reachLoop env opts block pindex s = .ok (some view))
    (hnew : enforceBIP30 env pindex = false →
      ∀ tx ∈ block.vtx, s.report (env.getHash tx) = none) :
    (∀ n ∈ connectAmounts env opts block pindex view, FitsInt64 n) ↔
      (∀ pre tx post, block.vtx = pre ++ tx :: post →
        ComesTo env opts pindex.nHeight 0 (startLoop view) pre tx →
          FlatMap.Fits env pindex.nHeight s.report pre tx) ∧
      ∀ st nSubsidy, connectTxs env opts pindex.nHeight 0 block.vtx (startLoop view) = .ok st →
        blockSubsidy env pindex = .ok nSubsidy →
          FlatMap.fees env pindex.nHeight s.report block.vtx + nSubsidy < 2 ^ 63 := by
  obtain ⟨hcheck, hreads, hbip30⟩ := reachLoop_spec hreach
  have hchecked := checkBlock_checked hcheck
  have hreport : s.report = s.view := funext (report_eq_view hs)
  have hview : view.view = s.view := hreads.readsTo.view hs
  have hcoherent := hreads.readsTo.coherent hs
  have hguarded : s.InRange := hs.guarded fun txid coins h => hrange txid coins (hreport ▸ h)
  have hstart : (startLoop view).Sound := ⟨(hreads.guarded hguarded).2, Int.le_refl 0⟩
  have hmasked : ∀ tx ∈ block.vtx, view.Masked (env.getHash tx) := by
    intro tx htx
    refine masked_of_view_eq_none ?_
    rw [hview]
    cases henforce : enforceBIP30 env pindex with
    | true => exact hbip30 henforce hs tx htx
    | false => exact hreport ▸ hnew henforce tx htx
  rw [connectAmounts, forall_mem_append, loopAmounts_fit_iff hstart hchecked.transactions
    (getValueOut_of_checkBlock hcheck), rewardAmounts_fit_iff hstart hchecked, hreport, ← hview]
  refine and_congr ⟨?_, ?_⟩ ?_
  · rintro hfits pre tx post hvtx ⟨st, view', hrun, hfee⟩
    exact (txFits_iff hcoherent (fun t ht => hmasked t (hvtx ▸ mem_append_left _ ht)) hrun).1
      (hfits pre tx post st view' hvtx hrun hfee)
  · intro hfits pre tx post st view' hvtx hrun hfee
    exact (txFits_iff hcoherent (fun t ht => hmasked t (hvtx ▸ mem_append_left _ ht)) hrun).2
      (hfits pre tx post hvtx ⟨st, view', hrun, hfee⟩)
  · refine forall₃_congr fun st nSubsidy hrun => ?_
    have hloop : (startLoop view).view.Coherent := hcoherent
    obtain ⟨-, -, hfees⟩ := connectTxs_view hloop hmasked hrun
    rw [hfees]
    change _ → 0 + _ + _ < _ ↔ _
    rw [zero_add]
    rfl

theorem CCoins.inRange_of_forall_mem {coins : CCoins}
    (h : ∀ txout ∈ coins.vout, moneyRange txout.nValue.toInt = true) : coins.InRange :=
  fun _ txout hout => h txout (mem_of_getElem? (SparseList.present_eq_some_iff.1 hout).1)

/-- The theorem applies to a block with one fee of 10. -/
theorem connectAmounts_fit_iff_sample :
    ∃ view, reachLoop sampleEnv sampleOptions sampleBlock samplePosition
        (ViewStack.start (B := coinsMapView) (sampleDB 3) 0) = .ok (some view) ∧
      ∀ pre tx post, sampleBlock.vtx = pre ++ tx :: post →
        ComesTo sampleEnv sampleOptions 5 0 (startLoop view) pre tx →
          FlatMap.Fits sampleEnv 5 (ViewStack.start (B := coinsMapView) (sampleDB 3) 0).report
            pre tx := by
  refine ⟨_, rfl, ((connectAmounts_fit_iff sampleEnv sampleOptions sampleBlock samplePosition
    (ViewStack.start (B := coinsMapView) (sampleDB 3) 0) _ (start_spec _ _).1 ?_ rfl
      fun h => absurd h (by decide)).1 (by decide +kernel)).1⟩
  intro txid coins hcoins
  rw [report_of_singleton rfl hcoins]
  exact CCoins.inRange_of_forall_mem (by decide)

def richCoins : CCoins := ⟨false, List.replicate 10 ⟨1000000000000000000, [0x51]⟩, 3, 1⟩

def richDB : CoinsMap where
  coins := AList.singleton 1 richCoins
  hashBestBlock := 7
  unspent _ _ h := by
    rw [lookup_singleton h]
    rfl

def richBlock : CBlock where
  header := sampleBlock.header
  vtx :=
    [⟨1, [⟨⟨0, 0xffffffff⟩, [0x51, 0x51], 0, []⟩], [⟨50, [0x51]⟩], 0⟩,
      ⟨1, (List.range 10).map fun n => ⟨⟨1, UInt32.ofNat n⟩, [], 0, []⟩, [⟨40, [0x51]⟩], 0⟩]

/-- Ten outputs of `MAX_MONEY` overflow the sum of `GetValueIn`. -/
theorem connectAmounts_overflow :
    (ViewStack.start (B := coinsMapView) richDB 0).Coherent ∧
      (ViewStack.start (B := coinsMapView) richDB 0).OutputsInRange ∧
      ∃ view, reachLoop sampleEnv sampleOptions richBlock samplePosition
          (ViewStack.start (B := coinsMapView) richDB 0) = .ok (some view) ∧
        10000000000000000000 ∈
          connectAmounts sampleEnv sampleOptions richBlock samplePosition view ∧
        ¬ FitsInt64 10000000000000000000 := by
  refine ⟨(start_spec _ _).1, ?_, _, rfl, by decide +kernel, by decide⟩
  intro txid coins hcoins
  rw [report_of_singleton rfl hcoins]
  exact CCoins.inRange_of_forall_mem (by decide)

end Coinyecoin
