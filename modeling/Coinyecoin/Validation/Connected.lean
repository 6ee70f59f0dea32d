import Coinyecoin.Validation.ConnectBlock

/-!
# What connecting a block does to the coins

The checks of `ConnectBlock` only read, so what a successful call does to the
coins is a chain of `UpdateCoins` calls with reads in between. `Connected` is
that chain, and `connectBlock_connected` extracts it together with what the
checks have established.
-/

namespace Coinyecoin

open Foundation ViewStack

variable {blockundo : CBlockUndo} {B : CCoinsView}

namespace ViewStack

variable {s : ViewStack B} {txid : uint256} {s' : ViewStack B}

theorem view_of_output (h : s.Coherent) {n : ℕ}
    {txout : CTxOut} (hout : (s.opened txid).output n = some txout) :
    s.view txid = some (s.opened txid) := by
  rw [← live_opened h txid]
  exact CacheSlot.live_of_not_null (CCoins.not_isPruned_of_output hout)

theorem spendInput_spec (h : s.Coherent) {txin : CTxIn} {undo : CTxInUndo}
    (hrun : s.spendInput txin = .ok (undo, s')) :
    ∃ coins txout, s.view txin.prevout.hash = some coins ∧
      coins.output txin.prevout.n.toNat = some txout ∧
      undo = .ofSpent txout (coins.spend txin.prevout.n) ∧ s'.Coherent ∧
      s'.view = Function.update s.view txin.prevout.hash (coins.spend txin.prevout.n).live ∧
      ∀ t, s.Masked t → s'.Masked t := by
  rw [spendInput, modifyCoins_eq, bind_eq_ok] at hrun
  obtain ⟨⟨undo', coins'⟩, hedit, heq⟩ := hrun
  split at hedit
  · cases hedit
  · rename_i txout hout
    have havail : (s.opened txin.prevout.hash).isAvailable txin.prevout.n = true :=
      CCoins.isAvailable_iff.2 ⟨txout, hout⟩
    cases hedit
    cases heq
    obtain ⟨hcoherent, hflat, hmasked⟩ := edited_spec h txin.prevout.hash
      ((s.opened txin.prevout.hash).spend txin.prevout.n)
    rw [CCoins.cleanup_spend havail] at hflat
    exact ⟨_, txout, view_of_output h hout, hout, rfl, hcoherent,
      congrArg FlatState.top hflat, hmasked⟩

theorem modifyNewCoins_created (h : s.Coherent)
    {tx : CTransaction} {nHeight : Int32} {coinbase : Bool}
    (hfresh : coinbase = true ∨ s.view txid = none)
    (hrun : s.modifyNewCoins txid coinbase (fun _ => CCoins.fromTx tx nHeight) = .ok s') :
    s'.Coherent ∧ s'.view = Function.update s.view txid (CCoins.fromTx tx nHeight).live ∧
      ∀ t, s.Masked t → s'.Masked t := by
  obtain ⟨s₁, hnew, hs₁, hflat, hmasked⟩ := modifyNewCoins_spec h txid hfresh
    (fun _ => CCoins.fromTx tx nHeight)
  obtain rfl : s₁ = s' := Except.ok.inj (hnew.symm.trans hrun)
  have hcleanup : (CCoins.fromTx tx nHeight).cleanup = CCoins.fromTx tx nHeight :=
    CCoins.cleanup_clearUnspendable _
  refine ⟨hs₁, ?_, hmasked⟩
  rw [← hcleanup]
  exact congrArg FlatState.top hflat

end ViewStack

variable {env : ConnectEnv} {vtx : List CTransaction} {s s' : ViewStack B}
  {opts : ConnectOptions}
  {nHeight : Int32} {pindex : BlockPosition} {tx : CTransaction} {st st' : ConnectState B}
  {undos : List CTxUndo} {block : CBlock} {i : ℕ}

/-- A chain of `UpdateCoins` calls with reads in between, and the undo data they
recorded. -/
inductive Connected (env : ConnectEnv) (nHeight : Int32) :
    List CTransaction → ViewStack B → List CTxUndo → ViewStack B → Prop
  | nil {s s' : ViewStack B} (hread : s.ReadsTo s') : Connected env nHeight [] s [] s'
  | cons {tx : CTransaction} {vtx : List CTransaction} {s s₁ s₂ s' : ViewStack B}
      {txundo : CTxUndo} {undos : List CTxUndo} (hread : s.ReadsTo s₁)
      (hupdate : s₁.updateCoins env tx nHeight = .ok (txundo, s₂))
      (hrest : Connected env nHeight vtx s₂ undos s') :
      Connected env nHeight (tx :: vtx) s (txundo :: undos) s'

theorem Connected.reads_after {s s' s'' : ViewStack B} (h : Connected env nHeight vtx s undos s')
    (hread : s'.ReadsTo s'') : Connected env nHeight vtx s undos s'' := by
  induction h with
  | nil hfirst => exact .nil (hfirst.trans hread)
  | cons hfirst hupdate _ ih => exact .cons hfirst hupdate (ih hread)

theorem Connected.reads_before {s₀ s s' : ViewStack B} (hread : s₀.ReadsTo s)
    (h : Connected env nHeight vtx s undos s') : Connected env nHeight vtx s₀ undos s' := by
  cases h with
  | nil hfirst => exact .nil (hread.trans hfirst)
  | cons hfirst hupdate hrest => exact .cons (hread.trans hfirst) hupdate hrest

theorem Connected.length_undos (h : Connected env nHeight vtx s undos s') :
    undos.length = vtx.length := by
  induction h with
  | nil _ => rfl
  | cons _ _ _ ih => rw [List.length_cons, List.length_cons, ih]

theorem checkSpends_reads (h : checkSpends env tx s = .ok s') : s.Reads s' := by
  unfold checkSpends at h
  split_ifs at h
  · cases h
    exact ViewStack.Reads.refl s
  · simp only [bind_eq_ok, orFault_eq_ok] at h
    obtain ⟨-, -, ⟨heights, s₁⟩, hheights, -, -, heq⟩ := h
    cases heq
    exact (haveInputs_reads s tx).trans (getHeights_reads hheights)

theorem connectFee_reads {n : ℤ} (h : connectFee tx s = .ok (n, s')) : s.Reads s' := by
  unfold connectFee at h
  split_ifs at h
  · cases h
    exact ViewStack.Reads.refl s
  · simp only [bind_eq_ok] at h
    obtain ⟨⟨nValueIn, s₁⟩, hread, nValueOut, -, heq⟩ := h
    cases heq
    exact getValueIn_reads hread

/-- The body of the loop of `ConnectBlock` up to the fee of the transaction: the
view at that point. -/
def reachFee (env : ConnectEnv) (tx : CTransaction) (st : ConnectState B) :
    Except Failure (ViewStack B) := do
  let view ← checkSpends env tx st.view
  let (prevouts, view) ← orFault (if tx.isCoinBase then .ok ([], view) else view.getOutputs tx.vin)
  let nSigOpsCost := st.nSigOpsCost + env.getTransactionSigOpCost tx prevouts
  rejectIf (nSigOpsCost > MAX_BLOCK_SIGOPS_COST) (dos 100 "bad-blk-sigops" false)
  return view

theorem reachFee_reads {st : ConnectState B}
    {s : ViewStack B} (h : reachFee env tx st = .ok s) : st.view.Reads s := by
  simp only [reachFee, bind_eq_ok, orFault_eq_ok] at h
  obtain ⟨s₁, hspends, ⟨prevouts, s₂⟩, houts, -, -, heq⟩ := h
  cases heq
  refine (checkSpends_reads hspends).trans ?_
  split_ifs at houts
  · cases houts
    exact .refl s₁
  · exact getOutputs_reads houts

theorem connectTx_inv (h : connectTx env opts nHeight i tx st = .ok st') :
    ∃ s₁ s₂ s₃ nTxFee pass txundo, reachFee env tx st = .ok s₁ ∧
      connectFee tx s₁ = .ok (nTxFee, s₂) ∧
      s₂.checkInputs env tx opts.fScriptChecks = .ok (pass, s₃) ∧
      s₃.updateCoins env tx nHeight = .ok (txundo, st'.view) ∧
      st'.nFees = st.nFees + nTxFee ∧
      st'.vtxundo = if i > 0 then st.vtxundo ++ [txundo] else st.vtxundo := by
  simp only [connectTx, bind_eq_ok, orFault_eq_ok] at h
  obtain ⟨s₁, hspends, ⟨prevouts, s₂⟩, houts, u, hops, ⟨nTxFee, s₃⟩, hfee, ⟨pass, s₄⟩, hinputs,
    ⟨txundo, s₅⟩, hupdate, heq⟩ := h
  cases heq
  refine ⟨s₂, s₃, s₄, nTxFee, pass, txundo, ?_, hfee, hinputs, hupdate, rfl, rfl⟩
  simp only [reachFee, bind_eq_ok, orFault_eq_ok]
  exact ⟨s₁, hspends, (prevouts, s₂), houts, u, hops, rfl⟩

theorem connectTx_spec (h : connectTx env opts nHeight i tx st = .ok st') :
    ∃ s₁ txundo, st.view.Reads s₁ ∧
      s₁.updateCoins env tx nHeight = .ok (txundo, st'.view) ∧
      st'.vtxundo = if i > 0 then st.vtxundo ++ [txundo] else st.vtxundo := by
  obtain ⟨s₁, s₂, s₃, nTxFee, pass, txundo, hreach, hfee, hinputs, hupdate, -, hundo⟩ :=
    connectTx_inv h
  have hreads := (reachFee_reads hreach).trans (connectFee_reads hfee)
  exact ⟨s₃, txundo, hreads.trans (checkInputs_reads hinputs), hupdate, hundo⟩

theorem connectTxs_spec (hi : 0 < i) (h : connectTxs env opts nHeight i vtx st = .ok st') :
    ∃ undos, Connected env nHeight vtx st.view undos st'.view ∧
      st'.vtxundo = st.vtxundo ++ undos := by
  induction vtx generalizing i st with
  | nil =>
    cases h
    exact ⟨[], .nil (ViewStack.ReadsTo.refl _), (List.append_nil _).symm⟩
  | cons tx vtx ih =>
    rw [connectTxs, bind_eq_ok] at h
    obtain ⟨st₁, hfirst, hrest⟩ := h
    obtain ⟨s₁, txundo, hread, hupdate, hundo⟩ := connectTx_spec hfirst
    obtain ⟨undos, hconnected, hundos⟩ := ih (Nat.succ_pos i) hrest
    refine ⟨txundo :: undos, .cons hread.readsTo hupdate hconnected, ?_⟩
    rw [hundos, hundo, if_pos hi, List.append_assoc, List.singleton_append]

theorem checkBIP30_spec (h : s.checkBIP30 env vtx = .ok s') :
    s.Reads s' ∧ (s.Coherent → ∀ tx ∈ vtx, s.view (env.getHash tx) = none) := by
  induction vtx generalizing s with
  | nil =>
    cases h
    exact ⟨.refl _, fun _ _ hmem => nomatch hmem⟩
  | cons tx vtx ih =>
    simp only [ViewStack.checkBIP30, dos, bind_eq_ok, rejectIf_eq_ok, exists_const] at h
    obtain ⟨hpruned, hrest⟩ := h
    have hfirst := accessCoins_reads s (env.getHash tx)
    obtain ⟨hread, hnone⟩ := ih hrest
    refine ⟨hfirst.trans hread, fun hs => List.forall_mem_cons.2 ⟨?_, fun tx' htx' => ?_⟩⟩
    · rw [← (accessCoins_spec hs (env.getHash tx)).1]
      cases hcoins : (s.accessCoins (env.getHash tx)).1 with
      | none => rfl
      | some coins =>
        rw [hcoins] at hpruned
        exact CacheSlot.live_of_null (by simpa using hpruned)
    · rw [← hfirst.readsTo.view hs]
      exact hnone (hfirst.readsTo.coherent hs) tx' htx'

theorem checkOverwrites_spec (h : checkOverwrites env pindex vtx s = .ok s') :
    s.Reads s' ∧ (enforceBIP30 env pindex = true → s.Coherent →
      ∀ tx ∈ vtx, s.view (env.getHash tx) = none) := by
  unfold checkOverwrites at h
  split_ifs at h with henforce
  · obtain ⟨hreads, hnone⟩ := checkBIP30_spec h
    exact ⟨hreads, fun _ => hnone⟩
  · cases h
    exact ⟨.refl _, fun htrue => absurd htrue henforce⟩

/-- `ConnectBlock` up to its loop: the view at that point, unless the block is the
genesis block, which is not connected. -/
def reachLoop (env : ConnectEnv) (opts : ConnectOptions) (block : CBlock)
    (pindex : BlockPosition) (view : ViewStack B) : Except Failure (Option (ViewStack B)) := do
  checkBlock env.toCheckEnv block (!opts.fJustCheck) (!opts.fJustCheck)
  let best := view.bestBlock
  orFault (assertThat (pindex.hashPrev.getD 0 = best.1) "hashPrevBlock == view.GetBestBlock()")
  if env.getBlockHash block == env.hashGenesisBlock then
    return none
  rejectIf pindex.hashPrev.isNone (.error (.fault .indexOutOfRange))
  let view ← checkOverwrites env pindex block.vtx best.2
  return some view

theorem reachLoop_spec {s view : ViewStack B}
    (h : reachLoop env opts block pindex s = .ok (some view)) :
    checkBlock env.toCheckEnv block (!opts.fJustCheck) (!opts.fJustCheck) = .ok () ∧
      s.Reads view ∧ (enforceBIP30 env pindex = true → s.Coherent →
        ∀ tx ∈ block.vtx, s.view (env.getHash tx) = none) := by
  simp only [reachLoop, bind_eq_ok] at h
  obtain ⟨u, hcheck, -, -, h⟩ := h
  split_ifs at h
  · cases h
  · simp only [bind_eq_ok] at h
    obtain ⟨-, -, s₁, hbip30, heq⟩ := h
    cases heq
    obtain ⟨hreads, hnone⟩ := checkOverwrites_spec hbip30
    have hbest := bestBlock_readsTo s
    refine ⟨hcheck, .bestBlock hreads, fun henforce hs tx htx => ?_⟩
    rw [← hbest.view hs]
    exact hnone henforce (hbest.coherent hs) tx htx

theorem setBestBlock_readsTo (s : ViewStack B) (hash : uint256) : s.ReadsTo (s.setBestBlock hash) :=
  ⟨fun hs => hs, fun _ => rfl, fun _ _ ht => ht⟩

def blockSubsidy (env : ConnectEnv) (pindex : BlockPosition) : Except Fault ℤ :=
  Consensus.getCoinyecoinBlockSubsidy pindex.nHeight.toInt
    (env.network.getConsensus pindex.nHeight.toUInt32.toNat)

section

variable (hgenesis : env.getBlockHash block ≠ env.hashGenesisBlock)
  (h : connectBlock env opts block pindex s = .ok (blockundo, s'))
include hgenesis h

theorem connectBlock_inv :
    ∃ view st nSubsidy nCoinbaseOut, reachLoop env opts block pindex s = .ok (some view) ∧
      connectTxs env opts pindex.nHeight 0 block.vtx ⟨view, 0, 0, true, []⟩ = .ok st ∧
      blockSubsidy env pindex = .ok nSubsidy ∧
      (block.vtx.head?.map CTransaction.getValueOut).getD (.ok 0) = .ok nCoinbaseOut ∧
      nCoinbaseOut ≤ st.nFees + nSubsidy ∧ st.view.ReadsTo s' ∧
      blockundo.vtxundo = st.vtxundo := by
  have hne : ¬ (env.getBlockHash block == env.hashGenesisBlock) = true := by simpa using hgenesis
  simp only [connectBlock, dos, bind_eq_ok, orFault_eq_ok, if_neg hne] at h
  obtain ⟨u, hcheck, v, hbest, w, hprev, s₁, hbip30, st, hloop, nSubsidy, hsubsidy, nOut, hout, _,
    hle, -, -, hend⟩ := h
  refine ⟨s₁, st, nSubsidy, nOut, ?_, hloop, hsubsidy, hout, ?_, ?_⟩
  · simp only [reachLoop, bind_eq_ok, orFault_eq_ok, if_neg hne]
    exact ⟨u, hcheck, v, hbest, w, hprev, s₁, hbip30, rfl⟩
  · simpa using rejectIf_eq_ok.1 hle
  · split_ifs at hend
    · cases hend
      exact ⟨ViewStack.ReadsTo.refl _, rfl⟩
    · simp only [bind_eq_ok] at hend
      obtain ⟨-, -, -, -, heq⟩ := hend
      cases heq
      exact ⟨setBestBlock_readsTo _ _, rfl⟩

theorem connectBlock_connected :
    block.Checked ∧
      (enforceBIP30 env pindex = true → s.Coherent →
        ∀ tx ∈ block.vtx, s.view (env.getHash tx) = none) ∧
      ∃ undos, Connected env pindex.nHeight block.vtx s undos s' ∧
        blockundo.vtxundo = undos.tail := by
  obtain ⟨view, st, _, _, hreach, hloop, -, -, -, hlast, hblockundo⟩ := connectBlock_inv hgenesis h
  obtain ⟨hcheck, hreads, hnone⟩ := reachLoop_spec hreach
  have hchecked := checkBlock_checked hcheck
  refine ⟨hchecked, hnone, ?_⟩
  obtain ⟨tx, rest, hvtx, -, -⟩ := hchecked.coinbase
  rw [hvtx, connectTxs, bind_eq_ok] at hloop
  obtain ⟨st₁, hfirst, hrest⟩ := hloop
  obtain ⟨s₂, txundo, hread₂, hupdate, hundo⟩ := connectTx_spec hfirst
  obtain ⟨undos, hconnected, hundos⟩ := connectTxs_spec Nat.one_pos hrest
  refine ⟨txundo :: undos, ?_, ?_⟩
  · rw [hvtx]
    exact Connected.reads_before hreads.readsTo
      (.cons hread₂.readsTo hupdate (hconnected.reads_after hlast))
  · rw [hblockundo, hundos, hundo]
    rfl

end

end Coinyecoin
