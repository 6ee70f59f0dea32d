import Coinyecoin.Coins.Coherence
import Coinyecoin.Consensus.Networks
import Coinyecoin.Validation.CheckBlock

/-!
# Reading the inputs of a transaction

`HaveInputs`, `GetOutputFor`, `GetValueIn` and `CheckInputs` read the coins of
the spent transactions through the top cache. They fill caches and change
nothing that is shown: `ViewStack.Reads s s'` is any number of reads, and
`ViewStack.ReadsTo s s'` what they can do to a stack.
-/

namespace Coinyecoin

open Foundation

/-- What `ConnectBlock` takes from other parts of the node: the network, the
index, scripts and signature operations. -/
structure ConnectEnv extends CheckEnv where
  network : Consensus.Network
  getBlockHash : CBlock → uint256
  hashGenesisBlock : uint256
  /-- The height of a block in `mapBlockIndex`. -/
  blockHeight : uint256 → Option ℤ
  /-- Whether a script runs to true against the output it spends. -/
  scriptCheck : CTransaction → ℕ → CTxOut → Bool
  /-- `GetTransactionSigOpCost`, from the spent outputs. -/
  getTransactionSigOpCost : CTransaction → List CTxOut → ℤ
  /-- `SequenceLocks`, from the heights of the spent coins. -/
  sequenceLocks : CTransaction → List Int32 → Bool

namespace ViewStack

variable {B : CCoinsView}

/-- The loop of `HaveInputs`. -/
def haveAll (s : ViewStack B) : List CTxIn → Bool × ViewStack B
  | [] => (true, s)
  | txin :: vin =>
    let accessed := s.accessCoins txin.prevout.hash
    if accessed.1.any fun coins => coins.isAvailable txin.prevout.n then
      haveAll accessed.2 vin
    else
      (false, accessed.2)

def haveInputs (s : ViewStack B) (tx : CTransaction) : Bool × ViewStack B :=
  if tx.isCoinBase then (true, s) else s.haveAll tx.vin

def getOutputFor (s : ViewStack B) (input : CTxIn) : Except Fault (CTxOut × ViewStack B) :=
  let accessed := s.accessCoins input.prevout.hash
  match accessed.1.bind fun coins => coins.output input.prevout.n.toNat with
  | some txout => .ok (txout, accessed.2)
  | none => .error (.assertFailed "coins && coins->IsAvailable(input.prevout.n)")

def getOutputs (s : ViewStack B) : List CTxIn → Except Fault (List CTxOut × ViewStack B)
  | [] => .ok ([], s)
  | txin :: vin => do
    let (txout, s) ← s.getOutputFor txin
    let (vout, s) ← getOutputs s vin
    return (txout :: vout, s)

def getValueIn (s : ViewStack B) (tx : CTransaction) : Except Fault (ℤ × ViewStack B) := do
  if tx.isCoinBase then
    return (0, s)
  let (vout, s) ← s.getOutputs tx.vin
  return ((vout.map fun txout => txout.nValue.toInt).sum, s)

def getHeights (s : ViewStack B) : List CTxIn → Except Fault (List Int32 × ViewStack B)
  | [] => .ok ([], s)
  | txin :: vin => do
    let accessed := s.accessCoins txin.prevout.hash
    match accessed.1 with
    | none => .error .indexOutOfRange
    | some coins =>
      let (heights, s) ← getHeights accessed.2 vin
      return (coins.nHeight :: heights, s)

/-- The loop of `CheckTxInputs`, from the value so far. -/
def sumInputs (env : ConnectEnv) (nSpendHeight : ℤ) (s : ViewStack B) (nValueIn : ℤ) :
    List CTxIn → Except Failure (ℤ × ViewStack B)
  | [] => .ok (nValueIn, s)
  | txin :: vin => do
    let accessed := s.accessCoins txin.prevout.hash
    match accessed.1 with
    | none => .error (.fault (.assertFailed "coins"))
    | some coins =>
      let nCoinbaseMaturity :=
        (env.network.getConsensus coins.nHeight.toUInt32.toNat).nCoinbaseMaturity
      rejectIf (coins.fCoinBase &&
          decide (nSpendHeight - coins.nHeight.toInt < nCoinbaseMaturity))
        (dos 0 "bad-txns-premature-spend-of-coinbase" false)
      match coins.vout[txin.prevout.n.toNat]? with
      | none => .error (.fault .indexOutOfRange)
      | some txout =>
        let nValueIn := nValueIn + txout.nValue.toInt
        rejectIf (!moneyRange txout.nValue.toInt || !moneyRange nValueIn)
          (dos 100 "bad-txns-inputvalues-outofrange" false)
        sumInputs env nSpendHeight accessed.2 nValueIn vin

def checkTxInputs (env : ConnectEnv) (tx : CTransaction) (s : ViewStack B) (nSpendHeight : ℤ) :
    Except Failure (ViewStack B) := do
  let found := s.haveInputs tx
  rejectIf (!found.1) (.error (.invalid ⟨0, 0, "", false⟩))
  let (nValueIn, s) ← sumInputs env nSpendHeight found.2 0 tx.vin
  let nValueOut ← orFault tx.getValueOut
  rejectIf (nValueIn < nValueOut) (dos 100 "bad-txns-in-belowout" false)
  rejectIf (nValueIn - nValueOut < 0) (dos 100 "bad-txns-fee-negative" false)
  rejectIf (!moneyRange (nValueIn - nValueOut)) (dos 100 "bad-txns-fee-outofrange" false)
  return s

/-- The height after that of the view's best block. -/
def getSpendHeight (env : ConnectEnv) (s : ViewStack B) : Except Fault (ℤ × ViewStack B) :=
  let best := s.bestBlock
  match env.blockHeight best.1 with
  | some nHeight => .ok (nHeight + 1, best.2)
  | none => .error .indexOutOfRange

/-- `CheckInputs` for `ConnectBlock`: the result of the script checks, which may
be run at once or queued. -/
def checkInputs (env : ConnectEnv) (tx : CTransaction) (s : ViewStack B) (fScriptChecks : Bool) :
    Except Failure (Bool × ViewStack B) := do
  if tx.isCoinBase then
    return (true, s)
  let (nSpendHeight, s) ← orFault (s.getSpendHeight env)
  let s ← checkTxInputs env tx s nSpendHeight
  if !fScriptChecks then
    return (true, s)
  let (vout, s) ← orFault (s.getOutputs tx.vin)
  return (vout.zipIdx.all fun p => env.scriptCheck tx p.2 p.1, s)

/-- What reads do to a stack: the caches may be filled, and everything is shown
as before. -/
structure ReadsTo (s s' : ViewStack B) : Prop where
  coherent : s.Coherent → s'.Coherent
  flat : s.Coherent → s'.flat = s.flat
  masked : s.Coherent → ∀ t, s.Masked t → s'.Masked t

theorem ReadsTo.refl (s : ViewStack B) : s.ReadsTo s := ⟨id, fun _ => rfl, fun _ _ => id⟩

variable {s s₁ s₂ s₃ s' : ViewStack B} {vin : List CTxIn} {tx : CTransaction} {env : ConnectEnv}
  {nSpendHeight : ℤ}

theorem ReadsTo.trans (h : s₁.ReadsTo s₂) (h' : s₂.ReadsTo s₃) : s₁.ReadsTo s₃ where
  coherent hs := h'.coherent (h.coherent hs)
  flat hs := (h'.flat (h.coherent hs)).trans (h.flat hs)
  masked hs t ht := h'.masked (h.coherent hs) t (h.masked hs t ht)

theorem ReadsTo.view (h : s.ReadsTo s') (hs : s.Coherent) : s'.view = s.view :=
  congrArg FlatState.top (h.flat hs)

theorem accessCoins_readsTo (s : ViewStack B) {txid : uint256} :
    s.ReadsTo (s.accessCoins txid).2 where
  coherent hs := (accessCoins_spec hs txid).2.1
  flat hs := (accessCoins_spec hs txid).2.2
  masked hs _ ht := accessCoins_masked hs txid ht

theorem getBestBlock_levels (base : B.State) (layers : List CCoinsViewCache) :
    (CoherentLayers base layers → CoherentLayers base (getBestBlock base layers).2) ∧
      levels base (getBestBlock base layers).2 = levels base layers := by
  induction layers with
  | nil => exact ⟨id, rfl⟩
  | cons view below ih =>
    rw [getBestBlock]
    split_ifs
    · have hview := viewOf_congr ih.2
      refine ⟨fun h => ⟨?_, ih.1 h.2⟩, ?_⟩
      · rw [hview]
        exact h.1
      · rw [levels_cons, levels_cons, hview, ih.2]
        rfl
    · exact ⟨id, rfl⟩

theorem bestBlock_readsTo (s : ViewStack B) : s.ReadsTo s.bestBlock.2 := by
  unfold bestBlock
  split_ifs
  · obtain ⟨hcoherent, hlevels⟩ := getBestBlock_levels s.base s.below
    have hparent := viewOf_congr hlevels
    refine ⟨fun hs => ⟨?_, hcoherent hs.2⟩, fun _ => FlatState.ext ?_ hlevels, fun _ t ht => ?_⟩
    · rw [hparent]
      exact hs.1
    · exact congrArg (fun m => s.top.readOver m) hparent
    · rw [Masked, parentView, hparent]
      exact ht
  · exact ReadsTo.refl s

/-- Any number of reads, one after the other. -/
inductive Reads : ViewStack B → ViewStack B → Prop
  | refl (s : ViewStack B) : Reads s s
  | access {s s' : ViewStack B} (txid : uint256) (h : Reads (s.accessCoins txid).2 s') : Reads s s'
  | bestBlock {s s' : ViewStack B} (h : Reads s.bestBlock.2 s') : Reads s s'

theorem Reads.trans (h : s₁.Reads s₂) (h' : s₂.Reads s₃) : s₁.Reads s₃ := by
  induction h with
  | refl s => exact h'
  | access txid _ ih => exact .access txid (ih h')
  | bestBlock _ ih => exact .bestBlock (ih h')

theorem Reads.readsTo (h : s.Reads s') : s.ReadsTo s' := by
  induction h with
  | refl s => exact ReadsTo.refl s
  | access txid _ ih => exact (accessCoins_readsTo _).trans ih
  | bestBlock _ ih => exact (bestBlock_readsTo _).trans ih

theorem accessCoins_reads (s : ViewStack B) (txid : uint256) : s.Reads (s.accessCoins txid).2 :=
  .access txid (.refl _)

theorem haveAll_reads (s : ViewStack B) {vin : List CTxIn} : s.Reads (s.haveAll vin).2 := by
  induction vin generalizing s with
  | nil => exact Reads.refl s
  | cons txin vin ih =>
    have hfirst := accessCoins_reads s txin.prevout.hash
    rw [haveAll]
    split_ifs
    · exact hfirst.trans (ih _)
    · exact hfirst

theorem haveInputs_reads (s : ViewStack B) (tx : CTransaction) : s.Reads (s.haveInputs tx).2 := by
  unfold haveInputs
  split_ifs
  · exact Reads.refl s
  · exact haveAll_reads s

theorem getOutputFor_reads {input : CTxIn} {txout : CTxOut}
    (h : s.getOutputFor input = .ok (txout, s')) : s.Reads s' := by
  unfold getOutputFor at h
  dsimp only at h
  split at h
  · cases h
    exact accessCoins_reads s _
  · cases h

theorem getOutputs_reads {vout : List CTxOut}
    (h : s.getOutputs vin = .ok (vout, s')) : s.Reads s' := by
  induction vin generalizing s vout with
  | nil =>
    cases h
    exact Reads.refl _
  | cons txin vin ih =>
    simp only [getOutputs, bind_eq_ok] at h
    obtain ⟨⟨txout, s₁⟩, hfirst, ⟨vout', s₂⟩, hrest, heq⟩ := h
    cases heq
    exact (getOutputFor_reads hfirst).trans (ih hrest)

theorem getValueIn_reads {nValueIn : ℤ}
    (h : s.getValueIn tx = .ok (nValueIn, s')) : s.Reads s' := by
  unfold getValueIn at h
  split_ifs at h
  · cases h
    exact Reads.refl s
  · simp only [bind_eq_ok] at h
    obtain ⟨⟨vout, s₁⟩, hread, heq⟩ := h
    cases heq
    exact getOutputs_reads hread

theorem getHeights_reads {heights : List Int32}
    (h : s.getHeights vin = .ok (heights, s')) : s.Reads s' := by
  induction vin generalizing s heights with
  | nil =>
    cases h
    exact Reads.refl _
  | cons txin vin ih =>
    rw [getHeights] at h
    dsimp only at h
    split at h
    · cases h
    · rw [bind_eq_ok] at h
      obtain ⟨⟨heights', s₁⟩, hrest, heq⟩ := h
      cases heq
      exact (accessCoins_reads s _).trans (ih hrest)

theorem sumInputs_reads {nSpendHeight nValueIn n : ℤ}
    (h : sumInputs env nSpendHeight s nValueIn vin = .ok (n, s')) :
    s.Reads s' := by
  induction vin generalizing s nValueIn with
  | nil =>
    cases h
    exact Reads.refl _
  | cons txin vin ih =>
    rw [sumInputs] at h
    dsimp only at h
    split at h
    · cases h
    · rw [bind_eq_ok] at h
      obtain ⟨-, -, h⟩ := h
      split at h
      · cases h
      · rw [bind_eq_ok] at h
        obtain ⟨-, -, hrest⟩ := h
        exact (accessCoins_reads s _).trans (ih hrest)

theorem checkTxInputs_reads (h : checkTxInputs env tx s nSpendHeight = .ok s') : s.Reads s' := by
  simp only [checkTxInputs, bind_eq_ok] at h
  obtain ⟨-, -, ⟨n, s₁⟩, hsum, -, -, -, -, -, -, -, -, heq⟩ := h
  cases heq
  exact (haveInputs_reads s tx).trans (sumInputs_reads hsum)

theorem getSpendHeight_reads (h : s.getSpendHeight env = .ok (nSpendHeight, s')) : s.Reads s' := by
  unfold getSpendHeight at h
  dsimp only at h
  split at h
  · cases h
    exact .bestBlock (.refl _)
  · cases h

theorem checkInputs_reads
    {fScriptChecks pass : Bool} (h : s.checkInputs env tx fScriptChecks = .ok (pass, s')) :
    s.Reads s' := by
  unfold checkInputs at h
  split_ifs at h
  · cases h
    exact Reads.refl s
  · simp only [bind_eq_ok, orFault_eq_ok] at h
    obtain ⟨⟨n, s₁⟩, hheight, s₂, htx, heq⟩ := h
    cases heq
    exact (getSpendHeight_reads hheight).trans (checkTxInputs_reads htx)
  · simp only [bind_eq_ok, orFault_eq_ok] at h
    obtain ⟨⟨n, s₁⟩, hheight, s₂, htx, ⟨vout, s₃⟩, hout, heq⟩ := h
    cases heq
    exact ((getSpendHeight_reads hheight).trans (checkTxInputs_reads htx)).trans
      (getOutputs_reads hout)

end ViewStack

end Coinyecoin
