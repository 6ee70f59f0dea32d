import Coinyecoin.Coins.Refinement
import Coinyecoin.Validation.Connected

/-!
# Disconnecting undoes connecting

The undo data that `UpdateCoins` records puts every coin back. Spent outputs are
put back in reverse order, so each record meets the coins it was made from: the
relation `Restored V W` says that the view `W` shows the coins of `V`, up to the
scripts of null outputs, which are not recorded. One spent input, one
transaction and the transactions of a block are undone in turn.

Two things are asked of the coins in the view. Height zero marks undo records
without metadata, so no coins may have it; and positions of outputs are computed
in 32 bits, so there are fewer than `2 ^ 32` of them.
-/

namespace Coinyecoin

open Foundation List Function CCoins CacheSlot SparseList CTxOut

namespace CCoins

/-- Coins `b` that stand for `a` again: the same unspent outputs and metadata,
and no worse in form. -/
structure Restores (a b : CCoins) : Prop where
  same : a.Same b
  trimmed : SparseList.Trimmed CTxOut.isNull a.vout → SparseList.Trimmed CTxOut.isNull b.vout
  uniform : SparseList.Uniform CTxOut.isNull CTxOut.null a.vout →
    SparseList.Uniform CTxOut.isNull CTxOut.null b.vout

theorem Restores.refl (a : CCoins) : a.Restores a := ⟨Same.refl a, id, id⟩

theorem Restores.eq {a b : CCoins} (h : a.Restores b) (ha : a.Canonical) : b = a :=
  (h.same.eq ha ⟨h.trimmed ha.trimmed, h.uniform ha.uniform⟩).symm

/-- Coins whose spent outputs can be put back. -/
structure Undoable (coins : CCoins) : Prop where
  nHeight : coins.nHeight ≠ 0
  vout_length : coins.vout.length < 2 ^ 32

theorem length_cleanup_le (coins : CCoins) : coins.cleanup.vout.length ≤ coins.vout.length :=
  (List.rdropWhile_prefix isNull coins.vout).length_le

theorem Undoable.spend {coins : CCoins} (h : coins.Undoable) {n : UInt32}
    (hn : coins.isAvailable n = true) : (coins.spend n).Undoable := by
  refine ⟨by rw [spend_nHeight]; exact h.nHeight, ?_⟩
  rw [spend_of_isAvailable hn]
  have hle := length_cleanup_le { coins with vout := coins.vout.set n.toNat null }
  rw [length_set] at hle
  exact lt_of_le_of_lt hle h.vout_length

theorem undoable_fromTx {tx : CTransaction} (htx : tx.Checked) {nHeight : Int32}
    (hheight : nHeight ≠ 0) : (fromTx tx nHeight).Undoable := by
  refine ⟨hheight, lt_of_le_of_lt (length_cleanup_le _) ?_⟩
  rw [length_map]
  exact lt_of_le_of_lt htx.vout_length (by decide)

end CCoins

theorem ofSpent_eq {coins : CCoins} {n : UInt32} (hn : coins.isAvailable n = true)
    (txout : CTxOut) :
    CTxInUndo.ofSpent txout (coins.spend n) =
      if (coins.spend n).isPruned then
        ⟨txout, coins.fCoinBase, coins.nHeight.toUInt32, coins.nVersion⟩
      else ⟨txout, false, 0, 0⟩ := by
  have hvout : ((coins.spend n).vout.length == 0) = (coins.spend n).isPruned := by
    rw [Bool.eq_iff_iff, beq_iff_eq, length_eq_zero_iff, ← cleanup_spend hn,
      vout_cleanup_eq_nil_iff, isPruned_cleanup]
  rw [CTxInUndo.ofSpent, hvout]
  simp only [spend_fCoinBase, spend_nHeight, spend_nVersion]

theorem putOutput_eq {n : UInt32} (hn : n.toNat + 1 < 2 ^ 32) (coins : CCoins) (txout : CTxOut) :
    ViewStack.putOutput coins n txout =
      .ok { coins with vout := place null coins.vout n.toNat txout } := by
  have hsucc : (n + 1).toNat = n.toNat + 1 := by
    rw [UInt32.toNat_add]
    exact Nat.mod_eq_of_lt hn
  unfold ViewStack.putOutput
  dsimp only
  rw [hsucc, if_pos (by rw [length_append, length_replicate]; omega)]
  rfl

theorem restores_place {a : CCoins} {b : CCoins} {n : ℕ} {txout : CTxOut}
    (hout : a.output n = some txout) (hmeta : a.fCoinBase = b.fCoinBase ∧ a.nHeight = b.nHeight ∧
      a.nVersion = b.nVersion)
    (hothers : ∀ m, m ≠ n → a.output m = b.output m)
    (huniform : SparseList.Uniform isNull null a.vout →
      SparseList.Uniform isNull null b.vout) :
    Option.Rel CCoins.Restores (some a)
      (CCoins.live (CCoins.cleanup
        { b with vout := place null b.vout n txout })) := by
  have hnull : txout.isNull = false := (present_eq_some_iff.1 hout).2
  have houtput : ∀ m, a.output m = CCoins.output
      { b with vout := place null b.vout n txout } m := by
    intro m
    change _ = present isNull (place null b.vout n txout) m
    rw [present_place isNull_null _ _ hnull]
    split_ifs with hm
    · rw [hm, ← hout]
    · exact hothers m hm
  have hpruned : (CCoins.cleanup
      { b with vout := place null b.vout n txout }).isPruned = false := by
    rw [isPruned_cleanup]
    exact not_isPruned_of_output ((houtput n).symm.trans hout)
  have hlive := live_of_not_null hpruned
  rw [CCoins.live, hlive]
  refine Option.Rel.some ⟨⟨hmeta.1, hmeta.2.1, hmeta.2.2, fun m => ?_⟩, fun _ => ?_, fun ha => ?_⟩
  · rw [houtput m, output_cleanup]
  · exact trimmed_rdropWhile _
  · exact ((huniform ha).place hnull).rdropWhile

namespace ViewStack

variable {B : CCoinsView}

/-- A view that shows the coins of another one again. -/
def Restored (V W : FlatMap) : Prop := ∀ txid, Option.Rel CCoins.Restores (V txid) (W txid)

theorem Restored.refl (V : FlatMap) : Restored V V := by
  intro txid
  cases V txid with
  | none => exact Option.Rel.none
  | some coins => exact Option.Rel.some (CCoins.Restores.refl coins)

variable {a b : Option CCoins}

theorem Restored.update {V W : FlatMap} (h : Restored V W) (txid : uint256)
    (hab : Option.Rel CCoins.Restores a b) :
    Restored (Function.update V txid a) (Function.update W txid b) := by
  intro t
  by_cases ht : t = txid
  · subst ht
    rw [update_self, update_self]
    exact hab
  · rw [update_of_ne ht, update_of_ne ht]
    exact h t

theorem rel_none (h : Option.Rel CCoins.Restores none a) : a = none := by
  cases h
  rfl

theorem rel_some {a : CCoins} (h : Option.Rel CCoins.Restores (some a) b) :
    ∃ b', b = some b' ∧ a.Restores b' := by
  cases h with
  | some hab => exact ⟨_, rfl, hab⟩

section

variable {a d : CCoins} {n : UInt32} {txout : CTxOut}

section

variable (hout : a.output n.toNat = some txout) (ha : a.Undoable)
include hout ha

theorem lt_of_output : n.toNat + 1 < 2 ^ 32 := by
  have hlt := (List.getElem?_eq_some_iff.1 (present_eq_some_iff.1 hout).1).1
  have hlen := ha.vout_length
  omega

theorem undoEdit_last (hpruned : (a.spend n).isPruned = true) (hd : d.isPruned = true) :
    ∃ e, undoEdit (.ofSpent txout (a.spend n)) n d = .ok (true, e) ∧
      Option.Rel CCoins.Restores (some a) e.cleanup.live := by
  have havail : a.isAvailable n = true := isAvailable_iff.2 ⟨txout, hout⟩
  have hheight : (a.nHeight.toUInt32 != 0) = true := by
    rw [bne_iff_ne]
    intro hzero
    exact ha.nHeight (congrArg UInt32.toInt32 hzero)
  have hothers : ∀ m, m ≠ n.toNat → a.output m = none := by
    intro m hm
    have hspent := output_eq_none_of_isPruned hpruned m
    rw [output_spend havail, if_neg hm] at hspent
    exact hspent
  rw [ofSpent_eq havail, if_pos hpruned]
  simp only [undoEdit, undoTarget, hheight, if_true, hd, putOutput_eq (lt_of_output hout ha),
    ok_bind]
  exact ⟨_, rfl, restores_place (b := ⟨a.fCoinBase, [], a.nHeight.toUInt32.toInt32, a.nVersion⟩)
    hout ⟨rfl, rfl, rfl⟩ hothers (fun _ _ hmem => nomatch hmem)⟩

theorem undoEdit_other (hpruned : (a.spend n).isPruned = false) (hd : (a.spend n).Restores d) :
    ∃ e, undoEdit (.ofSpent txout (a.spend n)) n d = .ok (true, e) ∧
      Option.Rel CCoins.Restores (some a) e.cleanup.live := by
  have havail : a.isAvailable n = true := isAvailable_iff.2 ⟨txout, hout⟩
  have hdpruned : d.isPruned = false := hd.same.isPruned.symm.trans hpruned
  have hunavail : d.isAvailable n = false := by
    rw [isAvailable, ← hd.same.output, output_spend havail, if_pos rfl]
    rfl
  rw [ofSpent_eq havail, if_neg (by rw [hpruned]; exact Bool.false_ne_true)]
  simp only [undoEdit, undoTarget, bne_self_eq_false, Bool.false_eq_true, if_false, hdpruned,
    hunavail, putOutput_eq (lt_of_output hout ha), ok_bind]
  refine ⟨_, rfl, restores_place hout ⟨?_, ?_, ?_⟩ (fun m hm => ?_) (fun hu => hd.uniform ?_)⟩
  · rw [← hd.same.fCoinBase, spend_fCoinBase]
  · rw [← hd.same.nHeight, spend_nHeight]
  · rw [← hd.same.nVersion, spend_nVersion]
  · rw [← hd.same.output, output_spend havail, if_neg hm]
  · rw [spend_of_isAvailable havail]
    exact (hu.set fun _ => rfl).rdropWhile

theorem undoEdit_spend (hd : Option.Rel CCoins.Restores (a.spend n).live d.live) :
    ∃ e, undoEdit (.ofSpent txout (a.spend n)) n d = .ok (true, e) ∧
      Option.Rel CCoins.Restores (some a) e.cleanup.live := by
  cases hpruned : (a.spend n).isPruned with
  | true =>
    rw [CCoins.live, live_of_null hpruned] at hd
    exact undoEdit_last hout ha hpruned (live_eq_none_iff.1 (rel_none hd))
  | false =>
    rw [CCoins.live, live_of_not_null hpruned] at hd
    obtain ⟨d', hd', hrestores⟩ := rel_some hd
    obtain ⟨-, rfl⟩ := live_eq_some_iff.1 hd'
    exact undoEdit_other hout ha hpruned hrestores

end

end

def UndoableView (V : FlatMap) : Prop := ∀ txid coins, V txid = some coins → coins.Undoable

theorem UndoableView.update {V : FlatMap} (h : UndoableView V) (txid : uint256) {coins : CCoins}
    (hcoins : coins.Undoable) : UndoableView (Function.update V txid coins.live) := by
  intro t c hc
  by_cases ht : t = txid
  · subst ht
    rw [update_self] at hc
    obtain ⟨-, rfl⟩ := live_eq_some_iff.1 hc
    exact hcoins
  · rw [update_of_ne ht] at hc
    exact h t c hc

variable {s s' : ViewStack B} {tx : CTransaction} {nHeight : Int32} {env : ConnectEnv}

theorem spendInput_undone (hs : s.Coherent) (hV : UndoableView s.view)
    {txin : CTxIn} {undo : CTxInUndo} (hrun : s.spendInput txin = .ok (undo, s')) :
    UndoableView s'.view ∧ ∀ w : ViewStack B, w.Coherent → Restored s'.view w.view →
      ∃ w', applyTxInUndo undo w txin.prevout = .ok (true, w') ∧ w'.Coherent ∧
        Restored s.view w'.view := by
  obtain ⟨a, txout, hview, hout, rfl, -, hview', -⟩ := spendInput_spec hs hrun
  have ha : a.Undoable := hV _ a hview
  have havail : a.isAvailable txin.prevout.n = true := isAvailable_iff.2 ⟨txout, hout⟩
  refine ⟨?_, fun w hw hrestored => ?_⟩
  · rw [hview']
    exact hV.update _ (ha.spend havail)
  · have hd := hrestored txin.prevout.hash
    rw [hview', update_self, ← live_opened hw] at hd
    obtain ⟨e, hedit, he⟩ := undoEdit_spend hout ha hd
    obtain ⟨hcoherent, hflat, -⟩ := edited_spec hw txin.prevout.hash e
    refine ⟨w.edited txin.prevout.hash e, ?_, hcoherent, ?_⟩
    · rw [applyTxInUndo, modifyCoins_eq, hedit, ok_bind]
    · have hwview : (w.edited txin.prevout.hash e).view =
          Function.update w.view txin.prevout.hash e.cleanup.live :=
        congrArg FlatState.top hflat
      -- off the spent transaction nothing changed, at it the coins are back
      have hback := hrestored.update txin.prevout.hash he
      rw [hview', update_idem, ← hview, update_eq_self] at hback
      rw [hwview]
      exact hback

theorem spendInputs_undone (hs : s.Coherent) (hV : UndoableView s.view)
    {vin : List CTxIn} {vprevout : List CTxInUndo} (hrun : s.spendInputs vin = .ok (vprevout, s')) :
    s'.Coherent ∧ UndoableView s'.view ∧ (∀ t, s.Masked t → s'.Masked t) ∧
      vprevout.length = vin.length ∧
      ∀ w : ViewStack B, w.Coherent → Restored s'.view w.view →
        ∃ w', w.restoreInputs (vin.zip vprevout) = .ok (true, w') ∧ w'.Coherent ∧
          Restored s.view w'.view := by
  induction vin generalizing s vprevout with
  | nil =>
    cases hrun
    exact ⟨hs, hV, fun _ ht => ht, rfl, fun w hw hrestored => ⟨w, rfl, hw, hrestored⟩⟩
  | cons txin vin ih =>
    simp only [spendInputs, bind_eq_ok] at hrun
    obtain ⟨⟨undo, s₁⟩, hfirst, ⟨rest, s₂⟩, hrest, heq⟩ := hrun
    cases heq
    obtain ⟨-, -, -, -, -, hs₁, -, hmasked₁⟩ := spendInput_spec hs hfirst
    obtain ⟨hV₁, hundo₁⟩ := spendInput_undone hs hV hfirst
    obtain ⟨hs', hV', hmasked, hlength, hundo⟩ := ih hs₁ hV₁ hrest
    refine ⟨hs', hV', fun t ht => hmasked t (hmasked₁ t ht), congrArg (· + 1) hlength,
      fun w hw hrestored => ?_⟩
    obtain ⟨w₁, hw₁run, hw₁, hrestored₁⟩ := hundo w hw hrestored
    obtain ⟨w', hw'run, hw', hrestored'⟩ := hundo₁ w₁ hw₁ hrestored₁
    refine ⟨w', ?_, hw', hrestored'⟩
    simp only [zip_cons_cons, restoreInputs, hw₁run, hw'run, ok_bind]
    rfl

theorem outputsMatch_of_restores (htx : tx.Checked) {outs : CCoins}
    (h : Option.Rel CCoins.Restores (fromTx tx nHeight).live outs.live) :
    outputsMatch tx nHeight outs = true := by
  unfold outputsMatch
  cases hpruned : (fromTx tx nHeight).isPruned with
  | true =>
    -- nothing spendable was created, and nothing is there
    rw [CCoins.live, live_of_null hpruned] at h
    have hcleared := isPruned_clearUnspendable (live_eq_none_iff.1 (rel_none h))
    refine equal_of_isPruned ?_ hpruned
    split_ifs
    · exact hcleared
    · exact hcleared
  | false =>
    rw [CCoins.live, live_of_not_null hpruned] at h
    obtain ⟨d, hd, hrestores⟩ := rel_some h
    obtain ⟨-, rfl⟩ := live_eq_some_iff.1 hd
    have hnull : ∀ txout ∈ tx.vout, txout.isNull = false := by
      intro txout hmem
      have hvalue := (htx.values txout hmem).1
      rw [isNull, beq_eq_false_iff_ne]
      intro heq
      rw [heq] at hvalue
      exact absurd hvalue (by decide)
    rw [hrestores.eq (canonical_fromTx hnull nHeight), fromTx, clearUnspendable_idem]
    dsimp only
    split_ifs
    · exact equal_self _
    · exact equal_self _

theorem removeOutputs_spec (htx : tx.Checked) {w : ViewStack B} (hw : w.Coherent)
    (hcreated : Option.Rel CCoins.Restores (fromTx tx nHeight).live
      (w.view (env.getHash tx))) :
    ∃ w', removeOutputs env tx nHeight w = .ok (true, w') ∧ w'.Coherent ∧
      w'.view = Function.update w.view (env.getHash tx) none := by
  obtain ⟨hcoherent, hflat, -⟩ := edited_spec hw (env.getHash tx) empty
  refine ⟨w.edited (env.getHash tx) empty, ?_, hcoherent, congrArg FlatState.top hflat⟩
  rw [← live_opened hw] at hcreated
  rw [removeOutputs, modifyCoins_eq, ok_bind, outputsMatch_of_restores htx hcreated]

/-- One transaction: what connecting it keeps, and that the body of the loop of
`DisconnectBlock` undoes it. -/
theorem updateCoins_undone (htx : tx.Checked) (hheight : nHeight ≠ 0) (hs : s.Coherent)
    (hV : UndoableView s.view) (hmasked : s.Masked (env.getHash tx))
    (hcoinbase : tx.isCoinBase = true → s.view (env.getHash tx) = none) {txundo : CTxUndo}
    (hrun : s.updateCoins env tx nHeight = .ok (txundo, s')) :
    s'.Coherent ∧ UndoableView s'.view ∧ (∀ t, s.Masked t → s'.Masked t) ∧
      ∀ w : ViewStack B, w.Coherent → Restored s'.view w.view →
        ∃ w', disconnectTx env nHeight tx (if tx.isCoinBase then none else some txundo) w =
            .ok (true, w') ∧ w'.Coherent ∧ Restored s.view w'.view := by
  simp only [updateCoins, bind_eq_ok] at hrun
  obtain ⟨⟨vprevout, s₁⟩, hspend, s₂, hnew, heq⟩ := hrun
  cases heq
  unfold markSpent at hspend
  -- the outputs go where nothing unspent was
  have hinputs : s₁.Coherent ∧ UndoableView s₁.view ∧ (∀ t, s.Masked t → s₁.Masked t) ∧
      s₁.view (env.getHash tx) = none := by
    split_ifs at hspend with hcb
    · cases hspend
      exact ⟨hs, hV, fun _ ht => ht, hcoinbase hcb⟩
    · obtain ⟨hs₁, hV₁, hmasked₁, -, -⟩ := spendInputs_undone hs hV hspend
      rw [Bool.not_eq_true] at hcb
      rw [hcb] at hnew
      exact ⟨hs₁, hV₁, hmasked₁, view_eq_none_of_modifyNewCoins (hmasked₁ _ hmasked) hnew⟩
  obtain ⟨hs₁, hV₁, hmasked₁, hnone⟩ := hinputs
  obtain ⟨hs₃, hview, hmasked₃⟩ := modifyNewCoins_created hs₁ (Or.inr hnone) hnew
  refine ⟨hs₃, ?_, fun t ht => hmasked₃ t (hmasked₁ t ht), fun w hw hrestored => ?_⟩
  · rw [hview]
    exact hV₁.update _ (undoable_fromTx htx hheight)
  · have hcreated := hrestored (env.getHash tx)
    rw [hview, update_self] at hcreated
    obtain ⟨w₁, hremove, hw₁, hw₁view⟩ := removeOutputs_spec htx hw hcreated
    have hrestored₁ : Restored s₁.view w₁.view := by
      have hback := hrestored.update (env.getHash tx) Option.Rel.none
      rw [hview, update_idem, ← hnone, update_eq_self, hnone] at hback
      rw [hw₁view]
      exact hback
    split_ifs at hspend ⊢ with hcb
    · cases hspend
      refine ⟨w₁, ?_, hw₁, hrestored₁⟩
      simp only [disconnectTx, hremove, orFault, Except.mapError, ok_bind]
      rfl
    · obtain ⟨-, -, -, hlength, hundo⟩ := spendInputs_undone hs hV hspend
      obtain ⟨w', hrestore, hw', hrestored'⟩ := hundo w₁ hw₁ hrestored₁
      refine ⟨w', ?_, hw', hrestored'⟩
      simp only [disconnectTx, hremove, hrestore, hlength, orFault, Except.mapError, ok_bind,
        bne_self_eq_false, rejectIf, Bool.false_eq_true, if_false]
      rfl

end ViewStack

open ViewStack

variable {B : CCoinsView} {env : ConnectEnv} {nHeight : Int32} {V W : ViewStack B} {txid : uint256}
  {coins c : CCoins}

theorem disconnectTxs_cons {w w₁ w' : ViewStack B}
    {tx : CTransaction} {txundo : Option CTxUndo} {rest : List (CTransaction × Option CTxUndo)}
    (hrest : w.disconnectTxs env nHeight rest = .ok (true, w₁))
    (hfirst : disconnectTx env nHeight tx txundo w₁ = .ok (true, w')) :
    w.disconnectTxs env nHeight ((tx, txundo) :: rest) = .ok (true, w') := by
  simp only [disconnectTxs, hrest, hfirst, ok_bind]
  rfl

theorem Connected.undone (hheight : nHeight ≠ 0)
    {vtx : List CTransaction} {undos : List CTxUndo} {s s' : ViewStack B}
    (h : Connected env nHeight vtx s undos s')
    (hvtx : ∀ tx ∈ vtx, tx.Checked ∧ tx.isCoinBase = false) (hs : s.Coherent)
    (hV : UndoableView s.view) (hmasked : ∀ tx ∈ vtx, s.Masked (env.getHash tx)) :
    s'.Coherent ∧ ∀ w : ViewStack B, w.Coherent → Restored s'.view w.view →
      ∃ w', w.disconnectTxs env nHeight (vtx.zip (undos.map some)) = .ok (true, w') ∧
        w'.Coherent ∧ Restored s.view w'.view := by
  induction h with
  | nil hread =>
    refine ⟨hread.coherent hs, fun w hw hrestored => ⟨w, rfl, hw, ?_⟩⟩
    rw [← hread.view hs]
    exact hrestored
  | @cons tx vtx s s₁ s₂ s' txundo undos hread hupdate _ ih =>
    obtain ⟨⟨htx, hcb⟩, hvtx⟩ := forall_mem_cons.1 hvtx
    obtain ⟨hmasked₀, hmasked⟩ := forall_mem_cons.1 hmasked
    have hs₁ := hread.coherent hs
    have hview := hread.view hs
    rw [← hview] at hV ⊢
    obtain ⟨hs₂, hV₂, hmasked₂, hundo⟩ := updateCoins_undone htx hheight hs₁ hV
      (hread.masked hs _ hmasked₀) (fun h => by rw [hcb] at h; cases h) hupdate
    obtain ⟨hs', hrest⟩ := ih hvtx hs₂ hV₂
      (fun tx' htx' => hmasked₂ _ (hread.masked hs _ (hmasked tx' htx')))
    refine ⟨hs', fun w hw hrestored => ?_⟩
    obtain ⟨w₁, hw₁run, hw₁, hrestored₁⟩ := hrest w hw hrestored
    obtain ⟨w', hw'run, hw', hrestored'⟩ := hundo w₁ hw₁ hrestored₁
    rw [hcb] at hw'run
    exact ⟨w', disconnectTxs_cons hw₁run hw'run, hw', hrestored'⟩

/-- The same outputs, in the same places, with the same metadata; where one has a
null output, so has the other. -/
structure CCoins.Matches (a b : CCoins) : Prop where
  fCoinBase : a.fCoinBase = b.fCoinBase
  nHeight : a.nHeight = b.nHeight
  nVersion : a.nVersion = b.nVersion
  vout : List.Forall₂ (SparseList.SameEntry CTxOut.isNull) a.vout b.vout

theorem CCoins.Restores.matches {a b : CCoins} (h : a.Restores b)
    (ha : SparseList.Trimmed isNull a.vout) : a.Matches b :=
  ⟨h.same.fCoinBase, h.same.nHeight, h.same.nVersion,
    forall₂_of_present ha (h.trimmed ha) h.same.output⟩

/-- A view of coins that connecting and disconnecting a block can work on. -/
structure CanUndo (V : ViewStack B) : Prop where
  coherent : V.Coherent
  trimmed : ∀ txid coins, V.report txid = some coins →
    SparseList.Trimmed CTxOut.isNull coins.vout
  nHeight : ∀ txid coins, V.report txid = some coins → coins.nHeight ≠ 0
  vout_length : ∀ txid coins, V.report txid = some coins → coins.vout.length < 2 ^ 32

theorem CanUndo.undoableView (h : CanUndo V) : UndoableView V.view := by
  intro txid coins hcoins
  rw [← report_eq_view h.coherent] at hcoins
  exact ⟨h.nHeight txid coins hcoins, h.vout_length txid coins hcoins⟩

theorem CanUndo.matches_of_restored (h : CanUndo V) (hW : W.Coherent)
    (hrestored : Restored V.view W.view) (txid : uint256) :
    Option.Rel CCoins.Matches (V.report txid) (W.report txid) := by
  have hrel := hrestored txid
  rw [← report_eq_view h.coherent, ← report_eq_view hW] at hrel
  cases hcoins : V.report txid with
  | none =>
    rw [hcoins] at hrel
    rw [rel_none hrel]
    exact Option.Rel.none
  | some coins =>
    rw [hcoins] at hrel
    obtain ⟨coins', hcoins', hrestores⟩ := rel_some hrel
    rw [hcoins']
    exact Option.Rel.some (hrestores.matches (h.trimmed txid coins hcoins))

section

variable {opts : ConnectOptions} {block : CBlock} {pindex : BlockPosition} {blockundo : CBlockUndo}
  (hV : CanUndo V) (hgenesis : env.getBlockHash block ≠ env.hashGenesisBlock)
  (hheight : 1 ≤ pindex.nHeight)
  (hbip30 : enforceBIP30 env pindex = true ∨ ∀ tx ∈ block.vtx, V.report (env.getHash tx) = none)
  (hconnect : connectBlock env opts block pindex V = .ok (blockundo, W))
include hV hgenesis hheight hbip30 hconnect

theorem connectBlock_undone :
    blockundo.vtxundo.length + 1 = block.vtx.length ∧ W.Coherent ∧
      ∀ w : ViewStack B, w.Coherent → Restored W.view w.view →
        ∃ w', w.disconnectTxs env pindex.nHeight (blockundo.pair block.vtx) = .ok (true, w') ∧
          w'.Coherent ∧ Restored V.view w'.view := by
  simp only [report_eq_view hV.coherent] at hbip30
  obtain ⟨hchecked, hoverwrite, undos, hconnected, hundos⟩ :=
    connectBlock_connected hgenesis hconnect
  have hnone : ∀ tx ∈ block.vtx, V.view (env.getHash tx) = none :=
    hbip30.elim (fun henforce => hoverwrite henforce hV.coherent) id
  have hnz : pindex.nHeight ≠ 0 := by
    intro hzero
    rw [hzero] at hheight
    exact absurd hheight (by decide)
  obtain ⟨tx, rest, hvtx, hcb, hothers⟩ := hchecked.coinbase
  have htxs := hchecked.transactions
  rw [hvtx] at hconnected hnone htxs ⊢
  obtain ⟨hnone₀, hnone⟩ := forall_mem_cons.1 hnone
  obtain ⟨htx, htxs⟩ := forall_mem_cons.1 htxs
  cases hconnected with
  | @cons _ _ _ s₁ s₂ _ txundo undos hread hupdate hrest =>
    have hs₁ := hread.coherent hV.coherent
    have hsame := hread.view hV.coherent
    have hview := hV.undoableView
    rw [← hsame] at hview
    obtain ⟨hs₂, hV₂, hmasked₂, hundo⟩ := updateCoins_undone htx hnz hs₁ hview
      (hread.masked hV.coherent _ (masked_of_view_eq_none hnone₀))
      (fun _ => by rw [hsame]; exact hnone₀) hupdate
    obtain ⟨hW, hrestore⟩ := hrest.undone hnz
      (fun tx' htx' => ⟨htxs tx' htx', hothers tx' htx'⟩) hs₂ hV₂
      (fun tx' htx' => hmasked₂ _ (hread.masked hV.coherent _
        (masked_of_view_eq_none (hnone tx' htx'))))
    refine ⟨?_, hW, fun w hw hrestored => ?_⟩
    · rw [hundos, tail_cons, hrest.length_undos, length_cons]
    · obtain ⟨w₁, hw₁run, hw₁, hrestored₁⟩ := hrestore w hw hrestored
      obtain ⟨w', hw'run, hw', hrestored'⟩ := hundo w₁ hw₁ hrestored₁
      rw [if_pos hcb] at hw'run
      rw [hsame] at hrestored'
      refine ⟨w', ?_, hw', hrestored'⟩
      rw [CBlockUndo.pair, hundos]
      exact disconnectTxs_cons hw₁run hw'run

/-- `DisconnectBlock` on the view that `ConnectBlock` left, if that has the block for its best. -/
theorem disconnectBlock_connectBlock {hashPrev : uint256}
    (hbest : W.bestBlock.1 = pindex.hash) (hprev : pindex.hashPrev = some hashPrev) :
    ∃ W', disconnectBlock env block pindex blockundo W = .ok (true, W') ∧
      ∀ txid, Option.Rel CCoins.Matches (V.report txid) (W'.report txid) := by
  obtain ⟨hlen, hW, hundo⟩ := connectBlock_undone hV hgenesis hheight hbip30 hconnect
  have hread := bestBlock_readsTo W
  have hsame : Restored W.view W.bestBlock.2.view := by
    rw [hread.view hW]
    exact Restored.refl W.view
  obtain ⟨w, hrun, hw, hrestored⟩ := hundo _ (hread.coherent hW) hsame
  have hset := setBestBlock_readsTo w hashPrev
  refine ⟨w.setBestBlock hashPrev, ?_, hV.matches_of_restored (hset.coherent hw) ?_⟩
  · simp only [disconnectBlock, hbest, hlen, hrun, hprev, bne_self_eq_false]
    simp [rejectIf]
    rfl
  · rw [hset.view hw]
    exact hrestored

end

/-- Disconnecting a block right after connecting it is clean and leaves, for
every transaction, the coins that were there before. -/
theorem disconnectTxs_connectBlock (env : ConnectEnv) (opts : ConnectOptions) (block : CBlock)
    (pindex : BlockPosition) (V W : ViewStack B) (blockundo : CBlockUndo) (hV : CanUndo V)
    (hgenesis : env.getBlockHash block ≠ env.hashGenesisBlock) (hheight : 1 ≤ pindex.nHeight)
    (hbip30 : enforceBIP30 env pindex = true ∨
      ∀ tx ∈ block.vtx, V.report (env.getHash tx) = none)
    (hconnect : connectBlock env opts block pindex V = .ok (blockundo, W)) :
    ∃ W', W.disconnectTxs env pindex.nHeight (blockundo.pair block.vtx) = .ok (true, W') ∧
      ∀ txid, Option.Rel CCoins.Matches (V.report txid) (W'.report txid) := by
  obtain ⟨-, hW, hundo⟩ := connectBlock_undone hV hgenesis hheight hbip30 hconnect
  obtain ⟨W', hrun, hW', hrestored⟩ := hundo W hW (Restored.refl W.view)
  exact ⟨W', hrun, hV.matches_of_restored hW' hrestored⟩

def sampleEnv : ConnectEnv where
  getHash tx := if tx.isCoinBase then 2 else 3
  getSerializeSize tx := tx.vout.length
  vout_length_le _ := Nat.le_refl _
  getBlockSize _ := 0
  checkAuxPowProofOfWork _ := true
  blockMerkleRoot _ := (0, false)
  getLegacySigOpCount _ := 0
  network := .main
  getBlockHash _ := 5
  hashGenesisBlock := 4
  blockHeight _ := some 4
  scriptCheck _ _ _ := true
  getTransactionSigOpCost _ _ := 0
  sequenceLocks _ _ := true

def sampleBlock : CBlock where
  header := ⟨1, 7, 0, 0, 0, 0⟩
  vtx :=
    [⟨1, [⟨⟨0, 0xffffffff⟩, [0x51, 0x51], 0, []⟩], [⟨50, [0x51]⟩], 0⟩,
      ⟨1, [⟨⟨1, 0⟩, [], 0, []⟩], [⟨40, [0x51]⟩], 0⟩]

def samplePosition : BlockPosition := ⟨5, 5, some 7, none⟩

def sampleOptions : ConnectOptions := ⟨false, true, true, true⟩

def sampleCoins (nHeight : Int32) : CCoins := ⟨false, [⟨50, [0x51]⟩], nHeight, 1⟩

theorem lookup_singleton
    (h : (AList.singleton (β := fun _ : uint256 => CCoins) 1 coins).lookup txid = some c) :
    c = coins := by
  by_cases ht : txid = 1
  · subst ht
    cases h
    rfl
  · rw [AList.lookup_eq_none.2 (by simpa [AList.mem_keys] using ht)] at h
    cases h

def sampleDB (nHeight : Int32) : CoinsMap where
  coins := AList.singleton 1 (sampleCoins nHeight)
  hashBestBlock := 7
  unspent _ _ h := by
    rw [lookup_singleton h]
    rfl

theorem report_of_singleton {db : CoinsMap} (hdb : db.coins = AList.singleton 1 c)
    (h : (start (B := coinsMapView) db 0).report txid = some coins) : coins = c := by
  have hlookup : CacheSlot.liveOption isPruned (db.coins.lookup txid) = some coins :=
    (report_eq_view (start_spec _ _).1 txid).symm.trans h
  obtain ⟨c', hc, hlive⟩ := Option.bind_eq_some_iff.1 hlookup
  rw [hdb] at hc
  rw [← (live_eq_some_iff.1 hlive).2, lookup_singleton hc]

theorem connectBlock_sample : ∃ r, connectBlock sampleEnv sampleOptions sampleBlock samplePosition
    (start (B := coinsMapView) (sampleDB 3) 0) = .ok r := ⟨_, rfl⟩

/-- The theorem applies to the block above, over coins of height 3. -/
theorem disconnectTxs_connectBlock_sample :
    ∃ blockundo W W', connectBlock sampleEnv sampleOptions sampleBlock samplePosition
        (start (B := coinsMapView) (sampleDB 3) 0) = .ok (blockundo, W) ∧
      W.disconnectTxs sampleEnv 5 (blockundo.pair sampleBlock.vtx) = .ok (true, W') := by
  obtain ⟨⟨blockundo, W⟩, hconnect⟩ := connectBlock_sample
  obtain ⟨W', hrun, -⟩ := disconnectTxs_connectBlock sampleEnv sampleOptions sampleBlock
    samplePosition _ W blockundo
    { coherent := (start_spec _ _).1
      trimmed := fun _ coins hcoins => by rw [report_of_singleton rfl hcoins]; rfl
      nHeight := fun _ coins hcoins => by rw [report_of_singleton rfl hcoins]; decide
      vout_length := fun _ coins hcoins => by rw [report_of_singleton rfl hcoins]; decide }
    (by decide) (by decide) (Or.inl (by decide)) hconnect
  exact ⟨blockundo, W, W', hconnect, hrun⟩

/-- Over coins of height zero the same block connects and does not disconnect
clean, and an undo record at position `2 ^ 32 - 1` cannot be applied. -/
theorem disconnectTxs_height_zero :
    (connectBlock sampleEnv sampleOptions sampleBlock samplePosition
        (start (B := coinsMapView) (sampleDB 0) 0) >>= fun r =>
      (r.2.disconnectTxs sampleEnv 5 (r.1.pair sampleBlock.vtx)).map Prod.fst) = .ok false ∧
    applyTxInUndo ⟨⟨50, [0x51]⟩, false, 3, 1⟩ (start (B := coinsMapView) CoinsMap.empty 0)
      ⟨1, 0xffffffff⟩ = .error .indexOutOfRange :=
  ⟨rfl, rfl⟩

end Coinyecoin
