import Coinyecoin.Foundation.Ledger
import Coinyecoin.Primitives.Serialize
import Coinyecoin.Validation.Undo
import Coinyecoin.Validation.Values
import Mathlib.Data.FinEnum
import Mathlib.Tactic.Ring

/-!
# No coins from nothing

Connecting a transaction turns one map of coins into another:
`FlatMap.connect` spends its inputs and creates its outputs. Read by single
outputs it is an entry of a ledger, so no output of a block is spent twice, and
read by value it takes away what is spent and adds what is created. Since a
transaction creates no more than it spends, but for the coinbase, whose outputs
are bounded by the fees and the subsidy, a block adds at most the subsidy to the
total.
-/

namespace Coinyecoin

open Foundation List Function CCoins ViewStack CTransaction

variable {vin : List CTxIn} {cb : CTransaction}

def CCoins.value (coins : CCoins) : ℤ :=
  (coins.vout.map fun txout => if txout.isNull then 0 else txout.nValue.toInt).sum

namespace CCoins

theorem value_cleanup (coins : CCoins) : coins.cleanup.value = coins.value := by
  have hdrop : ∀ vout : List CTxOut,
      ((vout.rdropWhile CTxOut.isNull).map fun txout =>
        if txout.isNull then 0 else txout.nValue.toInt).sum =
      (vout.map fun txout => if txout.isNull then 0 else txout.nValue.toInt).sum := by
    intro vout
    induction vout using List.reverseRecOn with
    | nil => rfl
    | append_singleton vout txout ih =>
      by_cases hnull : txout.isNull = true
      · rw [rdropWhile_concat_pos _ _ _ hnull, ih, map_append, sum_append]
        simp [hnull]
      · rw [rdropWhile_concat_neg _ _ _ hnull]
  exact hdrop coins.vout

variable {coins : CCoins}

theorem value_spend {n : UInt32} {txout : CTxOut} (hout : coins.output n.toNat = some txout) :
    (coins.spend n).value = coins.value - txout.nValue.toInt := by
  obtain ⟨hget, hnull⟩ := SparseList.present_eq_some_iff.1 hout
  obtain ⟨hlt, hget⟩ := List.getElem?_eq_some_iff.1 hget
  rw [spend_of_isAvailable (isAvailable_iff.2 ⟨txout, hout⟩), value_cleanup, value, value,
    map_set, sum_set']
  simp only [length_map, hlt, dif_pos, getElem_map, hget, hnull, CTxOut.isNull_null,
    Bool.false_eq_true, if_false, if_true]
  ring

theorem value_of_isPruned (h : coins.isPruned = true) : coins.value = 0 := by
  rw [isPruned, all_eq_true] at h
  refine sum_eq_zero fun n hn => ?_
  obtain ⟨txout, htxout, rfl⟩ := mem_map.1 hn
  exact if_pos (h txout htxout)

theorem value_fromTx_le {tx : CTransaction} (h : tx.Checked) (nHeight : Int32) :
    (fromTx tx nHeight).value ≤ tx.outputValue := by
  rw [fromTx, clearUnspendable, value_cleanup, value, outputValue, map_map]
  refine sum_le_sum fun txout htxout => ?_
  have hpos := (h.values txout htxout).1
  simp only [Function.comp]
  split_ifs with hscript hnull hnull
  · exact hpos
  · exact absurd CTxOut.isNull_null hnull
  · exact hpos
  · exact le_refl _

end CCoins

def coinsValue (coins : Option CCoins) : ℤ := (coins.map CCoins.value).getD 0

theorem coinsValue_live (coins : CCoins) : coinsValue coins.live = coins.value := by
  cases hpruned : coins.isPruned with
  | true =>
    rw [CCoins.live, CacheSlot.live_of_null hpruned, value_of_isPruned hpruned]
    rfl
  | false =>
    rw [CCoins.live, CacheSlot.live_of_not_null hpruned]
    rfl

namespace FlatMap

def total (coins : FlatMap) : ℤ := ∑ txid : uint256, coinsValue (coins txid)

def ledger (coins : FlatMap) : Ledger uint256 CTxOut :=
  fun txid n => (coins txid).bind fun c => c.output n

def spend (coins : FlatMap) (out : COutPoint) : FlatMap :=
  Function.update coins out.hash ((coins out.hash).bind fun c => (c.spend out.n).live)

def spendAll (coins : FlatMap) (vin : List CTxIn) : FlatMap :=
  vin.foldl (fun coins txin => coins.spend txin.prevout) coins

/-- The coins after a transaction: its inputs spent, its outputs created. -/
def connect (env : ConnectEnv) (nHeight : Int32) (coins : FlatMap) (tx : CTransaction) : FlatMap :=
  Function.update (coins.spendAll (if tx.isCoinBase then [] else tx.vin)) (env.getHash tx)
    (CCoins.fromTx tx nHeight).live

theorem total_update (coins : FlatMap) (txid : uint256) (c : Option CCoins) :
    total (Function.update coins txid c) =
      coins.total - coinsValue (coins txid) + coinsValue c := by
  have hupdate : ∀ t, coinsValue (Function.update coins txid c t) =
      Function.update (fun t => coinsValue (coins t)) txid (coinsValue c) t := by
    intro t
    by_cases ht : t = txid
    · subst ht
      rw [update_self, update_self]
    · rw [update_of_ne ht, update_of_ne ht]
  have hall := Finset.sum_update_of_mem (Finset.mem_univ txid) (fun t => coinsValue (coins t))
    (coinsValue c)
  have hsplit := Finset.sum_erase_add Finset.univ (fun t => coinsValue (coins t))
    (Finset.mem_univ txid)
  rw [total, total, Finset.sum_congr rfl fun t _ => hupdate t, hall, ← hsplit,
    Finset.sdiff_singleton_eq_erase]
  ring

theorem unspent_eq_ledger (coins : FlatMap) (out : COutPoint) :
    coins.unspent out = coins.ledger out.hash out.n.toNat := rfl

theorem ledger_update_live (coins : FlatMap) (txid : uint256) (c : CCoins) :
    ledger (Function.update coins txid c.live) = Function.update coins.ledger txid c.output := by
  funext t n
  by_cases ht : t = txid
  · subst ht
    rw [ledger, update_self, update_self]
    exact bind_output_liveOption (some c) n
  · rw [ledger, update_of_ne ht, update_of_ne ht]
    rfl

def position (out : COutPoint) : uint256 × ℕ := (out.hash, out.n.toNat)

theorem position_injective : Function.Injective position := by
  rintro ⟨hash, n⟩ ⟨hash', n'⟩ heq
  obtain ⟨hhash, hn⟩ := Prod.mk.inj heq
  exact congrArg₂ COutPoint.mk hhash (UInt32.toNat_inj.1 hn)

variable {coins : FlatMap} {out : COutPoint} {txout : CTxOut}

theorem ledger_spend (hout : coins.unspent out = some txout) :
    (coins.spend out).ledger = coins.ledger.without [position out] := by
  obtain ⟨c, hc, houtput⟩ := Option.bind_eq_some_iff.1 hout
  have hspend : coins.spend out = Function.update coins out.hash (c.spend out.n).live := by
    rw [spend, hc]
    rfl
  rw [hspend, ledger_update_live]
  funext t n
  by_cases ht : t = out.hash
  · subst ht
    rw [update_self, output_spend (isAvailable_iff.2 ⟨txout, houtput⟩)]
    by_cases hn : n = out.n.toNat
    · rw [if_pos hn, hn]
      exact (Ledger.without_of_mem (mem_singleton.2 rfl)).symm
    · have hmem : (out.hash, n) ∉ [position out] :=
        fun hmem => hn (Prod.mk.inj (mem_singleton.1 hmem)).2
      rw [if_neg hn, Ledger.without_of_notMem hmem, ledger, hc]
      rfl
  · have hmem : (t, n) ∉ [position out] :=
      fun hmem => ht (Prod.mk.inj (mem_singleton.1 hmem)).1
    rw [update_of_ne ht, Ledger.without_of_notMem hmem]

theorem total_spend (hout : coins.unspent out = some txout) :
    (coins.spend out).total = coins.total - txout.nValue.toInt := by
  obtain ⟨c, hc, houtput⟩ := Option.bind_eq_some_iff.1 hout
  have hvalue : coinsValue (some c) = c.value := rfl
  rw [spend, hc, total_update, hc, Option.bind_some, coinsValue_live, value_spend houtput, hvalue]
  ring

theorem spendAll_cons (coins : FlatMap) (txin : CTxIn) (vin : List CTxIn) :
    coins.spendAll (txin :: vin) = (coins.spend txin.prevout).spendAll vin := rfl

theorem unspent_spend_of_ne {out o : COutPoint}
    (hout : coins.unspent out = some txout) (ho : o ≠ out) :
    (coins.spend out).unspent o = coins.unspent o := by
  rw [unspent_eq_ledger, ledger_spend hout]
  exact Ledger.without_of_notMem fun hmem => ho (position_injective (mem_singleton.1 hmem))

theorem spendAll_spec (hunspent : ∀ txin ∈ vin, ∃ txout, coins.unspent txin.prevout = some txout)
    (hnodup : (vin.map CTxIn.prevout).Nodup) :
    (coins.spendAll vin).ledger =
        coins.ledger.without (vin.map fun txin => position txin.prevout) ∧
      (coins.spendAll vin).total = coins.total - coins.inputValue vin := by
  induction vin generalizing coins with
  | nil => exact ⟨by funext t n; simp [spendAll, Ledger.without], by simp [spendAll, inputValue]⟩
  | cons txin vin ih =>
    obtain ⟨⟨txout, hout⟩, hothers⟩ := forall_mem_cons.1 hunspent
    rw [map_cons, nodup_cons] at hnodup
    have hkept : ∀ txin' ∈ vin,
        (coins.spend txin.prevout).unspent txin'.prevout = coins.unspent txin'.prevout := by
      intro txin' htxin'
      refine unspent_spend_of_ne hout fun heq => hnodup.1 ?_
      rw [← heq]
      exact mem_map_of_mem htxin'
    obtain ⟨hledger, htotal⟩ := ih
      (fun txin' htxin' => by rw [hkept txin' htxin']; exact hothers txin' htxin') hnodup.2
    have hvalue : (coins.spend txin.prevout).inputValue vin = coins.inputValue vin :=
      congrArg List.sum
        (map_congr_left fun txin' htxin' => congrArg valueOf (hkept txin' htxin'))
    have hcons : coins.inputValue (txin :: vin) =
        txout.nValue.toInt + coins.inputValue vin := by
      rw [inputValue, map_cons, sum_cons, hout]
      rfl
    rw [spendAll_cons]
    constructor
    · rw [hledger, ledger_spend hout, map_cons, ← Ledger.without_cons]
    · rw [htotal, total_spend hout, hvalue, hcons]
      ring

end FlatMap

def CTransaction.entry (env : ConnectEnv) (nHeight : Int32) (tx : CTransaction) :
    Ledger.Entry uint256 CTxOut where
  id := env.getHash tx
  spends := (if tx.isCoinBase then [] else tx.vin).map fun txin => FlatMap.position txin.prevout
  outputs := (CCoins.fromTx tx nHeight).output

/-- A transaction may be connected to the coins: it spends different outputs that
are there, and nothing unspent has its hash then. -/
structure FlatMap.Accepts (env : ConnectEnv) (coins : FlatMap) (tx : CTransaction) : Prop where
  unspent : tx.isCoinBase = false →
    ∀ txin ∈ tx.vin, ∃ txout, coins.unspent txin.prevout = some txout
  nodup : (tx.vin.map CTxIn.prevout).Nodup
  new : coins.spendAll (if tx.isCoinBase then [] else tx.vin) (env.getHash tx) = none

namespace FlatMap.Accepts

variable {env : ConnectEnv} {coins : FlatMap} {tx : CTransaction} (h : coins.Accepts env tx)

include h

variable (nHeight : Int32)

theorem spendAll_spec :
    (coins.spendAll (if tx.isCoinBase then [] else tx.vin)).ledger =
        coins.ledger.without (tx.entry env nHeight).spends ∧
      (coins.spendAll (if tx.isCoinBase then [] else tx.vin)).total =
        coins.total - coins.inputValue (if tx.isCoinBase then [] else tx.vin) := by
  refine FlatMap.spendAll_spec ?_ ?_
  · split_ifs with hcb
    · exact fun _ hmem => nomatch hmem
    · exact h.unspent (by simpa using hcb)
  · split_ifs
    · exact nodup_nil
    · exact h.nodup

theorem ledger_connect :
    (coins.connect env nHeight tx).ledger = coins.ledger.after (tx.entry env nHeight) := by
  rw [connect, ledger_update_live, (h.spendAll_spec nHeight).1]
  rfl

theorem total_connect_le (htx : tx.Checked) (nHeight : Int32) :
    (coins.connect env nHeight tx).total ≤
      coins.total - coins.inputValue (if tx.isCoinBase then [] else tx.vin) + tx.outputValue := by
  have hle := value_fromTx_le htx nHeight
  rw [connect, total_update, h.new, (h.spendAll_spec nHeight).2, coinsValue_live]
  change _ - 0 + _ ≤ _
  omega

theorem spends_there : ∀ o ∈ (tx.entry env nHeight).spends, coins.ledger o.1 o.2 ≠ none := by
  intro o ho
  obtain ⟨txin, htxin, rfl⟩ := mem_map.1 ho
  split_ifs at htxin with hcb
  · cases htxin
  · obtain ⟨txout, hout⟩ := h.unspent (by simpa using hcb) txin htxin
    rw [unspent_eq_ledger] at hout
    rw [position, hout]
    exact Option.some_ne_none txout

end FlatMap.Accepts

section

variable {B : CCoinsView} {env : ConnectEnv}

variable {s s' : ViewStack B}

theorem spendInputs_view (hs : s.Coherent)
    {undos : List CTxInUndo} (hrun : s.spendInputs vin = .ok (undos, s')) :
    s'.Coherent ∧ s'.view = s.view.spendAll vin ∧ ∀ t, s.Masked t → s'.Masked t := by
  induction vin generalizing s undos with
  | nil =>
    cases hrun
    exact ⟨hs, rfl, fun _ ht => ht⟩
  | cons txin vin ih =>
    simp only [spendInputs, bind_eq_ok] at hrun
    obtain ⟨⟨undo, s₁⟩, hfirst, ⟨undos', s₂⟩, hrest, heq⟩ := hrun
    cases heq
    obtain ⟨coins, -, hcoins, -, -, hs₁, hview₁, hmasked₁⟩ := spendInput_spec hs hfirst
    obtain ⟨hs', hview, hmasked⟩ := ih hs₁ hrest
    refine ⟨hs', ?_, fun t ht => hmasked t (hmasked₁ t ht)⟩
    rw [hview, hview₁, FlatMap.spendAll_cons, FlatMap.spend, hcoins]
    rfl

theorem updateCoins_view {tx : CTransaction} {nHeight : Int32}
    (hs : s.Coherent) (hmasked : tx.isCoinBase = false → s.Masked (env.getHash tx))
    {txundo : CTxUndo} (hrun : s.updateCoins env tx nHeight = .ok (txundo, s')) :
    s'.Coherent ∧ s'.view = s.view.connect env nHeight tx ∧
      (tx.isCoinBase = false → s.view.spendAll tx.vin (env.getHash tx) = none) ∧
      ∀ t, s.Masked t → s'.Masked t := by
  simp only [updateCoins, bind_eq_ok] at hrun
  obtain ⟨⟨vprevout, s₁⟩, hspend, s₂, hnew, heq⟩ := hrun
  cases heq
  unfold markSpent at hspend
  unfold FlatMap.connect
  cases hcb : tx.isCoinBase with
  | true =>
    rw [hcb] at hspend hnew
    cases hspend
    obtain ⟨hs', hview, hmasked'⟩ := modifyNewCoins_created hs (Or.inl rfl) hnew
    exact ⟨hs', hview, fun h => (by cases h), hmasked'⟩
  | false =>
    rw [hcb] at hspend hnew
    obtain ⟨hs₁, hview₁, hmasked₁⟩ := spendInputs_view hs hspend
    have hnone := view_eq_none_of_modifyNewCoins (hmasked₁ _ (hmasked hcb)) hnew
    obtain ⟨hs', hview, hmasked'⟩ := modifyNewCoins_created hs₁ (Or.inr hnone) hnew
    rw [hview₁] at hview hnone
    exact ⟨hs', hview, fun _ => hnone, fun t ht => hmasked' t (hmasked₁ t ht)⟩

variable {opts : ConnectOptions} {nHeight : Int32} {i : ℕ} {tx : CTransaction}
  {vtx : List CTransaction} {st st' : ConnectState B}

theorem connectTx_view (hs : st.view.Coherent) (hmasked : st.view.Masked (env.getHash tx))
    (hrun : connectTx env opts nHeight i tx st = .ok st') :
    st'.view.Coherent ∧ st'.view.view = st.view.view.connect env nHeight tx ∧
      (tx.isCoinBase = false → st.view.view.spendAll tx.vin (env.getHash tx) = none) ∧
      ∀ t, st.view.Masked t → st'.view.Masked t := by
  obtain ⟨s₁, txundo, hreads, hupdate, -⟩ := connectTx_spec hrun
  have hread := hreads.readsTo
  obtain ⟨hs', hview, hnone, hmasked'⟩ :=
    updateCoins_view (hread.coherent hs) (fun _ => hread.masked hs _ hmasked) hupdate
  rw [hread.view hs] at hview hnone
  exact ⟨hs', hview, hnone, fun t ht => hmasked' t (hread.masked hs t ht)⟩

theorem connectTx_accepts (hs : st.view.Coherent) (htx : tx.Checked)
    (hmasked : st.view.Masked (env.getHash tx))
    (hcoinbase : tx.isCoinBase = true → st.view.view (env.getHash tx) = none)
    (hrun : connectTx env opts nHeight i tx st = .ok st') :
    st.view.view.Accepts env tx ∧ st'.view.Coherent ∧
      st'.view.view = st.view.view.connect env nHeight tx ∧
      ∀ t, st.view.Masked t → st'.view.Masked t := by
  obtain ⟨hs', hview, hnone, hmasked'⟩ := connectTx_view hs hmasked hrun
  have hguarded : st.view.Guarded fun _ _ _ => True :=
    hs.guarded fun _ _ _ _ _ _ => trivial
  refine ⟨⟨fun hcb => ((connectTx_fees hguarded hrun).2 hcb).1, htx.nodup, ?_⟩, hs', hview,
    hmasked'⟩
  cases hcb : tx.isCoinBase with
  | true => exact hcoinbase hcb
  | false => exact hnone hcb

theorem connectTxs_run (hs : st.view.Coherent)
    (hvtx : ∀ tx ∈ vtx, tx.Checked ∧ tx.isCoinBase = false)
    (hmasked : ∀ tx ∈ vtx, st.view.Masked (env.getHash tx))
    (hrun : connectTxs env opts nHeight i vtx st = .ok st') :
    st'.view.Coherent ∧
      Ledger.Run st.view.view.ledger (vtx.map fun tx => tx.entry env nHeight)
        st'.view.view.ledger ∧
      st'.view.view.total + st'.nFees ≤ st.view.view.total + st.nFees := by
  induction vtx generalizing i st with
  | nil =>
    cases hrun
    exact ⟨hs, .nil _, le_refl _⟩
  | cons tx vtx ih =>
    rw [connectTxs, bind_eq_ok] at hrun
    obtain ⟨st₁, hfirst, hrest⟩ := hrun
    obtain ⟨⟨htx, hcb⟩, hothers⟩ := forall_mem_cons.1 hvtx
    obtain ⟨hmask, hmasks⟩ := forall_mem_cons.1 hmasked
    obtain ⟨haccepts, hs₁, hview₁, hmasked₁⟩ := connectTx_accepts hs htx hmask
      (fun htrue => by rw [hcb] at htrue; cases htrue) hfirst
    obtain ⟨hs', hledger, htotal⟩ :=
      ih hs₁ hothers (fun tx' htx' => hmasked₁ _ (hmasks tx' htx')) hrest
    have hguarded : st.view.Guarded fun _ _ _ => True :=
      hs.guarded fun _ _ _ _ _ _ => trivial
    obtain ⟨-, -, hfees⟩ := (connectTx_fees hguarded hfirst).2 hcb
    have hle := haccepts.total_connect_le htx nHeight
    rw [hcb] at hle
    simp only [Bool.false_eq_true, if_false] at hle
    rw [hview₁, haccepts.ledger_connect] at hledger
    rw [hview₁] at htotal
    exact ⟨hs', .cons (haccepts.spends_there nHeight) hledger, by omega⟩

theorem connectTxs_block (hs : st.view.Coherent) (htxs : ∀ tx ∈ cb :: vtx, tx.Checked)
    (hnone : ∀ tx ∈ cb :: vtx, st.view.view (env.getHash tx) = none)
    (hcb : cb.isCoinBase = true) (hothers : ∀ tx ∈ vtx, tx.isCoinBase = false)
    (hrun : connectTxs env opts nHeight i (cb :: vtx) st = .ok st') :
    st'.view.Coherent ∧
      Ledger.Run st.view.view.ledger ((cb :: vtx).map fun tx => tx.entry env nHeight)
        st'.view.view.ledger ∧
      st'.view.view.total + st'.nFees ≤ st.view.view.total + st.nFees + cb.outputValue := by
  rw [connectTxs, bind_eq_ok] at hrun
  obtain ⟨st₁, hfirst, hrest⟩ := hrun
  obtain ⟨htx, htxs⟩ := forall_mem_cons.1 htxs
  obtain ⟨hnone₀, hnone⟩ := forall_mem_cons.1 hnone
  obtain ⟨haccepts, hs₁, hview₁, hmasked₁⟩ := connectTx_accepts hs htx
    (masked_of_view_eq_none hnone₀) (fun _ => hnone₀) hfirst
  have hguarded : st.view.Guarded fun _ _ _ => True := hs.guarded fun _ _ _ _ _ _ => trivial
  have hfees := (connectTx_fees hguarded hfirst).1 hcb
  obtain ⟨hs', hledger, htotal⟩ := connectTxs_run hs₁
    (fun tx' htx' => ⟨htxs tx' htx', hothers tx' htx'⟩)
    (fun tx' htx' => hmasked₁ _ (masked_of_view_eq_none (hnone tx' htx'))) hrest
  have hcreated := haccepts.total_connect_le htx nHeight
  have hzero : st.view.view.inputValue [] = 0 := rfl
  rw [if_pos hcb, hzero] at hcreated
  rw [hview₁] at htotal
  rw [hview₁, haccepts.ledger_connect] at hledger
  exact ⟨hs', .cons (haccepts.spends_there nHeight) hledger, by omega⟩

/-- The output was unspent among the coins, or one of the transactions created
it. -/
def Origin (env : ConnectEnv) (coins : FlatMap) (done : List CTransaction) (txid : uint256)
    (n : ℕ) (txout : CTxOut) : Prop :=
  coins.ledger txid n = some txout ∨
    ∃ tx ∈ done, env.getHash tx = txid ∧ tx.vout[n]? = some txout

theorem Origin.append {coins : FlatMap} {done : List CTransaction} {txid : uint256} {n : ℕ}
    {txout : CTxOut} (h : Origin env coins done txid n txout) (more : List CTransaction) :
    Origin env coins (done ++ more) txid n txout :=
  h.imp_right fun ⟨tx, htx, heq⟩ => ⟨tx, mem_append_left more htx, heq⟩

theorem connectTxs_origin {coins : FlatMap} {before : List CTransaction}
    (hs : st.view.Guarded (Origin env coins before))
    (hrun : connectTxs env opts nHeight i vtx st = .ok st') :
    ∀ done tx rest, vtx = done ++ tx :: rest → tx.isCoinBase = false → ∀ txin ∈ tx.vin,
      ∃ txout, Origin env coins (before ++ done) txin.prevout.hash txin.prevout.n.toNat txout := by
  induction vtx generalizing i st before with
  | nil =>
    intro done tx rest heq
    exact absurd heq.symm (append_ne_nil_of_right_ne_nil done (cons_ne_nil tx rest))
  | cons tx₀ vtx ih =>
    rw [connectTxs, bind_eq_ok] at hrun
    obtain ⟨st₁, hfirst, hrest⟩ := hrun
    intro done tx rest heq hcb txin htxin
    cases done with
    | nil =>
      cases heq
      obtain ⟨hunspent, -⟩ := (connectTx_fees hs hfirst).2 hcb
      obtain ⟨txout, hout⟩ := hunspent txin htxin
      obtain ⟨c, hc, houtput⟩ := Option.bind_eq_some_iff.1 hout
      rw [append_nil]
      exact ⟨txout, hs.view hc _ _ houtput⟩
    | cons tx₁ done =>
      cases heq
      obtain ⟨s₁, txundo, hreads, hupdate, -⟩ := connectTx_spec hfirst
      have hs₁ : st₁.view.Guarded (Origin env coins (before ++ [tx₀])) := by
        refine updateCoins_guarded
          ((hreads.guarded hs).2.mono fun _ _ _ horigin => horigin.append [tx₀]) ?_ hupdate
        intro n txout hout
        exact Or.inr ⟨tx₀, by simp, rfl, output_fromTx hout⟩
      have hlater := ih hs₁ hrest done tx rest rfl hcb txin htxin
      rwa [append_assoc, singleton_append] at hlater

end

def CTransaction.spent (tx : CTransaction) : List COutPoint :=
  (if tx.isCoinBase then [] else tx.vin).map CTxIn.prevout

/-- Transactions of one hash differ in their witnesses only. -/
def NoCollision (env : ConnectEnv) (vtx : List CTransaction) : Prop :=
  ∀ tx ∈ vtx, ∀ tx' ∈ vtx, env.getHash tx = env.getHash tx' →
    { tx with vin := stripWitness tx.vin } = { tx' with vin := stripWitness tx'.vin }

theorem isCoinBase_stripWitness (tx : CTransaction) :
    ({ tx with vin := stripWitness tx.vin } : CTransaction).isCoinBase = tx.isCoinBase := by
  rcases tx with ⟨nVersion, _ | ⟨txin, _ | ⟨txin', vin⟩⟩, vout, nLockTime⟩ <;> rfl

theorem spent_eq_of_stripWitness {tx tx' : CTransaction}
    (h : ({ tx with vin := stripWitness tx.vin } : CTransaction) =
      { tx' with vin := stripWitness tx'.vin }) : tx.spent = tx'.spent := by
  have hcb := congrArg isCoinBase h
  rw [isCoinBase_stripWitness, isCoinBase_stripWitness] at hcb
  have hvin := congrArg (List.map CTxIn.prevout) (congrArg vin h)
  simp only [stripWitness, map_map] at hvin
  rw [spent, spent, hcb]
  split_ifs
  · rfl
  · exact hvin

theorem spends_entry (env : ConnectEnv) (nHeight : Int32) (tx : CTransaction) :
    (tx.entry env nHeight).spends = tx.spent.map FlatMap.position := by
  rw [spent, map_map]
  rfl

theorem regular_entries {env : ConnectEnv} {nHeight : Int32} {coins : FlatMap}
    {rest : List CTransaction} (hnew : ∀ tx ∈ cb :: rest, coins (env.getHash tx) = none)
    (hvin : ∀ tx ∈ rest, tx.isCoinBase = false ∧ tx.vin ≠ [])
    (hcollision : NoCollision env (cb :: rest)) :
    Ledger.Regular coins.ledger ((cb :: rest).map fun tx => tx.entry env nHeight) where
  new e he m := by
    obtain ⟨tx, htx, rfl⟩ := mem_map.1 he
    change (coins (env.getHash tx)).bind _ = none
    rw [hnew tx htx]
    rfl
  same e he e' he' hid := by
    obtain ⟨tx, htx, rfl⟩ := mem_map.1 he
    obtain ⟨tx', htx', rfl⟩ := mem_map.1 he'
    rw [spends_entry, spends_entry, spent_eq_of_stripWitness (hcollision tx htx tx' htx' hid)]
  spends e he := by
    rw [map_cons, tail_cons] at he
    obtain ⟨tx, htx, rfl⟩ := mem_map.1 he
    obtain ⟨hcb, hne⟩ := hvin tx htx
    simpa [spends_entry, spent, hcb] using hne

theorem nodup_spent {env : ConnectEnv} {nHeight : Int32} {U U' : Ledger uint256 CTxOut}
    {vtx : List CTransaction} (htxs : ∀ tx ∈ vtx, tx.Checked)
    (hrun : Ledger.Run U (vtx.map fun tx => tx.entry env nHeight) U')
    (hregular : Ledger.Regular U (vtx.map fun tx => tx.entry env nHeight)) :
    (vtx.flatMap spent).Nodup := by
  have hspends := hrun.nodup_spends hregular fun e he => by
    obtain ⟨tx, htx, rfl⟩ := mem_map.1 he
    rw [spends_entry]
    refine List.Nodup.map FlatMap.position_injective ?_
    unfold spent
    split_ifs
    · exact nodup_nil
    · exact (htxs tx htx).nodup
  rw [flatMap_map] at hspends
  simp only [spends_entry, ← map_flatMap] at hspends
  exact hspends.of_map _

/-- Where the transactions of the block overwrite nothing, it is a run of the ledger that adds at
most the subsidy to the total. -/
theorem connectBlock_run {B : CCoinsView} {env : ConnectEnv} {opts : ConnectOptions}
    {block : CBlock} {pindex : BlockPosition} {V W : ViewStack B} {blockundo : CBlockUndo}
    (hV : V.Coherent) (hgenesis : env.getBlockHash block ≠ env.hashGenesisBlock)
    (hconnect : connectBlock env opts block pindex V = .ok (blockundo, W))
    (hnew : enforceBIP30 env pindex = true ∨ ∀ tx ∈ block.vtx, V.report (env.getHash tx) = none) :
    W.Coherent ∧ (∀ tx ∈ block.vtx, V.view (env.getHash tx) = none) ∧
      Ledger.Run V.view.ledger (block.vtx.map fun tx => tx.entry env pindex.nHeight)
        W.view.ledger ∧
      ∃ nSubsidy, blockSubsidy env pindex = .ok nSubsidy ∧
        FlatMap.total W.report ≤ FlatMap.total V.report + nSubsidy := by
  obtain ⟨view, st, nSubsidy, nOut, hreach, hloop, hsubsidy, hout, hle, hlast, -⟩ :=
    connectBlock_inv hgenesis hconnect
  obtain ⟨hcheck, hreads, hbip30⟩ := reachLoop_spec hreach
  have hview : view.view = V.view := hreads.readsTo.view hV
  rw [funext (report_eq_view hV)] at hnew ⊢
  have hnone : ∀ tx ∈ block.vtx, V.view (env.getHash tx) = none :=
    hnew.elim (fun henforce => hbip30 henforce hV) id
  have hchecked := checkBlock_checked hcheck
  have htxs := hchecked.transactions
  obtain ⟨cb, rest, hvtx, hcb, hothers⟩ := hchecked.coinbase
  rw [← hview, hvtx] at hnone ⊢
  rw [hvtx] at hloop htxs hout
  obtain ⟨hs, hrun, htotal⟩ := connectTxs_block (hreads.readsTo.coherent hV) htxs hnone hcb
    hothers hloop
  have hW := hlast.coherent hs
  rw [funext (report_eq_view hW), hlast.view hs]
  refine ⟨hW, hnone, hrun, nSubsidy, hsubsidy, ?_⟩
  rw [getValueOut_eq hout] at hle
  dsimp only at htotal
  omega

/-- A successful `ConnectBlock` on a block that is not the genesis block. Every
output it spends was unspent before or created earlier in the block. Where BIP30
is enforced, or holds, the total grows by at most the subsidy; and where, besides,
the hashes of the block do not collide, every output is spent once. -/
theorem connectBlock_supply {B : CCoinsView} (env : ConnectEnv) (opts : ConnectOptions)
    (block : CBlock) (pindex : BlockPosition) (V W : ViewStack B) (blockundo : CBlockUndo)
    (hV : V.Coherent) (hgenesis : env.getBlockHash block ≠ env.hashGenesisBlock)
    (hconnect : connectBlock env opts block pindex V = .ok (blockundo, W)) :
    (∀ done tx rest, block.vtx = done ++ tx :: rest → tx.isCoinBase = false → ∀ txin ∈ tx.vin,
      ∃ txout, Origin env V.report done txin.prevout.hash txin.prevout.n.toNat txout) ∧
    (enforceBIP30 env pindex = true ∨ (∀ tx ∈ block.vtx, V.report (env.getHash tx) = none) →
      (∃ nSubsidy, blockSubsidy env pindex = .ok nSubsidy ∧
        FlatMap.total W.report ≤ FlatMap.total V.report + nSubsidy) ∧
      (NoCollision env block.vtx → (block.vtx.flatMap CTransaction.spent).Nodup)) := by
  obtain ⟨view, st, _, _, hreach, hloop, -⟩ := connectBlock_inv hgenesis hconnect
  obtain ⟨hcheck, hreads, -⟩ := reachLoop_spec hreach
  have hview : view.view = V.view := hreads.readsTo.view hV
  have hs := hreads.readsTo.coherent hV
  refine ⟨?_, fun hnew => ?_⟩
  · have hstart : view.Guarded (Origin env V.report []) := by
      refine hs.guarded fun txid coins hcoins n txout hout => Or.inl ?_
      rw [funext (report_eq_view hV), ← hview, FlatMap.ledger, hcoins]
      exact hout
    exact connectTxs_origin hstart hloop
  · obtain ⟨-, hnone, hrun, htotal⟩ := connectBlock_run hV hgenesis hconnect hnew
    refine ⟨htotal, fun hcollision => ?_⟩
    have hchecked := checkBlock_checked hcheck
    obtain ⟨-, -, -, -, hvin, -⟩ := checkBlock_eq_ok.1 hcheck
    refine nodup_spent hchecked.transactions hrun ?_
    obtain ⟨cb, rest, hvtx, -, hothers⟩ := hchecked.coinbase
    rw [hvtx] at hnone hvin hcollision ⊢
    refine regular_entries hnone (fun tx htx => ⟨hothers tx htx, ?_⟩) hcollision
    have hu := hvin tx (mem_cons_of_mem cb htx)
    simp only [checkTransaction, dos, bind_eq_ok, rejectIf_eq_ok, exists_const] at hu
    simpa using hu.1

/-- The theorem applies to a block at height 5. -/
theorem connectBlock_supply_sample :
    ∃ blockundo W, connectBlock sampleEnv sampleOptions sampleBlock samplePosition
        (ViewStack.start (B := coinsMapView) (sampleDB 3) 0) = .ok (blockundo, W) ∧
      FlatMap.total W.report ≤
        FlatMap.total (ViewStack.start (B := coinsMapView) (sampleDB 3) 0).report +
          66666600000000 := by
  obtain ⟨⟨blockundo, W⟩, hconnect⟩ := connectBlock_sample
  obtain ⟨-, hsupply⟩ := connectBlock_supply sampleEnv sampleOptions sampleBlock samplePosition _ W
    blockundo (start_spec _ _).1 (by decide) hconnect
  obtain ⟨⟨nSubsidy, hsubsidy, hle⟩, -⟩ := hsupply (Or.inl (by decide))
  have heq : blockSubsidy sampleEnv samplePosition = .ok 66666600000000 := rfl
  rw [heq] at hsubsidy
  cases hsubsidy
  exact ⟨blockundo, W, hconnect, hle⟩

def lockEnv : ConnectEnv :=
  { sampleEnv with getHash := fun tx => tx.nLockTime.toBitVec.zeroExtend 256 }

/-- A transaction that spends some outputs and pays one amount, with its hash. -/
def payment (hash : UInt32) (spends : List COutPoint) (amount : Int64) : CTransaction :=
  ⟨1, spends.map fun out => ⟨out, [0x51, 0x51], 0, []⟩, [⟨amount, [0x51]⟩], hash⟩

def coinbasePayment (hash : UInt32) : CTransaction := payment hash [⟨0, 0xffffffff⟩] 0

def supplyView (first third : List Int64) : ViewStack coinsMapView :=
  ViewStack.start (B := coinsMapView)
    ((CoinsMap.empty.writeEntry 1 ⟨⟨false, first.map (⟨·, [0x51]⟩), 3, 1⟩, true, false⟩).writeEntry 3
      ⟨⟨false, third.map (⟨·, [0x51]⟩), 3, 1⟩, true, false⟩) 0

/-- Connects some transactions at height 5, above a chain whose block at the BIP34
height has the given hash. -/
def connectSupply (hashBIP34 : Option uint256) (vtx : List CTransaction)
    (view : ViewStack coinsMapView) : Except Failure (CBlockUndo × ViewStack coinsMapView) :=
  connectBlock lockEnv sampleOptions ⟨sampleBlock.header, vtx⟩ ⟨5, 5, some 0, hashBIP34⟩ view

/-- A coinbase that takes the place of an output of negative value raises the
total. -/
theorem overwrite_raises_total :
    ∃ r, connectSupply (some 0) [coinbasePayment 1] (supplyView [-1000000000000000] []) = .ok r ∧
      FlatMap.total r.2.report =
        FlatMap.total (supplyView [-1000000000000000] []).report + 1000000000000000 := by
  have hV : (supplyView [-1000000000000000] []).Coherent := (start_spec _ _).1
  have hconnect : ∃ r, connectSupply (some 0) [coinbasePayment 1]
      (supplyView [-1000000000000000] []) = .ok r := ⟨_, rfl⟩
  obtain ⟨⟨blockundo, W⟩, hconnect⟩ := hconnect
  obtain ⟨view, st, _, _, hreach, hloop, -, -, -, hlast, -⟩ :=
    connectBlock_inv (show (5 : uint256) ≠ 4 by decide) hconnect
  obtain ⟨-, hreads, -⟩ := reachLoop_spec hreach
  rw [connectTxs, bind_eq_ok] at hloop
  obtain ⟨st₁, hfirst, hrest⟩ := hloop
  cases hrest
  obtain ⟨s₁, txundo, hreads₁, hupdate, -⟩ := connectTx_spec hfirst
  have hread := (hreads.trans hreads₁).readsTo
  have hcb : (coinbasePayment 1).isCoinBase = true := rfl
  obtain ⟨hs, hview, -, -⟩ := updateCoins_view (hread.coherent hV)
    (fun hspends => by rw [hcb] at hspends; cases hspends) hupdate
  refine ⟨_, hconnect, ?_⟩
  have hbefore : coinsValue ((supplyView [-1000000000000000] []).view
      (lockEnv.getHash (coinbasePayment 1))) = -1000000000000000 := rfl
  have hafter : (CCoins.fromTx (coinbasePayment 1) 5).value = 0 := rfl
  rw [funext fun txid => report_eq_view (hlast.coherent hs) txid, hlast.view hs, hview,
    hread.view hV, funext fun txid => report_eq_view hV txid, FlatMap.connect,
    if_pos hcb, FlatMap.total_update, coinsValue_live, hafter]
  change FlatMap.total (supplyView [-1000000000000000] []).view - coinsValue
    ((supplyView [-1000000000000000] []).view (lockEnv.getHash (coinbasePayment 1))) + 0 = _
  rw [hbefore]
  ring

/-- Spends an output of transaction 3, creates that transaction again and spends
the output again. -/
def respendingVtx : List CTransaction :=
  [coinbasePayment 2, payment 4 [⟨3, 0⟩] 40, payment 3 [⟨1, 0⟩] 50, payment 5 [⟨3, 0⟩] 50]

/-- Creates transaction 3, spends its output, and does both again with another
transaction of that hash. -/
def collidingVtx : List CTransaction :=
  [coinbasePayment 2, payment 3 [⟨1, 0⟩] 50, payment 5 [⟨3, 0⟩] 50, payment 3 [⟨1, 1⟩] 50,
    payment 6 [⟨3, 0⟩] 50]

/-- Where BIP30 is not enforced, the total can grow by more than the subsidy and an
output can be spent twice; where it is, colliding hashes let an output be spent
twice. -/
theorem connectBlock_supply_limits :
    (∃ r, connectSupply (some 0) [coinbasePayment 1] (supplyView [-1000000000000000] []) = .ok r ∧
        FlatMap.total (supplyView [-1000000000000000] []).report + 66666600000000 <
          FlatMap.total r.2.report) ∧
      blockSubsidy lockEnv ⟨5, 5, some 0, some 0⟩ = .ok 66666600000000 ∧
      (∃ r, connectSupply (some 0) respendingVtx (supplyView [50] [40]) = .ok r) ∧
      ¬ (respendingVtx.flatMap CTransaction.spent).Nodup ∧
      (∃ r, connectSupply none collidingVtx (supplyView [50, 50] []) = .ok r) ∧
      ¬ (collidingVtx.flatMap CTransaction.spent).Nodup := by
  obtain ⟨r, hconnect, htotal⟩ := overwrite_raises_total
  exact ⟨⟨r, hconnect, by omega⟩, rfl, ⟨_, rfl⟩, by decide, ⟨_, rfl⟩, by decide⟩

section

variable {B : CCoinsView} (env : ConnectEnv) (opts : ConnectOptions)

/-- Level 4 of `VerifyDB`, which connects one block after the other on a cache. -/
def reconnectBlocks (coins : ViewStack B) :
    List (CBlock × BlockPosition) → Except Failure (ViewStack B)
  | [] => .ok coins
  | (block, pindex) :: blocks => do
    let (_, coins) ← connectBlock env opts block pindex coins
    reconnectBlocks coins blocks

variable {env opts} {V W : ViewStack B}

/-- A chain of blocks adds at most the sum of the subsidies to the total. -/
theorem reconnectBlocks_supply (blocks : List (CBlock × BlockPosition)) (hV : V.Coherent)
    (hblocks : ∀ b ∈ blocks, env.getBlockHash b.1 ≠ env.hashGenesisBlock ∧
      enforceBIP30 env b.2 = true) (hconnect : reconnectBlocks env opts V blocks = .ok W) :
    ∃ subsidies, blocks.mapM (fun b => blockSubsidy env b.2) = .ok subsidies ∧
      FlatMap.total W.report ≤ FlatMap.total V.report + subsidies.sum := by
  induction blocks generalizing V with
  | nil =>
    cases hconnect
    exact ⟨[], rfl, by simp⟩
  | cons b blocks ih =>
    obtain ⟨⟨hgenesis, hbip30⟩, hblocks⟩ := forall_mem_cons.1 hblocks
    obtain ⟨⟨blockundo, V₁⟩, hfirst, hrest⟩ := bind_eq_ok.1 hconnect
    obtain ⟨hV₁, -, -, nSubsidy, hsubsidy, htotal⟩ :=
      connectBlock_run hV hgenesis hfirst (.inl hbip30)
    obtain ⟨subsidies, hsubsidies, hsum⟩ := ih hV₁ hblocks hrest
    refine ⟨nSubsidy :: subsidies, ?_, by rw [sum_cons]; omega⟩
    rw [mapM_cons, hsubsidy, hsubsidies]
    rfl

end

def supplyBlocks : List (CBlock × BlockPosition) :=
  [(⟨sampleBlock.header, [coinbasePayment 2]⟩, ⟨5, 5, some 0, none⟩),
    (⟨sampleBlock.header, [coinbasePayment 4]⟩, ⟨6, 6, some 5, none⟩)]

theorem reconnectBlocks_supply_two :
    ∃ W, reconnectBlocks lockEnv sampleOptions (supplyView [50] []) supplyBlocks = .ok W ∧
      FlatMap.total W.report ≤ FlatMap.total (supplyView [50] []).report + 133333200000000 := by
  obtain ⟨_, hsubsidies, hle⟩ := @reconnectBlocks_supply _ lockEnv sampleOptions
    (supplyView [50] []) _ supplyBlocks (start_spec _ _).1 (by decide) rfl
  cases hsubsidies
  exact ⟨_, rfl, hle⟩

end Coinyecoin
