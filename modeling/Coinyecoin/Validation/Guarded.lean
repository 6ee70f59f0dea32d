import Coinyecoin.Validation.ConnectBlock

/-!
# What every coins record that can be read satisfies

`ModifyNewCoins` does not ask the parent, so where BIP30 is not enforced it may
mark coins fresh that are not, and the stack is no longer coherent. What can be
read then is still either what could be read before or what was written:
`ViewStack.Guarded Q s` says that every unspent output a reader of the top cache
can come to see satisfies `Q`, whether the flags of the top cache are right or
not.
-/

namespace Coinyecoin

open Foundation CCoins CacheSlot

variable {tx : CTransaction} {nHeight : Int32}

namespace CCoins

def Outputs (Q : ℕ → CTxOut → Prop) (coins : CCoins) : Prop :=
  ∀ n txout, coins.output n = some txout → Q n txout

variable {Q : ℕ → CTxOut → Prop} {coins : CCoins}

theorem outputs_of_isPruned (h : coins.isPruned = true) : coins.Outputs Q := by
  intro n txout hout
  rw [output_eq_none_of_isPruned h] at hout
  cases hout

theorem outputs_of_live {shown : Option CCoins} (hlive : coins.live = shown)
    (h : ∀ c, shown = some c → c.Outputs Q) : coins.Outputs Q := by
  cases hpruned : coins.isPruned with
  | true => exact outputs_of_isPruned hpruned
  | false => exact h coins (hlive.symm.trans (live_of_not_null hpruned))

theorem Outputs.spend (h : coins.Outputs Q) {n : UInt32} (hn : coins.isAvailable n = true) :
    (coins.spend n).Outputs Q := by
  intro m txout hout
  rw [output_spend hn] at hout
  split_ifs at hout
  exact h m txout hout

theorem outputs_cleanup : coins.cleanup.Outputs Q ↔ coins.Outputs Q := by
  simp only [Outputs, output_cleanup]

theorem output_fromTx {n : ℕ} {txout : CTxOut}
    (h : (fromTx tx nHeight).output n = some txout) : tx.vout[n]? = some txout := by
  rw [fromTx, clearUnspendable, output_cleanup] at h
  obtain ⟨hget, hnull⟩ := SparseList.present_eq_some_iff.1 h
  rw [List.getElem?_map] at hget
  obtain ⟨txout', htxout', rfl⟩ := Option.map_eq_some_iff.1 hget
  split_ifs at hnull ⊢
  · rw [CTxOut.isNull_null] at hnull
    cases hnull
  · exact htxout'

end CCoins

namespace ViewStack

variable {B : CCoinsView} {Q : uint256 → ℕ → CTxOut → Prop}

/-- Every unspent output that a reader of the top cache can come to see satisfies
`Q`. -/
structure Guarded (Q : uint256 → ℕ → CTxOut → Prop) (s : ViewStack B) : Prop where
  below : CoherentLayers s.base s.below
  slots : ∀ txid, CacheSlot.Guards (CCoins.Outputs (Q txid)) (s.parentView txid)
    (s.top.cacheCoins.lookup txid)

variable {s : ViewStack B} {txid : uint256} {s' : ViewStack B}

theorem Coherent.guarded (h : s.Coherent)
    (hview : ∀ txid coins, s.view txid = some coins → coins.Outputs (Q txid)) : s.Guarded Q :=
  ⟨h.2, fun txid => guards_of_coherent (fun _ => outputs_of_isPruned) (h.1 txid)
    (hview txid)⟩

section

variable (h : s.Guarded Q)
include h

theorem Guarded.view {coins : CCoins} (hview : s.view txid = some coins) : coins.Outputs (Q txid) :=
  (h.slots txid).read hview

theorem Guarded.changedAt
    {slot : Option CCoinsCacheEntry} (hbelow : CoherentLayers s'.base s'.below)
    (hparent : s'.parentView = s.parentView) (hchanged : s.top.ChangedAt s'.top txid slot)
    (hslot : CacheSlot.Guards (CCoins.Outputs (Q txid)) (s.parentView txid) slot) : s'.Guarded Q := by
  refine ⟨hbelow, fun t => ?_⟩
  rw [hparent]
  by_cases ht : t = txid
  · subst ht
    rw [hchanged.at_txid]
    exact hslot
  · rw [hchanged.off_txid t ht]
    exact h.slots t

theorem accessCoins_guarded (txid : uint256) :
    CacheSlot.liveOption CCoins.isPruned (s.accessCoins txid).1 = s.view txid ∧
      (s.accessCoins txid).2.view = s.view ∧ (s.accessCoins txid).2.Guarded Q := by
  obtain ⟨hanswer, hbelow, hlevels⟩ := getCoins_spec s.base s.below h.below txid
  unfold accessCoins CCoinsViewCache.fetchCoins
  cases hlookup : s.top.cacheCoins.lookup txid with
  | some it =>
    refine ⟨?_, rfl, h⟩
    rw [view_eq_read, hlookup]
    rfl
  | none =>
    have hview : s.view txid = s.parentView txid := by rw [view_eq_read, hlookup]; rfl
    rcases hget : getCoins s.base s.below txid with ⟨_ | tmp, below⟩
    · rw [hget] at hanswer hbelow hlevels
      have hparent := viewOf_congr hlevels
      refine ⟨hanswer.trans hview.symm, congrArg (s.top.readOver ·) hparent, hbelow, fun t => ?_⟩
      rw [parentView, hparent]
      exact h.slots t
    · rw [hget] at hanswer hbelow hlevels
      have hparent := viewOf_congr hlevels
      have hlive : tmp.live = s.parentView txid := hanswer
      have hchanged := CCoinsViewCache.changedAt_insert s.top txid ⟨tmp, false, tmp.isPruned⟩
      have hguards := (h.slots txid).parent (by rw [hlookup]; exact fun _ hs => by cases hs)
      refine ⟨hanswer.trans hview.symm, ?_, h.changedAt hbelow hparent hchanged
        (guards_some (outputs_of_live hlive hguards) fun _ => hguards)⟩
      change CCoinsViewCache.readOver (viewOf s.base below) _ = _
      have hslot : CacheSlot.read CCoins.isPruned (viewOf s.base s.below txid)
          (some ⟨tmp, false, tmp.isPruned⟩) = s.view txid := hlive.trans hview.symm
      rw [hparent, hchanged.readOver, hslot]
      exact Function.update_eq_self _ _

theorem bestBlock_guarded : s.bestBlock.2.view = s.view ∧ s.bestBlock.2.Guarded Q := by
  unfold bestBlock
  split_ifs
  · obtain ⟨hcoherent, hlevels⟩ := getBestBlock_levels s.base s.below
    have hparent := viewOf_congr hlevels
    refine ⟨congrArg (s.top.readOver ·) hparent, hcoherent h.below, fun t => ?_⟩
    rw [parentView, hparent]
    exact h.slots t
  · exact ⟨rfl, h⟩

end

theorem Reads.guarded (hreads : s.Reads s') (h : s.Guarded Q) :
    s'.view = s.view ∧ s'.Guarded Q := by
  induction hreads with
  | refl s => exact ⟨rfl, h⟩
  | access txid _ ih =>
    obtain ⟨-, hview, hguarded⟩ := accessCoins_guarded h txid
    rw [← hview]
    exact ih hguarded
  | bestBlock _ ih =>
    obtain ⟨hview, hguarded⟩ := bestBlock_guarded h
    rw [← hview]
    exact ih hguarded

section

variable (h : s.Guarded Q)
include h

theorem openEntry_guarded (txid : uint256) :
    (s.openEntry txid).1.value.Outputs (Q txid) ∧
      ((s.openEntry txid).1.fresh = true →
        ∀ coins, s.parentView txid = some coins → coins.Outputs (Q txid)) ∧
      CoherentLayers s.base (s.openEntry txid).2 ∧
      levels s.base (s.openEntry txid).2 = levels s.base s.below := by
  obtain ⟨hanswer, hbelow, hlevels⟩ := getCoins_spec s.base s.below h.below txid
  unfold openEntry
  cases hlookup : s.top.cacheCoins.lookup txid with
  | some it =>
    refine ⟨(h.slots txid).value it hlookup, fun hfresh => (h.slots txid).parent ?_, h.below, rfl⟩
    rw [hlookup]
    rintro _ ⟨⟩
    exact Or.inr hfresh
  | none =>
    have hguards := (h.slots txid).parent (by rw [hlookup]; exact fun _ hs => nomatch hs)
    rcases hget : getCoins s.base s.below txid with ⟨_ | coins, below⟩
    · rw [hget] at hbelow hlevels
      exact ⟨outputs_of_isPruned rfl, fun _ => hguards, hbelow, hlevels⟩
    · rw [hget] at hanswer hbelow hlevels
      exact ⟨outputs_of_live hanswer hguards, fun _ => hguards, hbelow, hlevels⟩

theorem edited_guarded (txid : uint256) {coins : CCoins}
    (hcoins : coins.Outputs (Q txid)) : (s.edited txid coins).Guarded Q := by
  obtain ⟨-, hfresh, hbelow, hlevels⟩ := openEntry_guarded h txid
  refine h.changedAt hbelow (parentView_congr hlevels)
    (CCoinsViewCache.closeModifier_changedAt s.top txid _)
    (guards_closed (outputs_cleanup.2 hcoins) ?_)
  rintro (hdirty | hf)
  · cases hdirty
  · exact hfresh hf

theorem modifyNewCoins_guarded
    {coinbase : Bool} {edit : CCoins → CCoins} (hcoins : (edit CCoins.empty).Outputs (Q txid))
    (hrun : s.modifyNewCoins txid coinbase edit = .ok s') : s'.Guarded Q := by
  unfold modifyNewCoins at hrun
  dsimp only at hrun
  split_ifs at hrun
  cases hrun
  refine h.changedAt h.below rfl (CCoinsViewCache.closeModifier_changedAt s.top txid _)
    (guards_closed (outputs_cleanup.2 hcoins) ?_)
  rintro (hdirty | hfresh)
  · cases hdirty
  -- the entry was fresh, or clean or absent
  refine (h.slots txid).parent fun it hit => ?_
  have hentry : s.newEntry txid = it := by rw [newEntry, hit]; rfl
  rw [hentry, Bool.or_eq_true, Bool.and_eq_true, Bool.not_eq_true', Bool.not_eq_true'] at hfresh
  exact hfresh.elim Or.inr fun hclean => Or.inl hclean.2

theorem Guarded.mono {Q' : uint256 → ℕ → CTxOut → Prop}
    (hQ : ∀ txid n txout, Q txid n txout → Q' txid n txout) : s.Guarded Q' where
  below := h.below
  slots txid :=
    { value := fun it hit n txout hout => hQ txid n txout ((h.slots txid).value it hit n txout hout)
      parent := fun hflags c hc n txout hout =>
        hQ txid n txout ((h.slots txid).parent hflags c hc n txout hout) }

theorem spendInputs_guarded {vin : List CTxIn}
    {undos : List CTxInUndo} (hrun : s.spendInputs vin = .ok (undos, s')) : s'.Guarded Q := by
  induction vin generalizing s undos with
  | nil =>
    cases hrun
    exact h
  | cons txin vin ih =>
    simp only [spendInputs, bind_eq_ok] at hrun
    obtain ⟨⟨undo, s₁⟩, hfirst, ⟨undos', s₂⟩, hrest, heq⟩ := hrun
    cases heq
    refine ih ?_ hrest
    rw [spendInput, modifyCoins_eq, bind_eq_ok] at hfirst
    obtain ⟨⟨undo', coins'⟩, hedit, heq⟩ := hfirst
    split at hedit
    · cases hedit
    · rename_i txout hout
      cases hedit
      cases heq
      exact edited_guarded h _
        ((openEntry_guarded h _).1.spend (isAvailable_iff.2 ⟨txout, hout⟩))

theorem updateCoins_guarded {env : ConnectEnv} {txundo : CTxUndo}
    (htx : (CCoins.fromTx tx nHeight).Outputs (Q (env.getHash tx)))
    (hrun : s.updateCoins env tx nHeight = .ok (txundo, s')) : s'.Guarded Q := by
  simp only [updateCoins, bind_eq_ok] at hrun
  obtain ⟨⟨undos, s₁⟩, hspent, s₂, hnew, heq⟩ := hrun
  cases heq
  refine modifyNewCoins_guarded ?_ htx hnew
  unfold markSpent at hspent
  split_ifs at hspent
  · cases hspent
    exact h
  · exact spendInputs_guarded h hspent

end

end ViewStack

end Coinyecoin
