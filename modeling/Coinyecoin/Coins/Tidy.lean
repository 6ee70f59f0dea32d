import Coinyecoin.Coins.Refinement

/-!
# Pruned records without outputs

`HaveCoins` asks whether the record has outputs, not whether one of them is
unspent. The two are the same for a tidy record: one that is pruned only if its
list of outputs is empty. Every edit ends in `Cleanup`, so a stack over a bottom
view that answers with tidy records only holds tidy records.
-/

namespace Coinyecoin

open Foundation List

namespace CCoins

def Tidy (coins : CCoins) : Prop := coins.isPruned = true → coins.vout = []

variable {coins : CCoins}

theorem tidy_cleanup : coins.cleanup.Tidy := by
  intro hpruned
  rw [isPruned_cleanup] at hpruned
  exact vout_cleanup_eq_nil_iff.2 hpruned

theorem Tidy.vout_isEmpty (h : coins.Tidy) : (!coins.vout.isEmpty) = coins.live.isSome := by
  cases hpruned : coins.isPruned with
  | true =>
    have hlive : coins.live = none := CacheSlot.live_of_null hpruned
    rw [hlive, h hpruned]
    rfl
  | false =>
    have hlive : coins.live = some coins := CacheSlot.live_of_not_null hpruned
    have hvout : coins.vout ≠ [] := by
      intro hnil
      rw [isPruned, hnil] at hpruned
      cases hpruned
    rw [hlive]
    simpa using hvout

end CCoins

def CCoinsView.Tidy (B : CCoinsView) : Prop :=
  ∀ base txid coins, B.getCoins base txid = some coins → coins.Tidy

def CCoinsMap.Tidy (m : CCoinsMap) : Prop := ∀ txid it, m.lookup txid = some it → it.value.Tidy

namespace CCoinsMap

variable {m : CCoinsMap}

theorem Tidy.insert (h : Tidy m) (txid : uint256) {it : CCoinsCacheEntry}
    (hit : it.value.Tidy) : Tidy (AList.insert txid it m) := by
  intro t us hus
  by_cases ht : t = txid
  · subst ht
    rw [AList.lookup_insert] at hus
    cases hus
    exact hit
  · rw [AList.lookup_insert_ne ht] at hus
    exact h t us hus

theorem Tidy.erase (h : Tidy m) (txid : uint256) : Tidy (AList.erase txid m) := by
  intro t us hus
  by_cases ht : t = txid
  · subst ht
    rw [AList.lookup_erase] at hus
    cases hus
  · rw [AList.lookup_erase_ne ht] at hus
    exact h t us hus

theorem tidy_empty : Tidy (∅ : CCoinsMap) := fun _ _ h => nomatch h

end CCoinsMap

namespace CCoinsViewCache

def Tidy (view : CCoinsViewCache) : Prop := CCoinsMap.Tidy view.cacheCoins

variable {view : CCoinsViewCache}

theorem Tidy.closeModifier (h : view.Tidy) (txid : uint256)
    (it : CCoinsCacheEntry) : (view.closeModifier txid it).Tidy := by
  unfold CCoinsViewCache.closeModifier
  dsimp only
  split_ifs
  · exact CCoinsMap.Tidy.erase h txid
  · exact CCoinsMap.Tidy.insert h txid (CCoins.tidy_cleanup)

theorem Tidy.uncache (h : view.Tidy) (hash : uint256) : (view.uncache hash).Tidy := by
  unfold CCoinsViewCache.uncache
  split
  · split_ifs
    · exact CCoinsMap.Tidy.erase h hash
    · exact h
  · exact h

theorem Tidy.fetchCoins (h : view.Tidy) (below : List CCoinsViewCache)
    {base : Option CCoins × List CCoinsViewCache} (hbase : ∀ coins, base.1 = some coins → coins.Tidy)
    (txid : uint256) :
    (∀ coins, (view.fetchCoins below base txid).1 = some coins → coins.Tidy) ∧
      (view.fetchCoins below base txid).2.1.Tidy ∧
      ((view.fetchCoins below base txid).2.2 = below ∨
        (view.fetchCoins below base txid).2.2 = base.2) := by
  unfold CCoinsViewCache.fetchCoins
  cases hlookup : view.cacheCoins.lookup txid with
  | some it =>
    refine ⟨fun coins hcoins => ?_, h, Or.inl rfl⟩
    cases hcoins
    exact h txid it hlookup
  | none =>
    obtain ⟨coins, below'⟩ := base
    cases coins with
    | none => exact ⟨fun _ hcoins => (nomatch hcoins), h, Or.inr rfl⟩
    | some tmp =>
      have htmp : tmp.Tidy := hbase tmp rfl
      refine ⟨fun coins hcoins => ?_, CCoinsMap.Tidy.insert h txid htmp, Or.inr rfl⟩
      cases hcoins
      exact htmp

theorem Tidy.batchWrite {view view' : CCoinsViewCache} (h : view.Tidy) {mapCoins : CCoinsMap}
    (hmap : CCoinsMap.Tidy mapCoins) {hashBlock : uint256}
    (hrun : view.batchWrite mapCoins hashBlock = .ok view') : view'.Tidy := by
  rw [CCoinsViewCache.batchWrite, bind_eq_ok] at hrun
  obtain ⟨cacheCoins, hfold, hview'⟩ := hrun
  cases hview'
  refine foldlM_keeps (P := CCoinsMap.Tidy) (fun m e m' he hm hstep => ?_) h hfold
  have hit : e.2.value.Tidy := hmap e.1 e.2 (AList.mem_lookup_iff.2 he)
  unfold batchWriteEntry at hstep
  split at hstep
  · split at hstep
    · split_ifs at hstep <;> cases hstep
      · exact hm
      · exact CCoinsMap.Tidy.insert hm _ hit
    · split_ifs at hstep <;> cases hstep
      · exact CCoinsMap.Tidy.erase hm _
      · exact CCoinsMap.Tidy.insert hm _ hit
  · cases hstep
    exact hm

end CCoinsViewCache

namespace ViewStack

variable {B : CCoinsView}

structure Tidy (s : ViewStack B) : Prop where
  top : s.top.Tidy
  below : ∀ view ∈ s.below, view.Tidy

variable {txid : uint256}

theorem getCoins_tidy (hB : B.Tidy) {base : B.State} {layers : List CCoinsViewCache}
    (h : ∀ view ∈ layers, view.Tidy) :
    (∀ coins, (getCoins base layers txid).1 = some coins → coins.Tidy) ∧
      ∀ view ∈ (getCoins base layers txid).2, view.Tidy := by
  induction layers with
  | nil => exact ⟨hB base txid, fun _ hview => nomatch hview⟩
  | cons view below ih =>
    obtain ⟨hanswer, hbelow⟩ := ih fun v hv => h v (mem_cons_of_mem view hv)
    obtain ⟨hcoins, hview, hrest⟩ :=
      (h view mem_cons_self).fetchCoins below hanswer txid
    rw [getCoins_cons]
    refine ⟨hcoins, fun v hv => ?_⟩
    rcases mem_cons.1 hv with rfl | hv
    · exact hview
    · rcases hrest with heq | heq
      · rw [heq] at hv
        exact h v (mem_cons_of_mem view hv)
      · rw [heq] at hv
        exact hbelow v hv

variable {s s' : ViewStack B}

theorem Tidy.layers (h : s.Tidy) : ∀ view ∈ s.top :: s.below, view.Tidy :=
  forall_mem_cons.2 ⟨h.top, h.below⟩

theorem accessCoins_tidy (hB : B.Tidy) (h : s.Tidy) (txid : uint256) :
    (∀ coins, (s.accessCoins txid).1 = some coins → coins.Tidy) ∧
      (s.accessCoins txid).2.Tidy := by
  obtain ⟨hcoins, hlayers⟩ := getCoins_tidy hB h.layers
  obtain ⟨htop, hbelow⟩ := forall_mem_cons.1 hlayers
  exact ⟨hcoins, htop, hbelow⟩

theorem edited_tidy (hB : B.Tidy) (h : s.Tidy) (coins : CCoins) : (s.edited txid coins).Tidy := by
  refine ⟨h.top.closeModifier txid _, ?_⟩
  unfold edited openEntry
  cases s.top.cacheCoins.lookup txid with
  | some it => exact h.below
  | none =>
    obtain ⟨-, hlayers⟩ := getCoins_tidy hB h.below
    rcases hget : getCoins s.base s.below txid with ⟨_ | coins, below⟩
    · rw [hget] at hlayers
      exact hlayers
    · rw [hget] at hlayers
      exact hlayers

theorem flush_tidy (h : s.Tidy) {fOk : Bool} (hrun : s.flush = .ok (fOk, s')) : s'.Tidy := by
  obtain ⟨top, below, base⟩ := s
  cases below with
  | nil =>
    cases hrun
    exact ⟨CCoinsMap.tidy_empty, fun _ hview => nomatch hview⟩
  | cons parent below =>
    obtain ⟨hparent, hbelow⟩ := forall_mem_cons.1 h.below
    simp only [flush, bind_eq_ok] at hrun
    obtain ⟨parent', hwrite, hs'⟩ := hrun
    cases hs'
    exact ⟨CCoinsMap.tidy_empty,
      forall_mem_cons.2 ⟨hparent.batchWrite h.top hwrite, hbelow⟩⟩

theorem step_tidy (hB : B.Tidy) (h : s.Tidy) {op : ViewOp}
    (hrun : s.step op = .ok s') : s'.Tidy := by
  cases op with
  | accessCoins txid =>
    cases hrun
    exact (accessCoins_tidy hB h txid).2
  | haveCoins txid =>
    cases hrun
    exact (accessCoins_tidy hB h txid).2
  | modifyCoins txid edit =>
    cases hrun
    exact edited_tidy hB h _
  | modifyNewCoins txid coinbase edit =>
    simp only [step, modifyNewCoins] at hrun
    split_ifs at hrun
    cases hrun
    exact ⟨h.top.closeModifier txid _, h.below⟩
  | uncache txid =>
    cases hrun
    exact ⟨h.top.uncache txid, h.below⟩
  | flush =>
    simp only [step, bind_eq_ok] at hrun
    obtain ⟨⟨fOk, s₁⟩, hflush, hs'⟩ := hrun
    cases hs'
    exact flush_tidy h hflush
  | push =>
    cases hrun
    exact ⟨CCoinsMap.tidy_empty, h.layers⟩
  | drop =>
    cases hrun
    obtain ⟨top, below, base⟩ := s
    cases below with
    | nil => exact h
    | cons view below =>
      obtain ⟨hview, hbelow⟩ := forall_mem_cons.1 h.below
      exact ⟨hview, hbelow⟩

theorem run_tidy (hB : B.Tidy) (h : s.Tidy) {ops : List ViewOp}
    (hrun : s.run ops = .ok s') : s'.Tidy :=
  foldlM_keeps (fun _ _ _ _ hs hstep => step_tidy hB hs hstep) h hrun

theorem start_tidy (base : B.State) (n : ℕ) : (start base n).Tidy :=
  ⟨CCoinsMap.tidy_empty, fun view hview => by
    rw [eq_of_mem_replicate hview]
    exact CCoinsMap.tidy_empty⟩

theorem haveCoins_eq (hB : B.Tidy) (hcoherent : s.Coherent) (h : s.Tidy)
    (txid : uint256) : (s.haveCoins txid).1 = (s.view txid).isSome := by
  have hanswer := (accessCoins_spec hcoherent txid).1
  have htidy := (accessCoins_tidy hB h txid).1
  unfold haveCoins
  dsimp only
  rw [← hanswer]
  cases hcoins : (s.accessCoins txid).1 with
  | none => rfl
  | some coins => exact (htidy coins hcoins).vout_isEmpty

end ViewStack

end Coinyecoin
