import Coinyecoin.Coins.ViewCache

/-!
# What a stack of coins caches shows

`ViewStack.view s` is what a reader of the top cache sees, with pruned and
absent coins identified, and `ViewStack.levels` what a reader of each parent
sees. `ViewStack.Coherent` says that the flags of every cache are right about
the view below it. The operations of `CCoinsViewCache` keep a stack coherent,
and each is described by what it does to these views: reading changes none of
them, an edit changes the top one at one transaction, and `Flush` makes the view
below the same as the top one.
-/

namespace Coinyecoin

open Foundation CacheSlot

abbrev FlatMap := uint256 → Option CCoins

/-- A flat map of coins, and the maps saved under it: of each parent, from the
next one down to the bottom. -/
@[ext]
structure FlatState where
  top : FlatMap
  saved : List FlatMap

namespace CCoinsViewCache

def readOver (parent : FlatMap) (view : CCoinsViewCache) : FlatMap :=
  fun txid => CacheSlot.read CCoins.isPruned (parent txid) (view.cacheCoins.lookup txid)

def CoherentOver (parent : FlatMap) (view : CCoinsViewCache) : Prop :=
  ∀ txid, CacheSlot.Coherent CCoins.isPruned (parent txid) (view.cacheCoins.lookup txid)

structure ChangedAt (view view' : CCoinsViewCache) (txid : uint256)
    (slot : Option CCoinsCacheEntry) : Prop where
  at_txid : view'.cacheCoins.lookup txid = slot
  off_txid : ∀ t, t ≠ txid → view'.cacheCoins.lookup t = view.cacheCoins.lookup t

variable {parent : FlatMap} {view view' : CCoinsViewCache} {txid : uint256}
  {slot : Option CCoinsCacheEntry}

theorem changedAt_insert (view : CCoinsViewCache) (txid : uint256) (it : CCoinsCacheEntry) :
    ChangedAt view { view with cacheCoins := view.cacheCoins.insert txid it } txid (some it) :=
  ⟨AList.lookup_insert _, fun _ ht => AList.lookup_insert_ne ht⟩

theorem changedAt_erase (view : CCoinsViewCache) (txid : uint256) :
    ChangedAt view { view with cacheCoins := view.cacheCoins.erase txid } txid none :=
  ⟨AList.lookup_erase _ _, fun _ ht => AList.lookup_erase_ne ht⟩

theorem ChangedAt.readOver (h : ChangedAt view view' txid slot) (parent : FlatMap) :
    view'.readOver parent = Function.update (view.readOver parent) txid
      (read CCoins.isPruned (parent txid) slot) := by
  funext t
  by_cases ht : t = txid
  · subst ht
    rw [Function.update_self, CCoinsViewCache.readOver, h.at_txid]
  · rw [Function.update_of_ne ht, CCoinsViewCache.readOver, h.off_txid t ht]
    rfl

theorem ChangedAt.coherentOver (h : ChangedAt view view' txid slot)
    (hview : view.CoherentOver parent)
    (hslot : CacheSlot.Coherent CCoins.isPruned (parent txid) slot) :
    view'.CoherentOver parent := by
  intro t
  by_cases ht : t = txid
  · subst ht
    rw [h.at_txid]
    exact hslot
  · rw [h.off_txid t ht]
    exact hview t

theorem coherentOver_empty (parent : FlatMap) (hashBlock : uint256) :
    CoherentOver parent ⟨∅, hashBlock⟩ :=
  fun txid => coherent_none (parent txid)

theorem closeModifier_changedAt (view : CCoinsViewCache) (txid : uint256) (it : CCoinsCacheEntry) :
    ChangedAt view (view.closeModifier txid it) txid
      (closed CCoins.isPruned { it with value := it.value.cleanup }) := by
  unfold closeModifier closed
  dsimp only
  split_ifs
  · exact changedAt_erase view txid
  · exact changedAt_insert view txid _

def Masks (parent : FlatMap) (view : CCoinsViewCache) (txid : uint256) : Prop :=
  view.cacheCoins.lookup txid = none → parent txid = none

theorem closeModifier_spec (hview : view.CoherentOver parent) {txid : uint256} {coins : CCoins}
    {fresh : Bool} (hfresh : fresh = true → parent txid = none) :
    (view.closeModifier txid ⟨coins, true, fresh⟩).CoherentOver parent ∧
      (view.closeModifier txid ⟨coins, true, fresh⟩).readOver parent =
        Function.update (view.readOver parent) txid coins.cleanup.live ∧
      ∀ t, view.Masks parent t → (view.closeModifier txid ⟨coins, true, fresh⟩).Masks parent t := by
  have hchanged := closeModifier_changedAt view txid ⟨coins, true, fresh⟩
  refine ⟨hchanged.coherentOver hview (coherent_closed rfl hfresh), ?_, fun t ht hnone => ?_⟩
  · rw [hchanged.readOver, read_closed hfresh]
  · by_cases heq : t = txid
    · subst heq
      rw [hchanged.at_txid, closed] at hnone
      split_ifs at hnone with hcond
      rw [Bool.and_eq_true] at hcond
      exact hfresh hcond.1
    · rw [hchanged.off_txid t heq] at hnone
      exact ht hnone

theorem fetchCoins_spec (hview : view.CoherentOver parent) {below : List CCoinsViewCache}
    {base : Option CCoins × List CCoinsViewCache}
    (hbase : liveOption CCoins.isPruned base.1 = parent txid) :
    liveOption CCoins.isPruned (view.fetchCoins below base txid).1 =
        view.readOver parent txid ∧
      (view.fetchCoins below base txid).2.1.CoherentOver parent ∧
      (view.fetchCoins below base txid).2.1.readOver parent = view.readOver parent ∧
      ((view.fetchCoins below base txid).2.2 = below ∨
        (view.fetchCoins below base txid).2.2 = base.2) ∧
      ∀ t, view.Masks parent t → (view.fetchCoins below base txid).2.1.Masks parent t := by
  unfold fetchCoins
  cases hlookup : view.cacheCoins.lookup txid with
  | some it =>
    refine ⟨?_, hview, rfl, Or.inl rfl, fun _ ht => ht⟩
    rw [CCoinsViewCache.readOver, hlookup]
    rfl
  | none =>
    have hread : view.readOver parent txid = parent txid := by
      rw [CCoinsViewCache.readOver, hlookup]
      rfl
    obtain ⟨coins, below'⟩ := base
    cases coins with
    | none => exact ⟨by rw [hread]; exact hbase, hview, rfl, Or.inr rfl, fun _ ht => ht⟩
    | some tmp =>
      have hlive : tmp.live = parent txid := hbase
      have hchanged := changedAt_insert view txid ⟨tmp, false, tmp.isPruned⟩
      refine ⟨by rw [hread]; exact hbase,
        hchanged.coherentOver hview (coherent_fetched hlive), ?_, Or.inr rfl,
        fun t ht hnone => ?_⟩
      · have hslot : read CCoins.isPruned (parent txid)
            (some ⟨tmp, false, tmp.isPruned⟩) = view.readOver parent txid :=
          hlive.trans hread.symm
        rw [hchanged.readOver, hslot, Function.update_eq_self]
      · exact ht (AList.lookup_insert_eq_none.1 hnone).2

end CCoinsViewCache

namespace ViewStack

variable {B : CCoinsView}

def baseMap (base : B.State) : FlatMap :=
  fun txid => CacheSlot.liveOption CCoins.isPruned (B.getCoins base txid)

def viewOf (base : B.State) : List CCoinsViewCache → FlatMap
  | [] => baseMap base
  | view :: below => view.readOver (viewOf base below)

def levels (base : B.State) : List CCoinsViewCache → List FlatMap
  | [] => [baseMap base]
  | view :: below => viewOf base (view :: below) :: levels base below

def CoherentLayers (base : B.State) : List CCoinsViewCache → Prop
  | [] => True
  | view :: below => view.CoherentOver (viewOf base below) ∧ CoherentLayers base below

def view (s : ViewStack B) : FlatMap := viewOf s.base (s.top :: s.below)

def parentView (s : ViewStack B) : FlatMap := viewOf s.base s.below

def Coherent (s : ViewStack B) : Prop := CoherentLayers s.base (s.top :: s.below)

def Masked (s : ViewStack B) (txid : uint256) : Prop := s.top.Masks s.parentView txid

variable (base : B.State) (layers : List CCoinsViewCache)

theorem head?_levels : (levels base layers).head? = some (viewOf base layers) := by
  cases layers <;> rfl

theorem viewOf_congr {base base' : B.State} {layers layers' : List CCoinsViewCache}
    (h : levels base layers = levels base' layers') : viewOf base layers = viewOf base' layers' := by
  have hhead := congrArg List.head? h
  rw [head?_levels, head?_levels] at hhead
  exact Option.some.inj hhead

theorem getCoins_cons (view : CCoinsViewCache) (below : List CCoinsViewCache) (txid : uint256) :
    getCoins base (view :: below) txid =
      ((view.fetchCoins below (getCoins base below txid) txid).1,
        (view.fetchCoins below (getCoins base below txid) txid).2.1 ::
          (view.fetchCoins below (getCoins base below txid) txid).2.2) := rfl

theorem levels_cons (view : CCoinsViewCache) (below : List CCoinsViewCache) :
    levels base (view :: below) = view.readOver (viewOf base below) :: levels base below := rfl

theorem getCoins_spec (h : CoherentLayers base layers) (txid : uint256) :
    liveOption CCoins.isPruned (getCoins base layers txid).1 = viewOf base layers txid ∧
      CoherentLayers base (getCoins base layers txid).2 ∧
      levels base (getCoins base layers txid).2 = levels base layers := by
  induction layers with
  | nil => exact ⟨rfl, trivial, rfl⟩
  | cons view below ih =>
    obtain ⟨hanswer, hbelow, hlevels⟩ := ih h.2
    obtain ⟨hread, hcoherent, hsame, hrest, -⟩ :=
      CCoinsViewCache.fetchCoins_spec h.1 hanswer
    have hrest' : CoherentLayers base
          (view.fetchCoins below (getCoins base below txid) txid).2.2 ∧
        levels base (view.fetchCoins below (getCoins base below txid) txid).2.2 =
          levels base below := by
      rcases hrest with heq | heq
      · rw [heq]
        exact ⟨h.2, rfl⟩
      · rw [heq]
        exact ⟨hbelow, hlevels⟩
    have hview := viewOf_congr hrest'.2
    rw [getCoins_cons]
    refine ⟨hread, ⟨?_, hrest'.1⟩, ?_⟩
    · rw [hview]
      exact hcoherent
    · rw [levels_cons, levels_cons, hview, hsame, hrest'.2]

def flat (s : ViewStack B) : FlatState := ⟨s.view, levels s.base s.below⟩

theorem view_eq_read (s : ViewStack B) (txid : uint256) :
    s.view txid = read CCoins.isPruned (s.parentView txid)
      (s.top.cacheCoins.lookup txid) := rfl

variable {s s' : ViewStack B}

theorem parentView_congr
    (h : levels s'.base s'.below = levels s.base s.below) : s'.parentView = s.parentView :=
  viewOf_congr h

theorem accessCoins_spec (h : s.Coherent) (txid : uint256) :
    liveOption CCoins.isPruned (s.accessCoins txid).1 = s.view txid ∧
      (s.accessCoins txid).2.Coherent ∧ (s.accessCoins txid).2.flat = s.flat := by
  obtain ⟨hanswer, hcoherent, hlevels⟩ := getCoins_spec s.base (s.top :: s.below) h txid
  obtain ⟨hview, hbelow⟩ := List.cons.inj hlevels
  exact ⟨hanswer, hcoherent, FlatState.ext hview hbelow⟩

def report (s : ViewStack B) (txid : uint256) : Option CCoins :=
  CacheSlot.liveOption CCoins.isPruned (s.accessCoins txid).1

theorem report_eq_view (h : s.Coherent) (txid : uint256) : s.report txid = s.view txid :=
  (accessCoins_spec h txid).1

theorem accessCoins_masked (h : s.Coherent) (txid : uint256) {t : uint256}
    (ht : s.Masked t) : (s.accessCoins txid).2.Masked t := by
  obtain ⟨hanswer, -, -⟩ := getCoins_spec s.base s.below h.2 txid
  obtain ⟨-, -, -, -, hmasks⟩ := CCoinsViewCache.fetchCoins_spec h.1 hanswer
  have hparent : (s.accessCoins txid).2.parentView = s.parentView :=
    parentView_congr (congrArg FlatState.saved (accessCoins_spec h txid).2.2)
  rw [Masked, hparent]
  exact hmasks t ht

def opened (s : ViewStack B) (txid : uint256) : CCoins := (s.openEntry txid).1.value

def edited (s : ViewStack B) (txid : uint256) (coins : CCoins) : ViewStack B :=
  { s with
    top := s.top.closeModifier txid ⟨coins, true, (s.openEntry txid).1.fresh⟩
    below := (s.openEntry txid).2 }

theorem modifyCoins_eq {α : Type} (s : ViewStack B) (txid : uint256)
    (edit : CCoins → Except Fault (α × CCoins)) :
    s.modifyCoins txid edit =
      edit (s.opened txid) >>= fun r => .ok (r.1, s.edited txid r.2) := rfl

theorem openEntry_spec (h : s.Coherent) {txid : uint256} :
    (s.openEntry txid).1.value.live = s.view txid ∧
      ((s.openEntry txid).1.fresh = true → s.parentView txid = none) ∧
      CoherentLayers s.base (s.openEntry txid).2 ∧
      levels s.base (s.openEntry txid).2 = levels s.base s.below := by
  obtain ⟨hanswer, hbelow, hlevels⟩ := getCoins_spec s.base s.below h.2 txid
  unfold openEntry
  cases hlookup : s.top.cacheCoins.lookup txid with
  | some it =>
    refine ⟨?_, (h.1 txid).fresh it hlookup, h.2, rfl⟩
    rw [view_eq_read, hlookup]
    rfl
  | none =>
    rw [view_eq_read, hlookup, read_none]
    rcases hget : getCoins s.base s.below txid with ⟨_ | coins, below⟩
    · rw [hget] at hanswer hbelow hlevels
      have hnone : s.parentView txid = none := hanswer.symm
      exact ⟨hnone.symm, fun _ => hnone, hbelow, hlevels⟩
    · rw [hget] at hanswer hbelow hlevels
      refine ⟨hanswer, fun hpruned => ?_, hbelow, hlevels⟩
      exact hanswer.symm.trans (live_of_null hpruned)

theorem live_opened (h : s.Coherent) (txid : uint256) : (s.opened txid).live = s.view txid :=
  (openEntry_spec h).1

theorem edited_spec (h : s.Coherent) (txid : uint256) (coins : CCoins) :
    (s.edited txid coins).Coherent ∧
      (s.edited txid coins).flat =
        ⟨Function.update s.view txid coins.cleanup.live, levels s.base s.below⟩ ∧
      ∀ t, s.Masked t → (s.edited txid coins).Masked t := by
  obtain ⟨-, hfresh, hbelow, hlevels⟩ := openEntry_spec h
  obtain ⟨hcoherent, hread, hmasks⟩ :=
    CCoinsViewCache.closeModifier_spec h.1 hfresh
  have hparent : (s.edited txid coins).parentView = s.parentView := parentView_congr hlevels
  have hview : (s.edited txid coins).view = Function.update s.view txid coins.cleanup.live := by
    change CCoinsViewCache.readOver (s.edited txid coins).parentView _ = _
    rw [hparent]
    exact hread
  refine ⟨⟨?_, hbelow⟩, FlatState.ext hview hlevels, fun t ht => ?_⟩
  · change CCoinsViewCache.CoherentOver (s.edited txid coins).parentView _
    rw [hparent]
    exact hcoherent
  · rw [Masked, hparent]
    exact hmasks t ht

theorem masked_of_view_eq_none {txid : uint256} (h : s.view txid = none) : s.Masked txid := by
  intro hlookup
  rw [view_eq_read, hlookup] at h
  exact h

theorem newEntry_isPruned {txid : uint256} (hnone : s.view txid = none) :
    (s.newEntry txid).value.isPruned = true := by
  rw [view_eq_read] at hnone
  unfold newEntry
  cases hlookup : s.top.cacheCoins.lookup txid with
  | none => rfl
  | some it =>
    rw [hlookup] at hnone
    exact live_eq_none_iff.1 hnone

theorem parentView_of_newEntry (h : s.Coherent) {txid : uint256}
    (hentry : (s.newEntry txid).fresh = true ∨
      (s.view txid = none ∧ (s.newEntry txid).dirty = false)) : s.parentView txid = none := by
  cases hlookup : s.top.cacheCoins.lookup txid with
  | none =>
    rw [newEntry, hlookup, view_eq_read, hlookup] at hentry
    rcases hentry with hfresh | ⟨hnone, -⟩
    · cases hfresh
    · exact hnone
  | some it =>
    rcases hentry with hfresh | ⟨hnone, hclean⟩
    · rw [newEntry, hlookup] at hfresh
      exact (h.1 txid).fresh it hlookup hfresh
    · have hpruned := newEntry_isPruned hnone
      rw [newEntry, hlookup] at hclean hpruned
      exact ((h.1 txid).clean it hlookup hclean).symm.trans (live_of_null hpruned)

theorem modifyNewCoins_spec (h : s.Coherent) (txid : uint256)
    {coinbase : Bool} (hnew : coinbase = true ∨ s.view txid = none) (edit : CCoins → CCoins) :
    ∃ s', s.modifyNewCoins txid coinbase edit = .ok s' ∧ s'.Coherent ∧
      s'.flat = ⟨Function.update s.view txid (edit CCoins.empty).cleanup.live,
        levels s.base s.below⟩ ∧
      ∀ t, s.Masked t → s'.Masked t := by
  have hfresh : ((s.newEntry txid).fresh || (!coinbase && !(s.newEntry txid).dirty)) = true →
      s.parentView txid = none := by
    intro hcond
    rw [Bool.or_eq_true, Bool.and_eq_true, Bool.not_eq_true', Bool.not_eq_true'] at hcond
    refine parentView_of_newEntry h (hcond.imp_right fun hclean => ⟨?_, hclean.2⟩)
    exact hnew.resolve_left (by rw [hclean.1]; exact Bool.false_ne_true)
  obtain ⟨hcoherent, hread, hmasks⟩ :=
    CCoinsViewCache.closeModifier_spec h.1 hfresh
  have hguard : ¬ (!coinbase && !(s.newEntry txid).value.isPruned) = true := by
    rw [Bool.and_eq_true, Bool.not_eq_true', Bool.not_eq_true']
    rintro ⟨hcb, hunspent⟩
    rcases hnew with hcb' | hnone
    · rw [hcb] at hcb'
      cases hcb'
    · rw [newEntry_isPruned hnone] at hunspent
      cases hunspent
  exact ⟨_, if_neg hguard, ⟨hcoherent, h.2⟩, FlatState.ext hread rfl, hmasks⟩

theorem view_eq_none_of_modifyNewCoins {txid : uint256}
    (hmasked : s.Masked txid) {edit : CCoins → CCoins}
    (hrun : s.modifyNewCoins txid false edit = .ok s') : s.view txid = none := by
  rw [view_eq_read]
  cases hlookup : s.top.cacheCoins.lookup txid with
  | none => exact hmasked hlookup
  | some it =>
    refine live_of_null ?_
    by_contra hunspent
    rw [Bool.not_eq_true] at hunspent
    rw [modifyNewCoins, newEntry, hlookup] at hrun
    simp [hunspent] at hrun

end ViewStack

end Coinyecoin
