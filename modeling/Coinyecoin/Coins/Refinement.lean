import Coinyecoin.Coins.Coherence

/-!
# A stack of caches is a flat map

The purpose of a stack of coins caches is a single map of coins that can be set
aside and restored: pushing a cache saves the map, `Flush` overwrites what was
last saved, and dropping the top cache restores it. `FlatState.step` says so,
and knows nothing of caches, flags or entries.

`ViewStack.run_refines` is the refinement: a run of operations on a stack
succeeds and shows what the flat map shows. It asks two things that the source
leaves to its callers. The bottom view records what `BatchWrite` gives it
(`CCoinsView.Lawful`), and an edit does not look into pruned coins
(`RespectsPruned`): what is left in a pruned record depends on whether the cache
could drop it.
-/

namespace Coinyecoin

open Foundation CacheSlot CCoinsViewCache

/-- The bottom view stores the dirty entries and nothing else. -/
structure CCoinsView.Lawful (B : CCoinsView) : Prop where
  succeeds : ∀ base mapCoins hashBlock, (B.batchWrite base mapCoins hashBlock).1 = true
  recorded : ∀ base mapCoins hashBlock txid,
    ViewStack.baseMap (B.batchWrite base mapCoins hashBlock).2 txid =
      match mapCoins.lookup txid with
      | some it => if it.dirty then it.value.live else ViewStack.baseMap base txid
      | none => ViewStack.baseMap base txid

inductive ViewOp where
  | accessCoins (txid : uint256)
  | haveCoins (txid : uint256)
  | modifyCoins (txid : uint256) (edit : CCoins → CCoins)
  | modifyNewCoins (txid : uint256) (coinbase : Bool) (edit : CCoins → CCoins)
  | uncache (txid : uint256)
  | flush
  | push
  | drop

def RespectsPruned (edit : CCoins → CCoins) : Prop :=
  ∀ coins, coins.isPruned = true → (edit coins).cleanup.live = (edit CCoins.empty).cleanup.live

namespace FlatState

def start (m : FlatMap) (n : ℕ) : FlatState := ⟨m, List.replicate (n + 1) m⟩

def step (f : FlatState) : ViewOp → FlatState
  | .accessCoins _ => f
  | .haveCoins _ => f
  | .modifyCoins txid edit =>
    { f with
      top := Function.update f.top txid (edit ((f.top txid).getD CCoins.empty)).cleanup.live }
  | .modifyNewCoins txid _ edit =>
    { f with top := Function.update f.top txid (edit CCoins.empty).cleanup.live }
  | .uncache _ => f
  | .flush => { f with saved := f.top :: f.saved.tail }
  | .push => { f with saved := f.top :: f.saved }
  | .drop =>
    match f.saved with
    | m :: m' :: saved => ⟨m, m' :: saved⟩
    | _ => f

def run (f : FlatState) (ops : List ViewOp) : FlatState := ops.foldl step f

def Admissible (f : FlatState) : ViewOp → Prop
  | .modifyCoins _ edit => RespectsPruned edit
  | .modifyNewCoins txid coinbase _ => coinbase = true ∨ f.top txid = none
  | _ => True

def AdmissibleRun : FlatState → List ViewOp → Prop
  | _, [] => True
  | f, op :: ops => f.Admissible op ∧ AdmissibleRun (f.step op) ops

end FlatState

namespace CCoinsViewCache

theorem batchWriteEntry_keyedStep :
    KeyedStep (fun m txid => AList.lookup txid m) batchWriteEntry
      (fun held it => it.fresh = true → ∀ us, held = some us → us.value.isPruned = true)
      (fun held it => absorbed CCoins.isPruned held (some it)) where
  returns m txid it hok := by
    cases hdirty : it.dirty with
    | false =>
      rw [absorbed_clean hdirty, batchWriteEntry, if_neg (by simp [hdirty])]
      exact ⟨m, rfl, rfl, fun _ _ => rfl⟩
    | true =>
      rw [absorbed_dirty hdirty, batchWriteEntry, if_pos hdirty]
      cases hlookup : m.lookup txid with
      | none =>
        simp only [merged]
        split_ifs
        · exact ⟨m, rfl, hlookup, fun _ _ => rfl⟩
        · exact ⟨_, rfl, AList.lookup_insert _, fun _ ht => AList.lookup_insert_ne ht⟩
      | some us =>
        have hguard : ¬ (it.fresh && !us.value.isPruned) = true := by
          rw [Bool.and_eq_true, Bool.not_eq_true']
          rintro ⟨hfresh, hunspent⟩
          rw [hok hfresh us hlookup] at hunspent
          cases hunspent
        simp only [merged, if_neg hguard]
        split_ifs
        · exact ⟨_, rfl, AList.lookup_erase _ _, fun _ ht => AList.lookup_erase_ne ht⟩
        · exact ⟨_, rfl, AList.lookup_insert _, fun _ ht => AList.lookup_insert_ne ht⟩

theorem batchWrite_spec {parent : FlatMap} {view child : CCoinsViewCache}
    (hview : view.CoherentOver parent) (hchild : child.CoherentOver (view.readOver parent))
    (hashBlock : uint256) :
    ∃ view', view.batchWrite child.cacheCoins hashBlock = .ok view' ∧
      view'.CoherentOver parent ∧
      view'.readOver parent = child.readOver (view.readOver parent) := by
  have hok : ∀ txid it, child.cacheCoins.lookup txid = some it → it.fresh = true →
      ∀ us, view.cacheCoins.lookup txid = some us → us.value.isPruned = true := by
    intro txid it hit hfresh us hus
    have hnone := (hchild txid).fresh it hit hfresh
    rw [readOver, hus] at hnone
    exact live_eq_none_iff.1 hnone
  obtain ⟨cacheCoins, hrun, hlookup⟩ :=
    foldlM_alist batchWriteEntry_keyedStep child.cacheCoins view.cacheCoins hok
  have habsorbed : ∀ txid, cacheCoins.lookup txid =
      absorbed CCoins.isPruned (view.cacheCoins.lookup txid)
        (child.cacheCoins.lookup txid) := by
    intro txid
    rw [hlookup]
    cases child.cacheCoins.lookup txid <;> rfl
  refine ⟨⟨cacheCoins, hashBlock⟩, ?_, fun txid => ?_, funext fun txid => ?_⟩
  · rw [batchWrite, hrun]
    rfl
  · rw [habsorbed]
    exact (absorbed_spec (hview txid) (hchild txid)).1
  · rw [readOver, habsorbed]
    exact (absorbed_spec (hview txid) (hchild txid)).2

end CCoinsViewCache

namespace ViewStack

variable {B : CCoinsView}

def start (base : B.State) (n : ℕ) : ViewStack B :=
  ⟨CCoinsViewCache.empty, List.replicate n CCoinsViewCache.empty, base⟩

def step (s : ViewStack B) : ViewOp → Except Fault (ViewStack B)
  | .accessCoins txid => .ok (s.accessCoins txid).2
  | .haveCoins txid => .ok (s.haveCoins txid).2
  | .modifyCoins txid edit => do
    let (_, s) ← s.modifyCoins txid fun coins => .ok ((), edit coins)
    return s
  | .modifyNewCoins txid coinbase edit => s.modifyNewCoins txid coinbase edit
  | .uncache txid => .ok (s.uncache txid)
  | .flush => do
    let (_, s) ← s.flush
    return s
  | .push => .ok s.push
  | .drop => .ok s.drop

def run (s : ViewStack B) (ops : List ViewOp) : Except Fault (ViewStack B) := ops.foldlM step s

variable (base : B.State) (n : ℕ)

theorem levels_ne_nil (layers : List CCoinsViewCache) :
    ∃ saved, levels base layers = viewOf base layers :: saved := by
  cases layers with
  | nil => exact ⟨[], rfl⟩
  | cons view below => exact ⟨levels base below, rfl⟩

variable {s : ViewStack B}

variable {txid : uint256}

theorem uncache_spec (h : s.Coherent) :
    (s.uncache txid).Coherent ∧ (s.uncache txid).flat = s.flat := by
  unfold uncache CCoinsViewCache.uncache
  cases hlookup : s.top.cacheCoins.lookup txid with
  | none => exact ⟨h, rfl⟩
  | some it =>
    dsimp only
    split_ifs with hflags
    · rw [Bool.and_eq_true, Bool.not_eq_true', Bool.not_eq_true'] at hflags
      have hchanged := changedAt_erase s.top txid
      have hsame : s.parentView txid = s.view txid := by
        rw [view_eq_read, hlookup]
        exact ((h.1 txid).clean it hlookup hflags.1).symm
      refine ⟨⟨hchanged.coherentOver h.1 (coherent_none _), h.2⟩,
        FlatState.ext ?_ rfl⟩
      refine (hchanged.readOver s.parentView).trans ?_
      rw [read_none, hsame]
      exact Function.update_eq_self txid s.view
    · exact ⟨h, rfl⟩

theorem flush_spec (hB : B.Lawful) (h : s.Coherent) :
    ∃ s', s.flush = .ok (true, s') ∧ s'.Coherent ∧
      s'.flat = ⟨s.view, s.view :: (levels s.base s.below).tail⟩ := by
  obtain ⟨top, below, base⟩ := s
  cases below with
  | nil =>
    have hrecorded : baseMap (B.batchWrite base top.cacheCoins top.hashBlock).2 =
        top.readOver (baseMap base) := by
      funext txid
      rw [hB.recorded, readOver]
      cases hlookup : top.cacheCoins.lookup txid with
      | none => rfl
      | some it =>
        cases hdirty : it.dirty with
        | true => simp [hdirty, CacheSlot.read]
        | false =>
          have hclean : it.value.live = baseMap base txid :=
            (h.1 txid).clean it hlookup hdirty
          simp [hdirty, CacheSlot.read, hclean]
    refine ⟨_, congrArg Except.ok (Prod.ext (hB.succeeds _ _ _) rfl),
      ⟨coherentOver_empty _ _, trivial⟩, FlatState.ext hrecorded ?_⟩
    exact congrArg (fun m => [m]) hrecorded
  | cons parent below =>
    obtain ⟨parent', hwrite, hcoherent, hread⟩ :=
      batchWrite_spec h.2.1 h.1 top.hashBlock
    dsimp only at hwrite
    refine ⟨⟨⟨∅, top.hashBlock⟩, parent' :: below, base⟩, ?_,
      ⟨coherentOver_empty _ _, hcoherent, h.2.2⟩,
      FlatState.ext hread (congrArg (· :: levels base below) hread)⟩
    simp only [flush, hwrite]
    rfl

theorem coherent_push (h : s.Coherent) : s.push.Coherent :=
  ⟨coherentOver_empty _ _, h⟩

theorem coherent_drop (h : s.Coherent) : s.drop.Coherent := by
  obtain ⟨top, below, base⟩ := s
  cases below with
  | nil => exact h
  | cons view below => exact h.2

theorem flat_drop (s : ViewStack B) : s.drop.flat = s.flat.step .drop := by
  obtain ⟨top, below, base⟩ := s
  cases below with
  | nil => rfl
  | cons view below =>
    obtain ⟨saved, hsaved⟩ := levels_ne_nil base below
    change (ViewStack.mk view below base).flat = FlatState.step ⟨_, _ :: levels base below⟩ .drop
    rw [flat, hsaved]
    rfl

theorem live_edit_opened (h : s.Coherent) {edit : CCoins → CCoins} (hedit : RespectsPruned edit) :
    (edit (s.opened txid)).cleanup.live =
      (edit ((s.view txid).getD CCoins.empty)).cleanup.live := by
  rw [← live_opened h txid]
  cases hpruned : (s.opened txid).isPruned with
  | true =>
    have hshown : (s.opened txid).live = none := live_of_null hpruned
    rw [hshown]
    exact hedit _ hpruned
  | false =>
    have hshown : (s.opened txid).live = some (s.opened txid) :=
      live_of_not_null hpruned
    rw [hshown, Option.getD_some]

theorem step_refines (hB : B.Lawful) (h : s.Coherent) {op : ViewOp} (hop : s.flat.Admissible op) :
    ∃ s', s.step op = .ok s' ∧ s'.Coherent ∧ s'.flat = s.flat.step op := by
  cases op with
  | accessCoins txid => exact ⟨_, rfl, (accessCoins_spec h txid).2⟩
  | haveCoins txid => exact ⟨_, rfl, (accessCoins_spec h txid).2⟩
  | modifyCoins txid edit =>
    obtain ⟨hcoherent, hflat, -⟩ := edited_spec h txid (edit (s.opened txid))
    refine ⟨_, rfl, hcoherent, hflat.trans ?_⟩
    rw [live_edit_opened h hop]
    rfl
  | modifyNewCoins txid coinbase edit =>
    obtain ⟨s', hrun, hcoherent, hflat, -⟩ := modifyNewCoins_spec h txid hop edit
    exact ⟨s', hrun, hcoherent, hflat⟩
  | uncache txid => exact ⟨_, rfl, uncache_spec h⟩
  | flush =>
    obtain ⟨s', hrun, hcoherent, hflat⟩ := flush_spec hB h
    refine ⟨s', ?_, hcoherent, hflat⟩
    rw [step, hrun]
    rfl
  | push => exact ⟨_, rfl, coherent_push h, rfl⟩
  | drop => exact ⟨_, rfl, coherent_drop h, flat_drop s⟩

theorem run_refines (hB : B.Lawful) (h : s.Coherent) {ops : List ViewOp}
    (hops : s.flat.AdmissibleRun ops) :
    ∃ s', s.run ops = .ok s' ∧ s'.Coherent ∧ s'.flat = s.flat.run ops := by
  induction ops generalizing s with
  | nil => exact ⟨s, rfl, h, rfl⟩
  | cons op ops ih =>
    obtain ⟨s₁, hstep, hcoherent₁, hflat₁⟩ := step_refines hB h hops.1
    obtain ⟨s', hrun, hcoherent, hflat⟩ := ih hcoherent₁ (by rw [hflat₁]; exact hops.2)
    refine ⟨s', ?_, hcoherent, ?_⟩
    · rw [run, List.foldlM_cons, hstep, ok_bind]
      exact hrun
    · rw [hflat, hflat₁]
      rfl

theorem viewOf_empty : viewOf base (List.replicate n empty) = baseMap base := by
  induction n with
  | zero => rfl
  | succ n ih =>
    rw [List.replicate_succ, viewOf, ih]
    rfl

theorem start_spec :
    (start base n).Coherent ∧ (start base n).flat = FlatState.start (baseMap base) n := by
  have hlayers : ∀ k, CoherentLayers base (List.replicate k empty) ∧
      levels base (List.replicate k empty) =
        List.replicate (k + 1) (baseMap base) := by
    intro k
    induction k with
    | zero => exact ⟨trivial, rfl⟩
    | succ k ih =>
      refine ⟨⟨coherentOver_empty _ _, ih.1⟩, ?_⟩
      have hview := viewOf_empty base (k + 1)
      rw [List.replicate_succ] at hview ⊢
      rw [levels, ih.2, hview, List.replicate_succ (n := k + 1)]
  refine ⟨(hlayers (n + 1)).1, FlatState.ext ?_ (hlayers n).2⟩
  exact viewOf_empty base (n + 1)

end ViewStack

end Coinyecoin
