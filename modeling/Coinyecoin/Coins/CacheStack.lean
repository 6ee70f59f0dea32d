import Coinyecoin.Coins.Tidy

/-!
# Caches over a map of coins

A map of coins records what `BatchWrite` gives it, so a stack of caches over
it, and over any view that does the same, shows what a flat map would show. An
edit that reads what is left in pruned coins breaks this: two runs that differ
in a `Flush` only can end in different coins. So does a bottom view that takes
no writes.
-/

namespace Coinyecoin

open Foundation

namespace CoinsMap

theorem writeEntry_keyedStep :
    KeyedStep (E := Empty) (fun (db : CoinsMap) txid => db.coins.lookup txid)
      (fun db txid it => .ok (db.writeEntry txid it)) (fun _ _ => True)
      (fun held it => if it.dirty then it.value.live else held) where
  returns db txid it _ := by
    refine ⟨_, rfl, ?_⟩
    unfold writeEntry
    split_ifs with hdirty hpruned
    · refine ⟨?_, fun t ht => AList.lookup_erase_ne ht⟩
      exact (AList.lookup_erase _ _).trans (CacheSlot.live_of_null hpruned).symm
    · refine ⟨?_, fun t ht => AList.lookup_insert_ne ht⟩
      rw [Bool.not_eq_true] at hpruned
      exact (AList.lookup_insert _).trans (CacheSlot.live_of_not_null hpruned).symm
    · exact ⟨rfl, fun _ _ => rfl⟩

variable (db : CoinsMap) (mapCoins : CCoinsMap) (hashBlock txid : uint256)

theorem live_lookup (txid : uint256) :
    CacheSlot.liveOption CCoins.isPruned (db.coins.lookup txid) = db.coins.lookup txid := by
  cases hlookup : db.coins.lookup txid with
  | none => rfl
  | some coins => exact CacheSlot.live_of_not_null (db.unspent txid coins hlookup)

theorem lookup_batchWrite :
    (db.batchWrite mapCoins hashBlock).coins.lookup txid =
      mergedAt (fun held it => if it.dirty then it.value.live else held)
        (db.coins.lookup txid) (mapCoins.lookup txid) := by
  rw [← foldl_alist writeEntry_keyedStep mapCoins db txid, batchWrite]
  split_ifs <;> rfl

theorem recorded :
    CacheSlot.liveOption CCoins.isPruned ((db.batchWrite mapCoins hashBlock).coins.lookup txid) =
      match mapCoins.lookup txid with
      | some it => if it.dirty then it.value.live else
          CacheSlot.liveOption CCoins.isPruned (db.coins.lookup txid)
      | none => CacheSlot.liveOption CCoins.isPruned (db.coins.lookup txid) := by
  rw [live_lookup, lookup_batchWrite, live_lookup]
  cases mapCoins.lookup txid <;> rfl

end CoinsMap

theorem coinsMapView_lawful : coinsMapView.Lawful where
  succeeds _ _ _ := rfl
  recorded := CoinsMap.recorded

namespace ViewStack

variable {B : CCoinsView}

/-- Any admissible run of operations on a stack of caches succeeds, and then the
top cache reports for every transaction what the flat map holds. `HaveCoins`
says the same when the bottom view keeps no outputs in pruned records. -/
theorem run_reports_flatMap (hB : B.Lawful) (base : B.State) (n : ℕ) (ops : List ViewOp)
    (hops : (FlatState.start (baseMap base) n).AdmissibleRun ops) :
    ∃ s, (start base n).run ops = .ok s ∧ ∀ txid,
      s.report txid = ((FlatState.start (baseMap base) n).run ops).top txid ∧
      (B.Tidy → (s.haveCoins txid).1 =
        (((FlatState.start (baseMap base) n).run ops).top txid).isSome) := by
  obtain ⟨hcoherent, hflat⟩ := start_spec base n
  rw [← hflat] at hops
  obtain ⟨s, hrun, hs, hsflat⟩ := run_refines hB hcoherent hops
  have htop : ∀ txid, s.view txid =
      ((FlatState.start (baseMap base) n).run ops).top txid := by
    intro txid
    rw [← hflat, ← hsflat]
    rfl
  refine ⟨s, hrun, fun txid => ⟨?_, fun htidy => ?_⟩⟩
  · rw [report_eq_view hs, htop]
  · rw [haveCoins_eq htidy hs (run_tidy htidy (start_tidy base n) hrun), htop]

def sampleOutput : CTxOut := ⟨50, [0x51]⟩

def createCoins (_ : CCoins) : CCoins := ⟨false, [sampleOutput], 5, 1⟩

/-- Puts an output back without its height, as undoing a spend does when the
undo data has none. -/
def reviveOutput (coins : CCoins) : CCoins :=
  { coins with vout := SparseList.place CTxOut.null coins.vout 0 sampleOutput }

/-- The theorem applies to a run on two caches over an empty map in which
coins are created and flushed, spent, and the cache with the spend is dropped. -/
theorem run_reports_flatMap_sample :
    ∃ s, (start (B := coinsMapView) CoinsMap.empty 1).run
      [.modifyNewCoins 1 false createCoins, .flush, .modifyCoins 1 (fun _ => CCoins.empty),
        .drop] = .ok s ∧ s.report 1 = some (createCoins CCoins.empty) := by
  obtain ⟨s, hrun, hreport⟩ := run_reports_flatMap coinsMapView_lawful CoinsMap.empty 1
    [.modifyNewCoins 1 false createCoins, .flush, .modifyCoins 1 (fun _ => CCoins.empty), .drop]
    ⟨Or.inr rfl, trivial, fun _ _ => rfl, trivial, trivial⟩
  exact ⟨s, hrun, (hreport 1).1.trans rfl⟩

def spentView : CCoinsView where
  State := Unit
  getCoins _ _ := some ⟨false, [CTxOut.null], 1, 1⟩
  getBestBlock _ := 0
  batchWrite _ _ _ := (true, ())

/-- Creating coins, spending them and putting the output back leaves different
coins according to whether the cache was flushed in between. Coins flushed into
a plain `CCoinsView` are gone. `HaveCoins` is true of a record with a spent
output in place. -/
theorem report_after_flush_differs :
    ((start (B := coinsMapView) CoinsMap.empty 0).run
        [.modifyCoins 1 createCoins, .modifyCoins 1 (fun c => c.spend 0),
          .modifyCoins 1 reviveOutput]).map (fun s => s.report 1) =
      .ok (some ⟨false, [sampleOutput], 0, 0⟩) ∧
    ((start (B := coinsMapView) CoinsMap.empty 0).run
        [.modifyCoins 1 createCoins, .flush, .modifyCoins 1 (fun c => c.spend 0),
          .modifyCoins 1 reviveOutput]).map (fun s => s.report 1) =
      .ok (some ⟨false, [sampleOutput], 5, 1⟩) ∧
    ((start (B := dummyView) () 0).run [.modifyCoins 1 createCoins, .flush]).map
        (fun s => s.report 1) = .ok none ∧
    ((start (B := spentView) () 0).haveCoins 1).1 = true ∧
      (start (B := spentView) () 0).report 1 = none :=
  ⟨rfl, rfl, rfl, rfl, rfl⟩

end ViewStack

end Coinyecoin
