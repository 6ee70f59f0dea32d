import Coinyecoin.Foundation.Runs
import Coinyecoin.Net.Layout
import Coinyecoin.Net.Matching

/-!
# What a peer can do to `InitData`

For every compact block, pool and ring of extra transactions: when `InitData`
returns without a fault and with every short id at its position. It does not with
`2 ^ 16` prefilled transactions and a short id (the search for a free slot never
ends), with more than `2 ^ 16` transactions (positions are cut to 16 bits), and with
an entry of the ring that was never filled and has the short id of a transaction
that was found (its null pointer is followed).
-/

namespace Coinyecoin

open Foundation ReadStatus PartiallyDownloadedBlock List

namespace PartiallyDownloadedBlock

section

variable {env : RelayEnv} {fuel fuel' : ℕ} {txn_available : List CTransactionRef}

theorem nextFree_mono (hle : fuel ≤ fuel') {i : ℕ} {offset offset' : UInt16}
    (h : nextFree txn_available i fuel offset = .ok offset') :
    nextFree txn_available i fuel' offset = .ok offset' := by
  induction fuel generalizing fuel' offset with
  | zero => exact nomatch h
  | succ fuel ih =>
    obtain ⟨fuel', rfl⟩ : ∃ k, fuel' = k + 1 := ⟨fuel' - 1, by omega⟩
    rw [nextFree, bind_eq_ok] at h ⊢
    obtain ⟨slot, hslot, h⟩ := h
    refine ⟨slot, hslot, ?_⟩
    split_ifs at h ⊢ with hsome
    · exact ih (by omega) h
    · exact h

theorem assignIds_mono (hle : fuel ≤ fuel') {nBuckets : ℕ} {done ids : List UInt64}
    {offset : UInt16} {m : ShortIds} {r : ReadStatus × ShortIds}
    (h : assignIds env fuel nBuckets txn_available done offset m ids = .ok r) :
    assignIds env fuel' nBuckets txn_available done offset m ids = .ok r := by
  induction ids generalizing done offset m with
  | nil => exact h
  | cons id ids ih =>
    rw [assignIds, bind_eq_ok] at h ⊢
    obtain ⟨offset', hoffset, h⟩ := h
    refine ⟨offset', nextFree_mono hle hoffset, ?_⟩
    split_ifs at h ⊢ with hfull
    · exact h
    · exact ih h

theorem layOut_mono (hle : fuel ≤ fuel') {p : PartiallyDownloadedBlock}
    {cmpctblock : CBlockHeaderAndShortTxIDs} {r : ReadStatus × PartiallyDownloadedBlock × ShortIds}
    (h : layOut env fuel p cmpctblock = .ok r) : layOut env fuel' p cmpctblock = .ok r := by
  rw [layOut, bind_eq_ok] at h ⊢
  obtain ⟨⟨status, filled⟩, hprefill, h⟩ := h
  refine ⟨(status, filled), hprefill, ?_⟩
  simp only at h ⊢
  split_ifs at h ⊢ with hstatus
  · exact h
  · rw [bind_eq_ok] at h ⊢
    obtain ⟨result, hmap, h⟩ := h
    refine ⟨result, ?_, h⟩
    rw [mapIds, bind_eq_ok] at hmap ⊢
    obtain ⟨assigned, hassign, hmap⟩ := hmap
    exact ⟨assigned, assignIds_mono hle hassign, hmap⟩

end

end PartiallyDownloadedBlock

namespace CBlockHeaderAndShortTxIDs

variable (env : RelayEnv) (cmpctblock : CBlockHeaderAndShortTxIDs)

def TurnedDown : Prop :=
  cmpctblock.header.isNull = true ∨
  (cmpctblock.shorttxids = [] ∧ cmpctblock.prefilledtxn = []) ∨
  cmpctblock.blockTxCount > 100000 ∨
  ¬ cmpctblock.WellPrefilled ∨
  (cmpctblock.prefilledtxn.length < 65536 ∧
    (cmpctblock.Crowded env ∨ ¬ cmpctblock.shorttxids.Nodup))

/-- The scan over the extra transactions comes to an entry that was never filled, and a transaction
was found for the short id that such entries have. -/
def MeetsUnfilled (vTxHashes : List (uint256 × CTransaction))
    (extra_txn : List (uint256 × CTransactionRef)) : Prop :=
  let complete := Scan.complete env (cmpctblock.getShortID env) cmpctblock.shorttxids
  let pool := scanUntil (complete · []) [] vTxHashes
  let filled := extra_txn.filterMap fun entry => entry.2.map fun tx => (entry.1, tx)
  (∃ entry ∈ extra_txn, entry.2 = none) ∧
    (∀ k ≤ filled.length, 1 ≤ k → complete pool (filled.take k) = false) ∧
    cmpctblock.getShortID env 0 ∈ cmpctblock.shorttxids ∧
    (held env (cmpctblock.getShortID env) pool filled (cmpctblock.getShortID env 0)).isSome = true

def Placed (shorttxids : ShortIds) : Prop :=
  ∀ e ∈ cmpctblock.shorttxids.zip cmpctblock.shortPlaces,
    (shorttxids.lookup e.1).map UInt16.toNat = some e.2

def Initialises (vTxHashes : List (uint256 × CTransaction))
    (extra_txn : List (uint256 × CTransactionRef)) : Prop :=
  ∃ fuel status p, initData env fuel init cmpctblock vTxHashes extra_txn = .ok (status, p) ∧
    (status = READ_STATUS_OK → ∃ p' shorttxids,
      layOut env fuel init cmpctblock = .ok (READ_STATUS_OK, p', shorttxids) ∧
        cmpctblock.Placed shorttxids)

end CBlockHeaderAndShortTxIDs

namespace ExtraTxns

variable {max_extra_txn : ℕ}

def Filling (env : RelayEnv) (extra : ExtraTxns max_extra_txn) : Prop :=
  ∃ (filled : List CTransaction) (n : ℕ), extra.vExtraTxnForCompact =
      filled.map (fun tx => (env.getWitnessHash tx, some tx)) ++ List.replicate n (0, none) ∧
    (0 < n → extra.vExtraTxnForCompactIt = filled.length)

theorem filling_add {env : RelayEnv} {extra : ExtraTxns max_extra_txn} (h : extra.Filling env)
    (tx : CTransaction) : (extra.addToCompactExtraTransactions env tx).Filling env := by
  by_cases hmax : max_extra_txn = 0
  · rw [addToCompactExtraTransactions, dif_pos hmax]
    exact h
  rw [addToCompactExtraTransactions, dif_neg hmax]
  obtain ⟨filled, n, hv, hit, hlength⟩ : ∃ (filled : List CTransaction) (n : ℕ),
      (if extra.vExtraTxnForCompact.isEmpty then List.replicate max_extra_txn (0, none)
        else extra.vExtraTxnForCompact) =
        filled.map (fun tx => (env.getWitnessHash tx, some tx)) ++ List.replicate n (0, none) ∧
      (0 < n → extra.vExtraTxnForCompactIt = filled.length) ∧
      filled.length + n = max_extra_txn := by
    rcases extra.bound with ⟨hempty, hit⟩ | ⟨hlength, -⟩
    · exact ⟨[], max_extra_txn, by simp [hempty], fun _ => hit, Nat.zero_add _⟩
    · obtain ⟨filled, n, hv, hit⟩ := h
      refine ⟨filled, n, ?_, hit, ?_⟩
      · rw [if_neg, hv]
        rw [List.isEmpty_iff]
        intro hnil
        rw [hnil] at hlength
        exact hmax hlength.symm
      · rw [← hlength, hv, length_append, length_map, length_replicate]
  rw [Filling]
  simp only [hv]
  cases n with
  | zero =>
    refine ⟨filled.set extra.vExtraTxnForCompactIt tx, 0, ?_, fun h => nomatch h⟩
    simp only [replicate_zero, append_nil, map_set]
  | succ n =>
    refine ⟨filled ++ [tx], n, ?_, fun hn => ?_⟩
    · rw [hit n.succ_pos, set_append_right _ _ (by rw [length_map]), length_map,
        Nat.sub_self, replicate_succ, set_cons_zero, map_append,
        append_assoc]
      rfl
    · rw [hit n.succ_pos, length_append, length_singleton]
      exact Nat.mod_eq_of_lt (by omega)

theorem filling_after {env : RelayEnv} {txs : List CTransaction} :
    (after env max_extra_txn txs).Filling env :=
  runEvents_invariant (P := Filling env) (fun _ tx h => filling_add h tx) txs
    ⟨[], 0, rfl, fun h => nomatch h⟩

end ExtraTxns

namespace CBlockHeaderAndShortTxIDs

section

variable {env : RelayEnv} {cmpctblock : CBlockHeaderAndShortTxIDs} {p : PartiallyDownloadedBlock}
  {vTxHashes : List (uint256 × CTransaction)}

theorem mem_shortPlaces_of_mem_zip {e : UInt64 × ℕ}
    (he : e ∈ cmpctblock.shorttxids.zip cmpctblock.shortPlaces) :
    e.2 < cmpctblock.blockTxCount ∧ e.2 ∉ cmpctblock.prefilledPlaces := by
  have hmem := (of_mem_zip he).2
  simpa [shortPlaces] using hmem

section

variable (hwell : cmpctblock.WellPrefilled) (hnodup : cmpctblock.shorttxids.Nodup)
include hwell hnodup

theorem addresses (hcount : cmpctblock.blockTxCount ≤ 65536) :
    Scan.Addresses (insertIds ∅ (cmpctblock.shorttxids.zip cmpctblock.shortPlaces))
      (cmpctblock.shorttxids.zip cmpctblock.shortPlaces) where
  ids := by
    rw [map_fst_zip_shortPlaces hwell]
    exact hnodup
  places := by
    rw [map_snd_zip (length_shortPlaces hwell).le]
    exact nodup_shortPlaces
  found e he := by
    refine ⟨UInt16.ofNat e.2, lookup_insertIds_of_mem ?_ he, ?_⟩
    · rw [map_fst_zip_shortPlaces hwell]
      exact hnodup
    · have hlt := (mem_shortPlaces_of_mem_zip he).1
      rw [UInt16.toNat_ofNat']
      exact Nat.mod_eq_of_lt (by omega)
  other id hid := lookup_insertIds_of_notMem hid
  size := by
    rw [keys_insertIds, map_fst_zip_shortPlaces hwell, Finmap.keys_empty, Finset.empty_union,
      toFinset_card_of_nodup hnodup, length_zip, length_shortPlaces hwell, min_self]
  small := by
    rw [length_zip]
    rw [blockTxCount] at hcount
    omega

theorem placed (hcount : cmpctblock.blockTxCount ≤ 65536) :
    cmpctblock.Placed (insertIds ∅ (cmpctblock.shorttxids.zip cmpctblock.shortPlaces)) := by
  intro e he
  obtain ⟨n, hlookup, hn⟩ := (addresses hwell hnodup hcount).found e he
  rw [hlookup, Option.map_some, hn]

theorem not_placed (hcount : 65536 < cmpctblock.blockTxCount) :
    ¬ cmpctblock.Placed (insertIds ∅ (cmpctblock.shorttxids.zip cmpctblock.shortPlaces)) := by
  intro hplaced
  have hlast : cmpctblock.blockTxCount - 1 ∈ cmpctblock.shortPlaces := by
    refine mem_filter.2 ⟨mem_range.2 (by omega), decide_eq_true fun hmem => ?_⟩
    have hle := (WellPlaced.bounds hwell hmem).1
    omega
  rw [← map_snd_zip (length_shortPlaces hwell).le] at hlast
  obtain ⟨e, he, hplace⟩ := mem_map.1 hlast
  have hkeys : ((cmpctblock.shorttxids.zip cmpctblock.shortPlaces).map Prod.fst).Nodup := by
    rw [map_fst_zip_shortPlaces hwell]
    exact hnodup
  have hlookup := hplaced e he
  rw [lookup_insertIds_of_mem hkeys he, Option.map_some, Option.some_inj] at hlookup
  have hlt := (UInt16.ofNat e.2).toNat_lt
  omega

end

theorem scanned_nil {slots : List (UInt64 × ℕ)} {getShortID : uint256 → UInt64} {s : Scan}
    (havailable : ∀ e ∈ slots, s.txn_available[e.2]? = some none)
    (hhave : ∀ e ∈ slots, s.have_txn[e.2]? = some false) (hzero : s.mempool_count = 0) :
    Scan.Scanned env getShortID slots [] [] s where
  available := havailable
  have_txn := hhave
  count := by
    rw [hzero, countP_eq_zero.2]
    · rfl
    · exact fun _ _ => Bool.false_ne_true

theorem findTransactions_iff (hwell : cmpctblock.WellPrefilled)
    (hnodup : cmpctblock.shorttxids.Nodup) (hcount : cmpctblock.blockTxCount ≤ 65536)
    (hprefilled : Prefilled cmpctblock p.txn_available) (hzero : p.mempool_count = 0)
    {max_extra_txn : ℕ} {extra : ExtraTxns max_extra_txn} (hextra : extra.Filling env) :
    (∃ p', findTransactions env p (insertIds ∅ (cmpctblock.shorttxids.zip cmpctblock.shortPlaces))
      (cmpctblock.getShortID env) vTxHashes extra.vExtraTxnForCompact = .ok p') ↔
      ¬ cmpctblock.MeetsUnfilled env vTxHashes extra.vExtraTxnForCompact := by
  have haddr := addresses hwell hnodup hcount
  have hids := map_fst_zip_shortPlaces hwell
  generalize hslots : cmpctblock.shorttxids.zip cmpctblock.shortPlaces = slots at haddr hids ⊢
  generalize insertIds ∅ slots = shorttxids at haddr ⊢
  let s₀ : Scan := ⟨p.txn_available, List.replicate p.txn_available.length false,
    p.mempool_count, p.extra_count⟩
  have hstart : Scan.Scanned env (cmpctblock.getShortID env) slots [] [] s₀ := by
    have hplace : ∀ e ∈ slots, e.2 < cmpctblock.blockTxCount ∧ e.2 ∉ cmpctblock.prefilledPlaces :=
      fun e he => mem_shortPlaces_of_mem_zip (hslots ▸ he)
    refine scanned_nil (fun e he => ?_) (fun e he => ?_) hzero
    · exact hprefilled.free e.2 (hplace e he).1 (hplace e he).2
    · refine getElem?_replicate_of_lt ?_
      rw [hprefilled.length]
      exact (hplace e he).1
  obtain ⟨s₁, hpool, hscanned⟩ := @Scan.scan_pool _ _ _ _ haddr [] vTxHashes s₀ hstart
  rw [hids] at hscanned
  obtain ⟨txs, n, hv, -⟩ := hextra
  let filled := txs.map fun tx => (env.getWitnessHash tx, tx)
  have hmap : txs.map (fun tx => (env.getWitnessHash tx, some tx)) =
      filled.map fun entry => (entry.1, some entry.2) := by
    rw [map_map]
    rfl
  have hfilter : extra.vExtraTxnForCompact.filterMap
      (fun entry => entry.2.map fun tx => (entry.1, tx)) = filled := by
    rw [hv, filterMap_append, filterMap_map]
    simp [filled]
  have hfind : (∃ p', findTransactions env p shorttxids (cmpctblock.getShortID env) vTxHashes
      extra.vExtraTxnForCompact = .ok p') ↔ ∃ s, s₁.scan shorttxids (cmpctblock.getShortID env)
        (Scan.visitExtra env) extra.vExtraTxnForCompact = .ok s := by
    rw [findTransactions, hpool, ok_bind]
    constructor
    · rintro ⟨p', hp'⟩
      obtain ⟨s, hs, -⟩ := bind_eq_ok.1 hp'
      exact ⟨s, hs⟩
    · rintro ⟨s, hs⟩
      exact ⟨_, bind_eq_ok.2 ⟨s, hs, rfl⟩⟩
  rw [hfind, MeetsUnfilled, hfilter, hv, hmap]
  rcases @Scan.scan_extra env _ _ _ haddr _ [] filled s₁ hscanned with
    ⟨k, hk, hone, hcomplete, s₂, hs₂⟩ | ⟨hnot, s₂, hlast, hs₂⟩
  · refine iff_of_true ⟨s₂, hs₂ _⟩ fun ⟨_, hincomplete, _⟩ => ?_
    rw [hids] at hcomplete
    exact Bool.false_ne_true ((hincomplete k hk hone).symm.trans hcomplete)
  · rw [hs₂]
    cases n with
    | zero =>
      refine iff_of_true ⟨s₂, rfl⟩ fun ⟨⟨entry, hmem, hnone⟩, _⟩ => ?_
      rw [replicate_zero, append_nil] at hmem
      obtain ⟨filledEntry, -, rfl⟩ := mem_map.1 hmem
      exact nomatch hnone
    | succ n =>
      rw [Scan.scan_unfilled haddr hlast n, hids]
      rw [hids] at hnot
      have hunfilled : ∃ entry ∈ filled.map (fun entry => (entry.1, some entry.2)) ++
          List.replicate (n + 1) ((0 : uint256), (none : CTransactionRef)), entry.2 = none :=
        ⟨(0, none), mem_append_right _ (by simp), rfl⟩
      exact not_congr ⟨fun h => ⟨hunfilled, hnot, h⟩, fun h => h.2.2⟩

section

variable (hheader : cmpctblock.header.isNull = false)
  (hsome : ¬ (cmpctblock.shorttxids = [] ∧ cmpctblock.prefilledtxn = []))
  (hlong : cmpctblock.blockTxCount ≤ 100000)
include hheader hsome hlong

theorem initData_eq (fuel : ℕ)
    (vTxHashes : List (uint256 × CTransaction)) (extra_txn : List (uint256 × CTransactionRef)) :
    initData env fuel init cmpctblock vTxHashes extra_txn =
      (layOut env fuel init cmpctblock >>= fun result =>
        if result.1 ≠ READ_STATUS_OK then .ok (result.1, result.2.1)
        else orStop (findTransactions env result.2.1 result.2.2 (cmpctblock.getShortID env)
          vTxHashes extra_txn) >>= fun p => .ok (READ_STATUS_OK, p)) := by
  rw [initData, if_neg, if_neg, assertThat_of_true ⟨rfl, rfl⟩]
  · rfl
  · have hbase : MAX_BLOCK_BASE_SIZE / MIN_TRANSACTION_BASE_SIZE = 100000 := by decide
    rw [hbase]
    rw [blockTxCount] at hlong
    omega
  · simpa [hheader] using hsome

theorem initialises_of_layOut {fuel : ℕ} {status : ReadStatus}
    {p : PartiallyDownloadedBlock} {m : ShortIds}
    (hlayOut : layOut env fuel init cmpctblock = .ok (status, p, m))
    (hstatus : status ≠ READ_STATUS_OK) (vTxHashes : List (uint256 × CTransaction))
    (extra_txn : List (uint256 × CTransactionRef)) :
    cmpctblock.Initialises env vTxHashes extra_txn := by
  refine ⟨fuel, status, p, ?_, fun hok => absurd hok hstatus⟩
  rw [initData_eq hheader hsome hlong, hlayOut, ok_bind, if_pos hstatus]

end

theorem initialises_of_turnedDown (h : cmpctblock.TurnedDown env)
    (vTxHashes : List (uint256 × CTransaction)) (extra_txn : List (uint256 × CTransactionRef)) :
    cmpctblock.Initialises env vTxHashes extra_txn := by
  have hinvalid : READ_STATUS_INVALID ≠ READ_STATUS_OK := by decide
  have hfailed : READ_STATUS_FAILED ≠ READ_STATUS_OK := by decide
  by_cases hfirst : (cmpctblock.header.isNull ||
      (cmpctblock.shorttxids.isEmpty && cmpctblock.prefilledtxn.isEmpty)) = true
  · exact ⟨0, READ_STATUS_INVALID, init, if_pos hfirst, fun hok => absurd hok hinvalid⟩
  by_cases hlong : cmpctblock.blockTxCount > 100000
  · refine ⟨0, READ_STATUS_INVALID, init, ?_, fun hok => absurd hok hinvalid⟩
    exact (if_neg hfirst).trans (if_pos hlong)
  simp only [Bool.or_eq_true, Bool.and_eq_true, List.isEmpty_iff, not_or, Bool.not_eq_true]
    at hfirst
  obtain ⟨hheader, hsome⟩ := hfirst
  have hreturns := @initialises_of_layOut env cmpctblock hheader hsome (Nat.le_of_not_lt hlong)
  by_cases hwell : cmpctblock.WellPrefilled
  · obtain ⟨txn_available, hprefilled, hlayOut⟩ := @layOut_prefilled env cmpctblock init hwell
    obtain ⟨hfew, hbad⟩ : cmpctblock.prefilledtxn.length < 65536 ∧
        (cmpctblock.Crowded env ∨ ¬ cmpctblock.shorttxids.Nodup) := by
      rcases h with h | h | h | h | h
      · exact absurd h (by rw [hheader]; exact Bool.false_ne_true)
      · exact absurd h hsome
      · exact absurd h hlong
      · exact absurd hwell h
      · exact h
    obtain ⟨m, hmap⟩ : ∃ m, mapIds env cmpctblock.blockTxCount txn_available
        cmpctblock.shorttxids = .ok (READ_STATUS_FAILED, m) := by
      by_cases hcrowd : cmpctblock.Crowded env
      · exact mapIds_of_crowded hprefilled hwell hfew hcrowd le_rfl
      · have hmap := mapIds_of_room hprefilled hwell (.inl hfew) hcrowd le_rfl
        rw [if_neg (hbad.resolve_left hcrowd)] at hmap
        exact ⟨_, hmap⟩
    exact hreturns (bind_eq_ok.2 ⟨_, hmap, rfl⟩ |> (hlayOut cmpctblock.blockTxCount).trans) hfailed _ _
  · obtain ⟨p, hlayOut⟩ := @layOut_invalid env cmpctblock init hwell
    exact hreturns (hlayOut 0) hinvalid _ _

/-- `InitData` returns, with the short ids at their positions if it is successful, exactly if it
turns the message down, or positions fit in 16 bits and no entry that was never filled is met. -/
theorem initialises_iff (env : RelayEnv) (cmpctblock : CBlockHeaderAndShortTxIDs)
    (vTxHashes : List (uint256 × CTransaction)) (max_extra_txn : ℕ) (txs : List CTransaction) :
    cmpctblock.Initialises env vTxHashes (ExtraTxns.after env max_extra_txn txs).vExtraTxnForCompact ↔
      cmpctblock.TurnedDown env ∨ cmpctblock.blockTxCount ≤ 65536 ∧
        ¬ cmpctblock.MeetsUnfilled env vTxHashes
          (ExtraTxns.after env max_extra_txn txs).vExtraTxnForCompact := by
  by_cases hdown : cmpctblock.TurnedDown env
  · exact iff_of_true (initialises_of_turnedDown hdown _ _) (.inl hdown)
  rw [or_iff_right hdown]
  simp only [TurnedDown, not_or, not_and, not_not, Bool.not_eq_true] at hdown
  obtain ⟨hheader, hsome, hlong, hwell, hrest⟩ := hdown
  have heq := @initData_eq env cmpctblock hheader (fun h => hsome h.1 h.2) (by omega)
  obtain ⟨txn_available, hprefilled, hlayOut⟩ := @layOut_prefilled env cmpctblock init hwell
  by_cases hfew : cmpctblock.prefilledtxn.length < 65536 ∨ cmpctblock.shorttxids = []
  · obtain ⟨hroom, hnodup⟩ : ¬ cmpctblock.Crowded env ∧ cmpctblock.shorttxids.Nodup := by
      rcases hfew with hfew | hnil
      · exact hrest hfew
      · rw [Crowded, hnil]
        refine ⟨fun ⟨done, id, rest, hids, _⟩ => ?_, nodup_nil⟩
        exact absurd hids.symm (append_ne_nil_of_right_ne_nil _ (cons_ne_nil id rest))
    let laid : PartiallyDownloadedBlock := { init with
      header := cmpctblock.header
      txn_available := txn_available
      prefilled_count := UInt64.ofNat cmpctblock.prefilledtxn.length }
    let shorttxids := insertIds ∅ (cmpctblock.shorttxids.zip cmpctblock.shortPlaces)
    have hmaps : ∀ fuel, cmpctblock.blockTxCount ≤ fuel →
        layOut env fuel init cmpctblock = .ok (READ_STATUS_OK, laid, shorttxids) := by
      intro fuel hfuel
      rw [hlayOut, mapIds_of_room hprefilled hwell hfew hroom hfuel, if_pos hnodup]
      rfl
    have hunique : ∀ fuel result, layOut env fuel init cmpctblock = .ok result →
        result = (READ_STATUS_OK, laid, shorttxids) := by
      intro fuel result hresult
      have hmore := layOut_mono (le_max_left fuel cmpctblock.blockTxCount) hresult
      rw [hmaps _ (le_max_right _ _)] at hmore
      exact (Except.ok.inj hmore).symm
    by_cases hcount : cmpctblock.blockTxCount ≤ 65536
    · rw [and_iff_right hcount, ← @findTransactions_iff env cmpctblock laid vTxHashes hwell hnodup
        hcount hprefilled rfl max_extra_txn _ (ExtraTxns.filling_after)]
      constructor
      · rintro ⟨fuel, status, p, hinit, -⟩
        rw [heq] at hinit
        obtain ⟨result, hresult, hinit⟩ := bind_eq_ok.1 hinit
        rw [hunique fuel result hresult] at hinit
        obtain ⟨p', hfind, -⟩ := bind_eq_ok.1 hinit
        exact ⟨p', orStop_eq_ok.1 hfind⟩
      · rintro ⟨p', hfind⟩
        refine ⟨cmpctblock.blockTxCount, READ_STATUS_OK, p', ?_, fun _ =>
          ⟨laid, shorttxids, hmaps _ le_rfl, placed hwell hnodup hcount⟩⟩
        rw [heq]
        exact bind_eq_ok.2 ⟨_, hmaps _ le_rfl, bind_eq_ok.2 ⟨p', orStop_eq_ok.2 hfind, rfl⟩⟩
    · refine iff_of_false (fun ⟨fuel, status, p, hinit, hplaced⟩ => ?_) fun h => hcount h.1
      rw [heq] at hinit
      obtain ⟨result, hresult, hinit⟩ := bind_eq_ok.1 hinit
      rw [hunique fuel result hresult] at hinit
      obtain ⟨p', -, hstatus⟩ := bind_eq_ok.1 hinit
      obtain ⟨p'', m, hlaid, hplaced⟩ := hplaced (Prod.mk.inj (Except.ok.inj hstatus)).1.symm
      obtain ⟨-, -, rfl⟩ := Prod.mk.inj (hunique fuel _ hlaid) |>.imp_right Prod.mk.inj
      exact not_placed hwell hnodup (Nat.lt_of_not_le hcount) hplaced
  · rw [not_or, not_lt] at hfew
    refine iff_of_false (fun ⟨fuel, status, p, hinit, _⟩ => ?_) fun ⟨hcount, _⟩ => ?_
    · rw [heq, hlayOut, mapIds_hangs hprefilled hwell hfew.1 hfew.2] at hinit
      exact nomatch hinit
    · have hpos := length_pos_iff.2 hfew.2
      rw [blockTxCount] at hcount
      omega

theorem initData_ok (hfew : cmpctblock.prefilledtxn.length < 65536) {fuel : ℕ}
    {extra_txn : List (uint256 × CTransactionRef)}
    (h : initData env fuel init cmpctblock vTxHashes extra_txn = .ok (READ_STATUS_OK, p)) :
    cmpctblock.header.isNull = false ∧ cmpctblock.WellPrefilled ∧ cmpctblock.shorttxids.Nodup ∧
      ∃ laid, laid.header = cmpctblock.header ∧
        layOut env cmpctblock.blockTxCount init cmpctblock = .ok (READ_STATUS_OK, laid,
          insertIds ∅ (cmpctblock.shorttxids.zip cmpctblock.shortPlaces)) ∧
        findTransactions env laid (insertIds ∅ (cmpctblock.shorttxids.zip cmpctblock.shortPlaces))
          (cmpctblock.getShortID env) vTxHashes extra_txn = .ok p := by
  rw [initData] at h
  split_ifs at h with hnull hlong
  · exact nomatch (Prod.mk.inj (Except.ok.inj h)).1
  · exact nomatch (Prod.mk.inj (Except.ok.inj h)).1
  obtain ⟨-, -, h⟩ := bind_eq_ok.1 h
  obtain ⟨⟨status, laid, m⟩, hlaid, h⟩ := bind_eq_ok.1 h
  simp only at h
  split_ifs at h with hstatus
  · exact absurd (Prod.mk.inj (Except.ok.inj h)).1 hstatus
  obtain ⟨p', hfind, hp'⟩ := bind_eq_ok.1 h
  obtain rfl : p' = p := (Prod.mk.inj (Except.ok.inj hp')).2
  obtain rfl := not_not.1 hstatus
  have hwell : cmpctblock.WellPrefilled := by
    by_contra hnot
    obtain ⟨p', hlayOut⟩ := @layOut_invalid env cmpctblock init hnot
    rw [hlayOut] at hlaid
    exact nomatch (Prod.mk.inj (Except.ok.inj hlaid)).1
  obtain ⟨txn_available, hprefilled, hlayOut⟩ := @layOut_prefilled env cmpctblock init hwell
  have hmore := layOut_mono (le_max_left fuel cmpctblock.blockTxCount) hlaid
  rw [hlayOut] at hmore
  obtain ⟨result, hresult, hmore⟩ := bind_eq_ok.1 hmore
  have hroom : ¬ cmpctblock.Crowded env := by
    intro hcrowd
    obtain ⟨m', hmap⟩ := mapIds_of_crowded hprefilled hwell hfew hcrowd
      (le_max_right fuel cmpctblock.blockTxCount)
    rw [hmap] at hresult
    obtain rfl := Except.ok.inj hresult
    exact nomatch (Prod.mk.inj (Except.ok.inj hmore)).1
  have hmap := fun fuel => @mapIds_of_room env fuel _ _ hprefilled hwell (.inl hfew) hroom
  rw [hmap _ (le_max_right fuel cmpctblock.blockTxCount)] at hresult
  obtain rfl := Except.ok.inj hresult
  have hnodup : cmpctblock.shorttxids.Nodup := by
    by_contra hnot
    rw [if_neg hnot] at hmore
    exact nomatch (Prod.mk.inj (Except.ok.inj hmore)).1
  obtain ⟨-, hrest⟩ := Prod.mk.inj (Except.ok.inj hmore)
  obtain ⟨rfl, rfl⟩ := Prod.mk.inj hrest
  refine ⟨?_, hwell, hnodup, _, rfl, ?_, orStop_eq_ok.1 hfind⟩
  · simp only [Bool.or_eq_true, not_or, Bool.not_eq_true] at hnull
    exact hnull.1
  · rw [hlayOut, hmap _ le_rfl, if_pos hnodup]
    rfl

end

def floodTx : CTransaction := ⟨1, [⟨⟨0, 0⟩, [], 0, []⟩], [], 0⟩

def floodBlock : CBlockHeaderAndShortTxIDs where
  header := ⟨⟨0, 0, 0, 0, 1, 0⟩, none⟩
  nonce := 0
  shorttxids := [0]
  prefilledtxn := List.replicate 65536 ⟨0, floodTx⟩

theorem wellPlaced_replicate (nShort i n : ℕ) (h : i + n ≤ 65536) :
    WellPlaced nShort i i (List.replicate n ⟨0, floodTx⟩) := by
  induction n generalizing i with
  | zero => trivial
  | succ n ih =>
    refine ⟨rfl, ?_, ?_, ih (i + 1) (by omega)⟩
    · change i + 0 ≤ 65535
      omega
    · exact Nat.le_add_left i nShort

/-- With a prefilled transaction at each of the first `2 ^ 16` positions and a short id, `InitData`
looks for a free slot for ever. -/
theorem initData_floodBlock : ∃ env : RelayEnv, ∀ fuel,
    initData env fuel init floodBlock [] [] = .error .outOfFuel := by
  let env : RelayEnv := ⟨fun _ => 0, fun _ => 0, fun _ _ _ => 0, fun _ _ _ => 0, fun _ => .ok ()⟩
  have hwell : floodBlock.WellPrefilled := wellPlaced_replicate 1 0 65536 le_rfl
  have hlength : floodBlock.prefilledtxn.length = 65536 := length_replicate
  have hlong : floodBlock.blockTxCount ≤ 100000 := by
    rw [blockTxCount, hlength]
    decide
  obtain ⟨txn_available, hprefilled, hlayOut⟩ := @layOut_prefilled env floodBlock init hwell
  refine ⟨env, fun fuel => ?_⟩
  rw [initData_eq rfl (fun h => cons_ne_nil _ _ h.1) hlong, hlayOut,
    mapIds_hangs hprefilled hwell hlength.ge (cons_ne_nil 0 [])]
  rfl

end CBlockHeaderAndShortTxIDs

end Coinyecoin
